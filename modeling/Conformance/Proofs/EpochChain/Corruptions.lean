import Conformance.Proofs.EpochChain.Verdict
import Mathlib

/-!
# What corruptions add

Each counter of a result is the number of broken links and a sum over the
corruptions, to which each gives what it states as often as it is attached. So a
corruption only adds to what is found without it, whatever it carries, and the order
of the corruptions leaves no trace in the metrics and the set of errors.
-/
namespace Conformance.EpochChain
open Conformance

/-- The directives that are found when one target after the other is looked up. -/
def lookUp (directives : List Directive) (targets : List String) : List Directive :=
  targets.flatMap fun target => directives.filter (·.target == target)

theorem countP_lookUp_cons (p : Directive → Bool) (d : Directive) (directives : List Directive)
    (targets : List String) :
    (lookUp (d :: directives) targets).countP p =
      (lookUp directives targets).countP p + if p d then targets.count d.target else 0 := by
  induction targets with
  | nil => simp [lookUp]
  | cons target targets ih =>
    simp only [lookUp, List.flatMap_cons, List.countP_append] at ih ⊢
    rw [ih, List.count_cons]
    by_cases hfound : d.target = target
    · by_cases hp : p d
      · simp [hfound, hp]
        omega
      · simp [hfound, hp]
    · have hother : (target == d.target) = false := by simpa using Ne.symm hfound
      simp [hfound, hother]
      omega

theorem countP_lookUp (p : Directive → Bool) (directives : List Directive)
    (targets : List String) :
    (lookUp directives targets).countP p =
      ((directives.filter p).map fun d => targets.count d.target).sum := by
  induction directives with
  | nil => simp [lookUp]
  | cons d rest ih =>
    rw [countP_lookUp_cons, ih, Nat.add_comm]
    by_cases hp : p d <;> simp [hp]

namespace Scenario
variable (s : Scenario)

/-- What the nodes look up: each of them its own name, and the one for every node. -/
def lookedUp : List String := s.nodes.flatMap fun n => [n.nodeId, wildcard]

/-- How often the directive is attached to nodes. -/
def attachments (d : Directive) : ℕ := s.lookedUp.count d.target

/-- How often directives that state the code are attached to nodes. -/
def statements (code : Code) : ℕ :=
  ((s.corruptions.filter fun d => d.States code).map s.attachments).sum

theorem corruptions_pushes :
    s.pushes.flatMap Push.corruptions =
      lookUp s.corruptions (s.sortedNodes.flatMap fun n => [n.nodeId, wildcard]) := by
  rw [pushes, view, lookUp, List.flatMap_map, List.flatMap_map, List.flatMap_assoc]
  simp [viewNode, directivesFor]

theorem countP_states (code : Code) :
    (s.pushes.flatMap Push.corruptions).countP (fun d => d.States code) = s.statements code := by
  have hlookedUp : (s.sortedNodes.flatMap fun n => [n.nodeId, wildcard]).Perm s.lookedUp :=
    s.sortedNodes_perm.flatMap_right _
  rw [corruptions_pushes, countP_lookUp]
  simp only [hlookedUp.count_eq]
  rfl

/-- The metrics follow from the links of the nodes and from what the corruptions state. -/
theorem simulate_metrics :
    s.simulate.metrics =
      { chainLength := s.nodes.length
        hashChainBreaks := brokenLinks s.sortedNodes + s.statements .chainBreak
        corruptionsApplied := s.corruptions.length
        acceptedNodes := s.nodes.length - brokenLinks s.sortedNodes
        rejectedNodes := brokenLinks s.sortedNodes + s.statements .truncated } := by
  have hfound := s.found_walk
  have hlength : (s.pushes.map Push.node).length = s.nodes.length := by
    rw [List.length_map, pushes, view, List.length_map, List.length_map,
      s.sortedNodes_perm.length_eq]
  have hchain : (Verifier.new.walk s.view).metrics.chainLength = s.nodes.length :=
    hfound.chainLength.trans hlength
  have haccepted : (Verifier.new.walk s.view).metrics.acceptedNodes =
      s.nodes.length - brokenLinks s.sortedNodes := by
    rw [← hlength, ← brokenLinks_pushes]
    exact Nat.eq_sub_of_add_eq hfound.accepted
  have hbreaks := hfound.breaks
  have hrejected := hfound.rejected
  rw [brokenLinks_pushes, countP_states] at hbreaks hrejected
  simp only [simulate, Verifier.finish, hchain, haccepted, hbreaks, hrejected]

variable {s}

theorem statements_of_perm {corruptions : List Directive} (h : corruptions.Perm s.corruptions)
    (code : Code) : { s with corruptions }.statements code = s.statements code :=
  ((h.filter _).map _).sum_eq

theorem statements_cons (d : Directive) (code : Code) :
    { s with corruptions := d :: s.corruptions }.statements code =
      s.statements code + if d.States code then s.attachments d else 0 := by
  unfold statements
  by_cases h : d.States code
  · rw [if_pos h, List.filter_cons_of_pos (by simpa using h), List.map_cons, List.sum_cons,
      Nat.add_comm]
    rfl
  · rw [if_neg h, List.filter_cons_of_neg (by simpa using h)]
    rfl

theorem applied_of_perm {corruptions : List Directive} (h : corruptions.Perm s.corruptions)
    (code : Code) : { s with corruptions }.Applied code ↔ s.Applied code :=
  exists_congr fun _ => and_congr_left' h.mem_iff

theorem applied_cons (d : Directive) (code : Code) :
    { s with corruptions := d :: s.corruptions }.Applied code ↔
      s.Applied code ∨ s.Reached d ∧ d.States code := by
  unfold Applied
  rw [List.exists_mem_cons_iff, or_comm]
  rfl

theorem simulate_of_perm {corruptions : List Directive} (h : corruptions.Perm s.corruptions) :
    { s with corruptions }.simulate.metrics = s.simulate.metrics ∧
    ∀ name, name ∈ { s with corruptions }.simulate.errors ↔ name ∈ s.simulate.errors := by
  constructor
  · rw [simulate_metrics, simulate_metrics, statements_of_perm h, statements_of_perm h]
    simp only [h.length_eq]
    rfl
  · intro name
    rw [mem_simulate_errors_iff, mem_simulate_errors_iff]
    simp only [applied_of_perm h]
    rfl

/-- One more corruption first of all adds what it states, as often as it is attached. -/
theorem simulate_cons (d : Directive) :
    let more := { s with corruptions := d :: s.corruptions }.simulate
    let found := s.simulate.metrics
    more.metrics = { found with
      corruptionsApplied := found.corruptionsApplied + 1
      hashChainBreaks :=
        found.hashChainBreaks + if d.States .chainBreak then s.attachments d else 0
      rejectedNodes :=
        found.rejectedNodes + if d.States .truncated then s.attachments d else 0 } ∧
    ∀ name, name ∈ more.errors ↔
      name ∈ s.simulate.errors ∨ s.Reached d ∧ ∃ code, d.States code ∧ name = code.name := by
  intro more found
  constructor
  · simp only [more, found, simulate_metrics, statements_cons, Nat.add_assoc]
    rfl
  · intro name
    rw [mem_simulate_errors_iff, mem_simulate_errors_iff]
    simp only [applied_cons, or_and_right, exists_or, and_assoc, exists_and_left, or_assoc]
    rfl

/-- A corruption leaves the length of the chain and the accepted nodes as they are and adds to the
breaks, the rejections and the errors what it states, wherever it is inserted and whatever it
carries. The order of the corruptions has no effect on the metrics and on which errors there are. -/
theorem corruptions_only_add (s : Scenario) :
    (∀ i ≤ s.corruptions.length, ∀ d : Directive,
      let more := { s with corruptions := s.corruptions.insertIdx i d }.simulate
      let found := s.simulate.metrics
      more.metrics = { found with
        corruptionsApplied := found.corruptionsApplied + 1
        hashChainBreaks :=
          found.hashChainBreaks + if d.States .chainBreak then s.attachments d else 0
        rejectedNodes :=
          found.rejectedNodes + if d.States .truncated then s.attachments d else 0 } ∧
      ∀ name, name ∈ more.errors ↔
        name ∈ s.simulate.errors ∨ s.Reached d ∧ ∃ code, d.States code ∧ name = code.name) ∧
    ∀ corruptions : List Directive, corruptions.Perm s.corruptions →
      let other := { s with corruptions }.simulate
      other.metrics = s.simulate.metrics ∧
      ∀ name, name ∈ other.errors ↔ name ∈ s.simulate.errors := by
  refine ⟨fun i hi d => ?_, fun corruptions h => simulate_of_perm h⟩
  have hperm : (s.corruptions.insertIdx i d).Perm (d :: s.corruptions) :=
    List.perm_insertIdx d s.corruptions hi
  obtain ⟨hmetrics, herrors⟩ :=
    simulate_of_perm (s := { s with corruptions := d :: s.corruptions }) hperm
  obtain ⟨hadded, hlisted⟩ := s.simulate_cons d
  exact ⟨hmetrics.trans hadded, fun name => (herrors name).trans (hlisted name)⟩

namespace ForgedHash

/-- A link of two nodes, the second of which has a stale reference. -/
def scenario : Scenario :=
  .plain [.plain "n1" 1 "h1" "h0", .plain "n2" 2 "h2" "h1"] [.plain "STALE_EPOCH_REF" (some "n2")]

/-- Truncates every node and carries other hashes for it. -/
def directive : Directive where
  kind := "truncated_eare"
  targetNode := none
  fields := some [("eare_hash", .text "forged"), ("previous_epoch_hash", .text "forged")]
  payloadPatch := some (.text "forged")
  reason := none

theorem directive_states_truncated : directive.States .truncated := by
  rw [Directive.states_iff]
  exact .inl (by cbv)

theorem directive_states_no_break : ¬ directive.States .chainBreak := by
  have hupper : directive.kind.toUpper = "TRUNCATED_EARE" := by cbv
  rw [Directive.states_iff, hupper]
  decide

end ForgedHash

open ForgedHash in
theorem corruptions_only_add_forged_hash :
    let more := { scenario with corruptions := scenario.corruptions.insertIdx 0 directive }.simulate
    let found := scenario.simulate
    more.metrics.acceptedNodes = found.metrics.acceptedNodes ∧
    more.metrics.hashChainBreaks = found.metrics.hashChainBreaks ∧
    more.metrics.rejectedNodes = found.metrics.rejectedNodes + 2 ∧
    "TRUNCATED_EARE" ∈ more.errors ∧
    { scenario with corruptions := scenario.corruptions.reverse }.simulate.metrics =
      found.metrics := by
  obtain ⟨hinsert, hreorder⟩ := corruptions_only_add scenario
  obtain ⟨hmetrics, herrors⟩ := hinsert 0 (Nat.zero_le _) directive
  have hattached : scenario.attachments directive = 2 := by decide
  rw [if_neg directive_states_no_break, if_pos directive_states_truncated, hattached] at hmetrics
  refine ⟨?_, ?_, ?_, ?_, (hreorder _ (List.reverse_perm _)).1⟩
  · rw [hmetrics]
  · rw [hmetrics]
    rfl
  · rw [hmetrics]
  · exact (herrors _).mpr (.inr ⟨by decide, .truncated, directive_states_truncated, rfl⟩)

end Scenario

end Conformance.EpochChain
