import Conformance.Proofs.EpochFork.Sums

/-!
# What a scenario is refused for

A graph is refused when two of its nodes share a name or when an edge or a parent
names no node, and a replay at the first issue that is not dropped and names no
node. Other events refuse nothing, so they can be taken out of the stream or put
into it without changing the refusal. Sums that do not fit refuse nothing either:
a program that checks them stops without an answer, and one that does not goes on.
-/
namespace Conformance.EpochFork
open Conformance

namespace Graph

/-- Some node has the name. -/
def Names (g : Graph) (name : String) : Prop := ∃ node ∈ g.nodes, node.nodeId = name

instance (g : Graph) (name : String) : Decidable (g.Names name) :=
  inferInstanceAs (Decidable (∃ node ∈ g.nodes, _))

theorem has_iff (g : Graph) (name : String) : g.has name = true ↔ g.Names name := by
  simp [has, get?, Names]

theorem unknownEnd?_eq_none_iff (g : Graph) :
    g.unknownEnd? = none ↔ ∀ edge ∈ g.edges, g.Names edge.source ∧ g.Names edge.target := by
  simp only [unknownEnd?, List.find?_eq_none, List.mem_flatMap, Bool.not_eq_true', ← has_iff]
  constructor
  · intro h edge hedge
    constructor
    · simpa using h edge.source ⟨edge, hedge, by simp⟩
    · simpa using h edge.target ⟨edge, hedge, by simp⟩
  · rintro h name ⟨edge, hedge, hname⟩
    rcases List.mem_pair.mp hname with rfl | rfl
    · simpa using (h edge hedge).1
    · simpa using (h edge hedge).2

theorem unknownParent?_eq_none_iff (g : Graph) :
    g.unknownParent? = none ↔
      ∀ node ∈ g.nodes, ∀ parent, node.parentId = some parent → g.Names parent := by
  simp only [unknownParent?, List.findSome?_eq_none_iff, ← has_iff]
  refine forall₂_congr fun node _ => ?_
  cases node.parentId with
  | none => simp
  | some parent => simp

theorem refusal?_eq_none_iff (g : Graph) :
    g.refusal? = none ↔ (g.nodes.map Node.nodeId).Nodup ∧
      (∀ edge ∈ g.edges, g.Names edge.source ∧ g.Names edge.target) ∧
      ∀ node ∈ g.nodes, ∀ parent, node.parentId = some parent → g.Names parent := by
  have hnames := repeatedName?_eq_none_iff [] g.nodes
  simp only [List.not_mem_nil, not_false_eq_true, implies_true, and_true] at hnames
  rw [← hnames, ← unknownEnd?_eq_none_iff, ← unknownParent?_eq_none_iff, refusal?]
  cases repeatedName? [] g.nodes with
  | some name => simp
  | none =>
    cases g.unknownEnd? with
    | some name => simp
    | none => simp

end Graph

/-- The refusal of an issue that is not dropped and names no node. -/
def Event.refusal? (g : Graph) (e : Event) : Option Refusal :=
  if e.kind = "epoch_issue" ∧ e.isDropped = false ∧ e.nodeId.bind g.get? = none then
    some (.unknownIssue e.time e.nodeId)
  else none

theorem Event.refusal?_eq_none {g : Graph} {e : Event}
    (h : e.kind ≠ "epoch_issue" ∨ "drop_next_eare" ∈ e.faults) : e.refusal? g = none := by
  apply if_neg
  rintro ⟨hkind, hkept, -⟩
  rcases h with hother | hdropped
  · exact hother hkind
  · simp [isDropped, hdropped] at hkept

theorem Event.not_known_iff (g : Graph) (e : Event) :
    ¬ e.Known g ↔ e.kind = "epoch_issue" ∧ "drop_next_eare" ∉ e.faults ∧
      (e.nodeId = none ∨ ∃ name, e.nodeId = some name ∧ ¬ g.Names name) := by
  simp only [Known, Classical.not_imp]
  refine and_congr_right fun _ => and_congr_right fun _ => ?_
  cases e.nodeId with
  | none => simp
  | some name => simp [Graph.Names, eq_comm]

theorem step_eq_error_iff (g : Graph) (t : Tracker) (e : Event) (r : Refusal) :
    step g t e = .error r ↔ e.refusal? g = some r := by
  unfold step Event.refusal?
  split
  · rename_i hkind
    cases hdrop : e.isDropped with
    | true => simp
    | false => cases hnode : e.nodeId.bind g.get? <;> simp [hkind]
  · rename_i hkind
    simp [hkind]
  · rename_i hkind
    simp [hkind]
  · rename_i hissue _ _
    rw [if_neg fun h => hissue h.1]
    simp

/-- A run ends at the first event that is refused. -/
theorem run_eq_error_iff (g : Graph) (t : Tracker) (events : List Event) (r : Refusal) :
    events.foldlM (step g) t = .error r ↔ events.findSome? (Event.refusal? g) = some r := by
  induction events generalizing t with
  | nil => simp [pure, Except.pure]
  | cons e events ih =>
    rw [List.foldlM_cons, List.findSome?_cons]
    have hstep := step_eq_error_iff g t e
    cases hs : step g t e with
    | error reason =>
      rw [(hstep reason).mp hs]
      simp
    | ok t' =>
      have hnone : e.refusal? g = none := by
        rw [Option.eq_none_iff_forall_ne_some]
        intro reason hreason
        cases hs.symm.trans ((hstep reason).mpr hreason)
      rw [hnone]
      exact ih t'

theorem simulate_eq_error_iff (g : Graph) (reference : Reference) (events : List Event)
    (r : Refusal) : simulate g reference events = .error r ↔
      (∃ reason, g.refusal? = some reason ∧ r = .graph reason) ∨
        (g.refusal? = none ∧ (inOrder events).findSome? (Event.refusal? g) = some r) := by
  unfold simulate
  cases g.refusal? with
  | some reason => simp [eq_comm]
  | none =>
    simp only [bind_eq_error_iff, run_eq_error_iff]
    simp [pure, Except.pure]

/-- An event that is not refused can be taken out of a stream and leaves the first refusal. -/
theorem findSome?_inOrder_remove {g : Graph} {e : Event} (he : e.refusal? g = none)
    (before after : List Event) :
    (inOrder (before ++ e :: after)).findSome? (Event.refusal? g) =
      (inOrder (before ++ after)).findSome? (Event.refusal? g) := by
  let refused (x : Event) : Bool := (x.refusal? g).isSome
  have hrefused : refused e = false := by simp [refused, he]
  have hfilter (l : List Event) : l.findSome? (Event.refusal? g) =
      (l.filter refused).findSome? (Event.refusal? g) := by
    rw [← List.head?_filterMap, ← List.head?_filterMap, List.filterMap_filter]
    congr 2
    funext x
    cases hx : x.refusal? g <;> simp [refused, hx]
  have hsame : (before ++ e :: after).filter refused = (before ++ after).filter refused := by
    rw [List.filter_append, List.filter_cons_of_neg (by simp [hrefused]), ← List.filter_append]
  have hfirst := (sortsBy_inOrder (before ++ e :: after)).filter refused
  rw [hsame] at hfirst
  rw [hfilter, hfirst.unique ((sortsBy_inOrder (before ++ after)).filter refused), ← hfilter]

namespace Scenario

theorem simulate_eq_error (s : Scenario) (fault : Fault) :
    s.simulate = .error fault ↔ ∃ r,
      EpochFork.simulate s.graph (.ofName s.expectations.detectionReference) s.events = .error r ∧
        r.fault s.scenarioId = fault := by
  unfold simulate
  cases EpochFork.simulate s.graph (.ofName s.expectations.detectionReference) s.events <;>
    simp [Except.mapError]

theorem exists_simulate_eq_error_iff (s : Scenario) :
    (∃ fault, s.simulate = .error fault) ↔
      s.graph.refusal? ≠ none ∨ ∃ e ∈ s.events, ¬ e.Known s.graph := by
  have hok := exists_simulate_eq_ok_iff s.graph (.ofName s.expectations.detectionReference) s.events
  simp only [← s.simulate_eq_ok_iff] at hok
  have herror : (∃ fault, s.simulate = .error fault) ↔
      ¬ ∃ outcome, s.simulate = .ok outcome := by
    cases s.simulate <;> simp
  rw [herror, hok]
  simp only [not_and_or, not_forall, exists_prop, ne_eq]

/-- A scenario is refused exactly for a name that two nodes share, for an edge or a parent that
names no node, or for an issue that is not dropped and names no node, and always as a corpus. No
other event changes the refusal, wherever it stands in the stream. A program that checks its sums
answers the same or stops, and of a graph that is not refused it stops exactly where they do not
fit. -/
theorem refused_iff (s : Scenario) :
    ((∃ fault, s.simulate = .error fault) ↔
      ¬ (s.graph.nodes.map Node.nodeId).Nodup ∨
      (∃ edge ∈ s.graph.edges, ¬ s.graph.Names edge.source ∨ ¬ s.graph.Names edge.target) ∨
      (∃ node ∈ s.graph.nodes, ∃ parent, node.parentId = some parent ∧ ¬ s.graph.Names parent) ∨
      ∃ e ∈ s.events, e.kind = "epoch_issue" ∧ "drop_next_eare" ∉ e.faults ∧
        (e.nodeId = none ∨ ∃ name, e.nodeId = some name ∧ ¬ s.graph.Names name)) ∧
    (∀ fault, s.simulate = .error fault → fault.kind = .corpus) ∧
    (∀ before e after, s.events = before ++ e :: after →
      e.kind ≠ "epoch_issue" ∨ "drop_next_eare" ∈ e.faults →
        ∀ fault, s.simulate = .error fault ↔
          { s with events := before ++ after }.simulate = .error fault) ∧
    (s.simulateChecked = none ∨ s.simulateChecked = some s.simulate) ∧
    (s.simulateChecked = some s.simulate ↔
      s.graph.refusal? ≠ none ∨ SumsFit s.graph (inOrder s.events)) := by
  refine ⟨?_, ?_, ?_, s.simulateChecked_cases, s.simulateChecked_eq_some_iff⟩
  · rw [exists_simulate_eq_error_iff, ne_eq, Graph.refusal?_eq_none_iff]
    simp only [Event.not_known_iff, not_and_or, not_forall, exists_prop, or_assoc]
  · intro fault h
    obtain ⟨r, -, rfl⟩ := (s.simulate_eq_error fault).mp h
    exact Fault.kind_within _ _
  · intro before e after hevents he fault
    have hfirst := findSome?_inOrder_remove (g := s.graph) (Event.refusal?_eq_none he) before after
    rw [simulate_eq_error, simulate_eq_error]
    simp only [simulate_eq_error_iff, hevents, hfirst]

/-- A root, and two events that say nothing of it before an issue of a node that is not there. -/
def strayIssue : Scenario where
  scenarioId := "stray-issue"
  tags := []
  groupContext := []
  graph := {
    nodes := [⟨"root", 1, "r", none, none, none, "", 0⟩]
    edges := [⟨"root", "root", none⟩] }
  events := [{ issueAt 1 "ghost" with faults := ["drop_next_eare"] },
    { issueAt 2 "ghost" with kind := "handover" }, issueAt 7 "ghost"]
  expectations := .unchecked

theorem sumsFit_strayIssue : SumsFit strayIssue.graph (inOrder strayIssue.events) := by
  have hevents : ∀ e ∈ inOrder strayIssue.events,
      e.lost = 0 ∧ e.issued? strayIssue.graph = none := by
    simp only [mem_inOrder]
    decide
  have hnone : ∀ earlier later, inOrder strayIssue.events = earlier ++ later →
      ∀ fork, ¬ FirstFork strayIssue.graph earlier fork := by
    rintro earlier later hsplit fork ⟨before, after, hfork, ⟨node, hissued, -⟩, -⟩
    have hmem : fork ∈ inOrder strayIssue.events := by
      rw [hsplit, hfork]
      simp
    cases (hevents fork hmem).2.symm.trans hissued
  constructor
  · intro earlier later hsplit _
    have hzero : ∀ n ∈ earlier.map Event.lost, n = 0 := by
      intro n hn
      obtain ⟨e, he, rfl⟩ := List.mem_map.mp hn
      exact (hevents e (hsplit ▸ List.mem_append_left later he)).1
    rw [List.sum_eq_zero hzero]
    rfl
  · exact fun earlier later hsplit _ fork hfork => absurd hfork (hnone earlier later hsplit fork)
  · exact fun _ fork hfork => absurd hfork (hnone _ [] (List.append_nil _).symm fork)

/-- One message more than a signed word counts, before an issue of a node that is not there. -/
def strayIssueAfterLosses : Scenario :=
  { strayIssue with
    events := [{ loseTwoAt 1 with count := some Word.greatestSigned },
      { loseTwoAt 2 with count := some 1 }, issueAt 7 "ghost"] }

theorem strayIssue_refused :
    (∃ fault, strayIssue.simulate = .error fault ∧ fault.kind = .corpus ∧
      { strayIssue with events := [{ issueAt 2 "ghost" with kind := "handover" },
        issueAt 7 "ghost"] }.simulate = .error fault ∧
      strayIssue.simulateChecked = some (.error fault)) ∧
    (∃ fault, strayIssueAfterLosses.simulate = .error fault ∧ fault.kind = .corpus) ∧
    strayIssueAfterLosses.simulateChecked = none := by
  have hstray : ¬ strayIssue.graph.Names "ghost" := by decide
  have hrefuses : ∀ s : Scenario, s.graph = strayIssue.graph → issueAt 7 "ghost" ∈ s.events →
      ∃ fault, s.simulate = .error fault ∧ fault.kind = .corpus := by
    intro s hgraph hissue
    obtain ⟨hrefused, hcorpus, -⟩ := refused_iff s
    obtain ⟨fault, hfault⟩ := hrefused.mpr <| .inr <| .inr <| .inr
      ⟨issueAt 7 "ghost", hissue, rfl, by decide, .inr ⟨"ghost", rfl, hgraph ▸ hstray⟩⟩
    exact ⟨fault, hfault, hcorpus fault hfault⟩
  obtain ⟨fault, hfault, hcorpus⟩ := hrefuses strayIssue rfl (by simp [strayIssue])
  obtain ⟨-, -, hothers, -, hchecked⟩ := refused_iff strayIssue
  refine ⟨⟨fault, hfault, hcorpus, (hothers [] _ _ rfl (.inr (by decide)) fault).mp hfault, ?_⟩,
    hrefuses strayIssueAfterLosses rfl (by simp [strayIssueAfterLosses]), by cbv⟩
  rw [hchecked.mpr (.inr sumsFit_strayIssue), hfault]

end Scenario
end Conformance.EpochFork
