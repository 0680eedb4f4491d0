import Conformance.EpochChain.Verdict
import Conformance.Proofs.EpochChain.Order
import Conformance.Proofs.Report
import Mathlib

/-!
# The verdict on an epoch chain

Whether a scenario passes follows from its broken links, the codes that its
corruptions state and its expectations. The targets of the corruptions, the order of
the nodes and the walk along them enter through what the verifier lists and counts;
each check reads one part of that and records its failure by itself.
-/
namespace Conformance.EpochChain
open Conformance

namespace Scenario
variable (s : Scenario)

/-- The directive targets some node, by its name or as one of all nodes. -/
def Reached (d : Directive) : Prop :=
  ∃ n ∈ s.nodes, d.target = n.nodeId ∨ d.target = wildcard

instance (d : Directive) : Decidable (s.Reached d) := inferInstanceAs (Decidable (∃ n ∈ _, _))

/-- A corruption that reaches a node states the code. -/
def Applied (code : Code) : Prop :=
  ∃ d ∈ s.corruptions, s.Reached d ∧ d.States code

instance (code : Code) : Decidable (s.Applied code) :=
  inferInstanceAs (Decidable (∃ d ∈ s.corruptions, _))

/-- The verifier has reason to list the code. -/
def Shows (code : Code) : Prop :=
  (code = .chainBreak ∧ ∃ j, s.Broken j) ∨ s.Applied code

instance (code : Code) : Decidable (s.Shows code) := inferInstanceAs (Decidable (_ ∨ _))

/-- There is something to detect. -/
def Detectable : Prop := (∃ j, s.Broken j) ∨ ∃ code, s.Applied code

theorem exists_shows_iff : (∃ code, s.Shows code) ↔ s.Detectable := by
  simp [Shows, Detectable, exists_or]

/-- The nodes in the order of the verifier, each with the corruptions that reach it. -/
def pushes : List Push := s.view.map fun n => ⟨n.node, n.corruptions⟩

theorem walk_view : Verifier.new.walk s.view = Verifier.pushAll s.pushes := by
  rw [Verifier.walk, Verifier.pushAll, pushes, List.foldl_map]

/-- A patched payload changes no link. -/
theorem brokenLinks_pushes : brokenLinks (s.pushes.map Push.node) = brokenLinks s.sortedNodes := by
  rw [pushes, view, List.map_map, List.map_map, brokenLinks_map]
  rfl

theorem mem_sortedNodes_iff (n : Node) : n ∈ s.sortedNodes ↔ n ∈ s.nodes :=
  (List.mergeSort_perm _ _).mem_iff

theorem mem_directives_iff (d : Directive) :
    d ∈ s.pushes.flatMap Push.corruptions ↔ d ∈ s.corruptions ∧ s.Reached d := by
  simp only [pushes, view, List.flatMap_map, List.mem_flatMap, mem_sortedNodes_iff, viewNode,
    directivesFor, List.mem_append, List.mem_filter, beq_iff_eq, Reached]
  constructor
  · rintro ⟨n, hn, ⟨hd, htarget⟩ | ⟨hd, htarget⟩⟩
    · exact ⟨hd, n, hn, .inl htarget⟩
    · exact ⟨hd, n, hn, .inr htarget⟩
  · rintro ⟨hd, n, hn, htarget | htarget⟩
    · exact ⟨n, hn, .inl ⟨hd, htarget⟩⟩
    · exact ⟨n, hn, .inr ⟨hd, htarget⟩⟩

theorem countP_states_eq_zero_iff (code : Code) :
    (s.pushes.flatMap Push.corruptions).countP (fun d => d.States code) = 0 ↔
      ¬ s.Applied code := by
  simp only [List.countP_eq_zero, mem_directives_iff, decide_eq_true_eq, Applied]
  grind

theorem links_eq_zero_iff :
    brokenLinks (s.pushes.map Push.node) = 0 ↔ ¬ ∃ j, s.Broken j := by
  rw [brokenLinks_pushes, ← s.brokenLinks_pos_iff, Nat.pos_iff_ne_zero, not_not]

end Scenario

theorem mem_codesFrom_iff (pushes : List Push) (code : Code) :
    code ∈ codesFrom none pushes ↔
      (code = .chainBreak ∧ brokenLinks (pushes.map Push.node) ≠ 0) ∨
      ∃ d ∈ pushes.flatMap Push.corruptions, d.States code := by
  induction pushes using List.reverseRecOn with
  | nil => simp [codesFrom, brokenLinks]
  | append_singleton pushes p ih =>
    rw [codesFrom_snoc, Option.or_none, List.mem_append, ih, List.map_append, List.map_singleton,
      brokenLinks_snoc, List.flatMap_append, List.flatMap_singleton]
    simp only [Push.codes, List.mem_append, List.mem_filterMap, Directive.code?_eq_some_iff]
    by_cases hbreak : BreaksFrom (pushes.map Push.node).getLast? p.node <;> grind

namespace Scenario
variable (s : Scenario)

theorem found_walk : (Verifier.new.walk s.view).Found (s.pushes.map Push.node)
    (s.pushes.flatMap Push.corruptions) (codesFrom none s.pushes) :=
  s.walk_view ▸ Verifier.found_pushAll s.pushes

theorem mem_codes_iff (code : Code) : code ∈ codesFrom none s.pushes ↔ s.Shows code := by
  rw [mem_codesFrom_iff, Ne, links_eq_zero_iff, not_not, Shows, Applied]
  simp only [mem_directives_iff, and_assoc]

theorem mem_walk_errors_iff (code : Code) :
    code ∈ (Verifier.new.walk s.view).errors ↔ s.Shows code := by
  rw [s.found_walk.errors, List.mem_eraseDups, mem_codes_iff]

theorem mem_simulate_errors_iff (name : String) :
    name ∈ s.simulate.errors ↔ (name = Code.chainBreak.name ∧ ∃ j, s.Broken j) ∨
      ∃ code, s.Applied code ∧ name = code.name := by
  simp only [simulate, Verifier.finish, List.mem_map, mem_walk_errors_iff]
  constructor
  · rintro ⟨code, ⟨rfl, hbroken⟩ | happlied, rfl⟩
    · exact .inl ⟨rfl, hbroken⟩
    · exact .inr ⟨code, happlied, rfl⟩
  · rintro (⟨rfl, hbroken⟩ | ⟨code, happlied, rfl⟩)
    · exact ⟨.chainBreak, .inl ⟨rfl, hbroken⟩, rfl⟩
    · exact ⟨code, .inr happlied, rfl⟩

theorem walk_errors_eq_nil_iff :
    (Verifier.new.walk s.view).errors = [] ↔ ¬ ∃ code, s.Shows code := by
  simp only [List.eq_nil_iff_forall_not_mem, mem_walk_errors_iff, not_exists]

theorem simulate_detection_iff : s.simulate.detection = true ↔ s.Detectable := by
  rw [simulate, Verifier.finish, Bool.not_eq_true', List.isEmpty_eq_false_iff, Ne,
    walk_errors_eq_nil_iff, not_not, exists_shows_iff]

/-- Nothing is found later than at once. -/
theorem simulate_detectionMs :
    s.simulate.detectionMs = if s.simulate.detection then some 0 else none := by
  simp only [simulate, Verifier.finish]
  by_cases h : (Verifier.new.walk s.view).errors.isEmpty <;> simp [h]

theorem simulate_rejectedNodes_eq_zero_iff :
    s.simulate.metrics.rejectedNodes = 0 ↔ (¬ ∃ j, s.Broken j) ∧ ¬ s.Applied .truncated := by
  rw [← links_eq_zero_iff, ← countP_states_eq_zero_iff, ← Nat.add_eq_zero_iff,
    ← s.found_walk.rejected]
  rfl

theorem simulate_hashChainBreaks_eq_zero_iff :
    s.simulate.metrics.hashChainBreaks = 0 ↔ (¬ ∃ j, s.Broken j) ∧ ¬ s.Applied .chainBreak := by
  rw [← links_eq_zero_iff, ← countP_states_eq_zero_iff, ← Nat.add_eq_zero_iff,
    ← s.found_walk.breaks]
  rfl

end Scenario

/-- All failures, in the order of the checks. -/
def Failure.all : List Failure :=
  [detectionMismatch, missingDetectionMs, detectionTooLate, unexpectedDetectionMs,
    missingExpectedErrors, partialAcceptNotAllowed, residualDivergence]

theorem Failure.name_injective : Function.Injective Failure.name := by
  intro a b h
  cases a <;> cases b <;> first | rfl | exact absurd h (by decide)

namespace Expectations
variable (e : Expectations) (r : Result)

/-- The result is not as it is expected in the way that the failure names. -/
def Unmet : Failure → Prop
  | .detectionMismatch => r.detection ≠ e.shouldDetect
  | .missingDetectionMs => e.shouldDetect = true ∧ r.detectionMs = none
  | .detectionTooLate =>
    e.shouldDetect = true ∧ ∃ ms ∈ r.detectionMs, 0 < e.maxDetectionMs ∧ e.maxDetectionMs < ms
  | .unexpectedDetectionMs => e.shouldDetect = false ∧ ∃ ms ∈ r.detectionMs, ms ≠ 0
  | .missingExpectedErrors => ∃ name ∈ e.expectedErrors, name ∉ r.errors
  | .partialAcceptNotAllowed => e.allowPartialAccept = false ∧ r.metrics.rejectedNodes ≠ 0
  | .residualDivergence => e.residualDivergenceAllowed = false ∧ r.metrics.hashChainBreaks ≠ 0

theorem mem_timing_iff (f : Failure) :
    f ∈ e.timing r.detectionMs ↔ e.Unmet r f ∧
      (f = .missingDetectionMs ∨ f = .detectionTooLate ∨ f = .unexpectedDetectionMs) := by
  unfold timing
  cases hdetect : e.shouldDetect with
  | false => cases f <;> cases hms : r.detectionMs <;> simp [Unmet, hdetect, hms]
  | true =>
    cases hms : r.detectionMs with
    | none => cases f <;> simp [Unmet, hdetect, hms]
    | some ms => cases f <;> simp [Unmet, hdetect, hms]

theorem mem_failures_iff (f : Failure) : f ∈ e.failures r ↔ e.Unmet r f := by
  simp only [failures, List.mem_append, mem_timing_iff, List.mem_ite_nil_left, List.mem_singleton]
  cases f <;> simp [Unmet, missing]

/-- The failures stand in the order of the checks. -/
theorem failures_sublist : (e.failures r).Sublist Failure.all := by
  have hcheck (p : Prop) [Decidable p] (f : Failure) : (if p then [] else [f]).Sublist [f] := by
    split <;> simp
  have htiming : (e.timing r.detectionMs).Sublist
      [.missingDetectionMs, .detectionTooLate, .unexpectedDetectionMs] := by
    unfold timing
    split
    · split
      · simp
      · split <;> simp
    · split <;> simp
  exact ((((hcheck _ _).append htiming).append (hcheck _ _)).append (hcheck _ _)).append
    (hcheck _ _)

theorem nodup_failures : (e.failures r).Nodup :=
  (e.failures_sublist r).nodup (by decide)

end Expectations

namespace Scenario
variable (s : Scenario)

theorem report_failures :
    s.report.failures = (s.expectations.failures s.simulate).map Failure.name :=
  (Report.new s.scenarioId).failAll_failures _

theorem report_status_eq_pass_iff :
    s.report.status = .pass ↔ ∀ f, ¬ s.expectations.Unmet s.simulate f := by
  have hstatus : s.report.status = .pass ↔ s.expectations.failures s.simulate = [] := by
    rw [← List.map_eq_nil_iff (f := Failure.name)]
    exact ((Report.new s.scenarioId).failAll_status_eq_pass_iff _).trans (and_iff_right rfl)
  simp only [hstatus, List.eq_nil_iff_forall_not_mem, Expectations.mem_failures_iff]

theorem namesOnceIff_unmet (f : Failure) :
    s.report.NamesOnceIff f.name (s.expectations.Unmet s.simulate f) := by
  refine Report.namesOnceIff_of_nodup ?_ ?_
  · rw [report_failures]
    exact (Expectations.nodup_failures _ _).map Failure.name_injective
  · rw [report_failures, List.mem_map_of_injective Failure.name_injective,
      Expectations.mem_failures_iff]

theorem unmet_detectionMismatch_iff :
    s.expectations.Unmet s.simulate .detectionMismatch ↔
      ¬ (s.Detectable ↔ s.expectations.shouldDetect = true) := by
  rw [Expectations.Unmet, ← simulate_detection_iff, Ne, Bool.eq_iff_iff]

theorem unmet_missingDetectionMs_iff :
    s.expectations.Unmet s.simulate .missingDetectionMs ↔
      s.expectations.shouldDetect = true ∧ ¬ s.Detectable := by
  rw [Expectations.Unmet, simulate_detectionMs, ← simulate_detection_iff]
  cases s.simulate.detection <;> simp

theorem eq_zero_of_mem_detectionMs {ms : ℕ} (h : ms ∈ s.simulate.detectionMs) : ms = 0 := by
  rw [simulate_detectionMs] at h
  cases hdetection : s.simulate.detection <;> simp_all

theorem not_unmet_detectionTooLate : ¬ s.expectations.Unmet s.simulate .detectionTooLate := by
  rintro ⟨-, ms, hms, -, hlate⟩
  rw [s.eq_zero_of_mem_detectionMs hms] at hlate
  exact Nat.not_lt_zero _ hlate

theorem not_unmet_unexpectedDetectionMs :
    ¬ s.expectations.Unmet s.simulate .unexpectedDetectionMs := by
  rintro ⟨-, ms, hms, hne⟩
  exact hne (s.eq_zero_of_mem_detectionMs hms)

theorem unmet_missingExpectedErrors_iff :
    s.expectations.Unmet s.simulate .missingExpectedErrors ↔
      ¬ ∀ name ∈ s.expectations.expectedErrors,
        (name = Code.chainBreak.name ∧ ∃ j, s.Broken j) ∨
          ∃ code, s.Applied code ∧ name = code.name := by
  simp only [Expectations.Unmet, mem_simulate_errors_iff, not_forall, exists_prop]

theorem unmet_partialAcceptNotAllowed_iff :
    s.expectations.Unmet s.simulate .partialAcceptNotAllowed ↔
      ¬ (s.expectations.allowPartialAccept = true ∨
        ((¬ ∃ j, s.Broken j) ∧ ¬ s.Applied .truncated)) := by
  rw [Expectations.Unmet, Ne, simulate_rejectedNodes_eq_zero_iff, not_or, Bool.not_eq_true]

theorem unmet_residualDivergence_iff :
    s.expectations.Unmet s.simulate .residualDivergence ↔
      ¬ (s.expectations.residualDivergenceAllowed = true ∨
        ((¬ ∃ j, s.Broken j) ∧ ¬ s.Applied .chainBreak)) := by
  rw [Expectations.Unmet, Ne, simulate_hashChainBreaks_eq_zero_iff, not_or, Bool.not_eq_true]

end Scenario

/-- Which failures a report names is decided by four conditions, each of them by itself; the time of
a detection is never at fault. -/
theorem Scenario.report_verdict (s : Scenario) :
    let e := s.expectations
    let broken := ∃ j, s.Broken j
    let detected := broken ∨ ∃ code, s.Applied code
    let agrees := detected ↔ e.shouldDetect = true
    let listed := ∀ name ∈ e.expectedErrors,
      (name = "HASH_CHAIN_BREAK" ∧ broken) ∨ ∃ code, s.Applied code ∧ name = code.name
    let accepted := e.allowPartialAccept = true ∨ (¬ broken ∧ ¬ s.Applied .truncated)
    let settled := e.residualDivergenceAllowed = true ∨ (¬ broken ∧ ¬ s.Applied .chainBreak)
    (s.report.status = .pass ↔ agrees ∧ listed ∧ accepted ∧ settled) ∧
    s.report.NamesOnceIff "detection_mismatch" (¬ agrees) ∧
    s.report.NamesOnceIff "missing_expected_errors" (¬ listed) ∧
    s.report.NamesOnceIff "partial_accept_not_allowed" (¬ accepted) ∧
    s.report.NamesOnceIff "residual_divergence" (¬ settled) ∧
    s.report.NamesOnceIff "missing_detection_ms" (e.shouldDetect = true ∧ ¬ detected) ∧
    "detection_sla" ∉ s.report.failures ∧ "unexpected_detection_ms" ∉ s.report.failures := by
  intro e broken detected agrees listed accepted settled
  refine ⟨s.report_status_eq_pass_iff.trans ⟨fun hmet => ?_, ?_⟩,
    (s.namesOnceIff_unmet .detectionMismatch).congr s.unmet_detectionMismatch_iff,
    (s.namesOnceIff_unmet .missingExpectedErrors).congr s.unmet_missingExpectedErrors_iff,
    (s.namesOnceIff_unmet .partialAcceptNotAllowed).congr s.unmet_partialAcceptNotAllowed_iff,
    (s.namesOnceIff_unmet .residualDivergence).congr s.unmet_residualDivergence_iff,
    (s.namesOnceIff_unmet .missingDetectionMs).congr s.unmet_missingDetectionMs_iff,
    (s.namesOnceIff_unmet .detectionTooLate).2 s.not_unmet_detectionTooLate,
    (s.namesOnceIff_unmet .unexpectedDetectionMs).2 s.not_unmet_unexpectedDetectionMs⟩
  · exact ⟨not_not.mp (mt s.unmet_detectionMismatch_iff.mpr (hmet _)),
      not_not.mp (mt s.unmet_missingExpectedErrors_iff.mpr (hmet _)),
      not_not.mp (mt s.unmet_partialAcceptNotAllowed_iff.mpr (hmet _)),
      not_not.mp (mt s.unmet_residualDivergence_iff.mpr (hmet _))⟩
  · rintro ⟨hagrees, hlisted, haccepted, hsettled⟩ f
    cases f with
    | detectionMismatch => exact fun h => s.unmet_detectionMismatch_iff.mp h hagrees
    | missingDetectionMs =>
      intro h
      have hundetected := s.unmet_missingDetectionMs_iff.mp h
      exact hundetected.2 (hagrees.mpr hundetected.1)
    | detectionTooLate => exact s.not_unmet_detectionTooLate
    | unexpectedDetectionMs => exact s.not_unmet_unexpectedDetectionMs
    | missingExpectedErrors => exact fun h => s.unmet_missingExpectedErrors_iff.mp h hlisted
    | partialAcceptNotAllowed => exact fun h => s.unmet_partialAcceptNotAllowed_iff.mp h haccepted
    | residualDivergence => exact fun h => s.unmet_residualDivergence_iff.mp h hsettled

namespace SwappedNodes

def node (nodeId : String) (epochId : ℤ) (hash previousHash : String) : Node :=
  ⟨nodeId, epochId, hash, "controller", previousHash, "digest", none⟩

/-- The later node stands first, and it names a wrong hash. -/
def scenario : Scenario where
  scenarioId := "swapped"
  tags := []
  group := ⟨"group", 0, 0⟩
  nodes := [node "n2" 2 "h2" "forged", node "n1" 1 "h1" "h0"]
  corruptions := []
  expectations := ⟨true, ["HASH_CHAIN_BREAK", "INVALID_POP"], 0, false, false⟩

end SwappedNodes
open SwappedNodes

theorem Scenario.report_verdict_swappedNodes :
    scenario.Broken ⟨0, by decide⟩ ∧ scenario.report.status ≠ .pass ∧
    "detection_mismatch" ∉ scenario.report.failures ∧
    scenario.report.failures.count "missing_expected_errors" = 1 ∧
    scenario.report.failures.count "partial_accept_not_allowed" = 1 ∧
    scenario.report.failures.count "residual_divergence" = 1 := by
  have hbroken : scenario.Broken ⟨0, by decide⟩ := by decide
  have happlied (code : Code) : ¬ scenario.Applied code := by
    rintro ⟨d, hd, -⟩
    exact List.not_mem_nil hd
  obtain ⟨hstatus, hdetection, hmissing, hpartial, hresidual, -⟩ := Scenario.report_verdict scenario
  have hunlisted : ¬ ∀ name ∈ scenario.expectations.expectedErrors,
      (name = "HASH_CHAIN_BREAK" ∧ ∃ j, scenario.Broken j) ∨
        ∃ code, scenario.Applied code ∧ name = code.name := by
    intro hlisted
    rcases hlisted "INVALID_POP" (by decide) with ⟨hname, -⟩ | ⟨code, hcode, -⟩
    · exact absurd hname (by decide)
    · exact happlied code hcode
  have hopen (allowed : Bool) (hallowed : allowed = false) (code : Code) :
      ¬ (allowed = true ∨ ((¬ ∃ j, scenario.Broken j) ∧ ¬ scenario.Applied code)) := by
    rintro (h | ⟨hintact, -⟩)
    · exact Bool.noConfusion (hallowed.symm.trans h)
    · exact hintact ⟨_, hbroken⟩
  refine ⟨hbroken, ?_, ?_, hmissing.1 hunlisted, hpartial.1 (hopen _ rfl _),
    hresidual.1 (hopen _ rfl _)⟩
  · exact fun hpass => hunlisted (hstatus.mp hpass).2.1
  · exact hdetection.2 (not_not.mpr (iff_of_true (.inl ⟨_, hbroken⟩) rfl))

end Conformance.EpochChain
