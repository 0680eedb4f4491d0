import Conformance.EpochFork.Verdict
import Conformance.Proofs.EpochFork.Reconciliation
import Conformance.Proofs.Report
import Conformance.Proofs.Runner
import Mathlib

/-!
# The verdict on an epoch fork

What is expected of an outcome is stated by itself: what is expected to be there is
there, and as expected. A scenario passes exactly if its outcome is so, as long as
some issue is not dropped or no winner is expected. The checks of the winner ask that
every winner be as expected, which says nothing where there is none.
-/
namespace Conformance.EpochFork
open Conformance

namespace ReconciledEpoch

/-- Neither a hash nor an epoch is expected. -/
def Open (want : ReconciledEpoch) : Prop :=
  want.hash = "" ∧ want.epochId = 0

/-- The winner has the hash and the epoch, as far as they are expected. -/
def Agrees (want : ReconciledEpoch) (winner : Winner) : Prop :=
  (want.hash ≠ "" → want.hash = winner.hash) ∧
    (want.epochId ≠ 0 → want.epochId = winner.epochId)

end ReconciledEpoch

/-- The number keeps within the bound, if that is one. -/
def Within (n bound : ℤ) : Prop :=
  0 < bound → n ≤ bound

theorem exceeds_eq_false_iff (n bound : ℤ) : exceeds n bound = false ↔ Within n bound := by
  simp [exceeds, Within]

namespace Expectations

/-- The outcome is as expected in all that does not concern the winner. -/
structure MetBesideWinner (e : Expectations) (o : Outcome) : Prop where
  detection : o.detection = e.detected
  timely : e.detected = true → ∃ ms ∈ o.detectionMs, Within ms e.maxDetectionMs
  quiet : e.detected = false → ∀ ms ∈ o.detectionMs, ms = 0
  healed : e.healingRequired = true → ∃ ms ∈ o.reconciliationMs, Within ms e.maxReconciliationMs
  gap : Within o.messagesDropped e.allowReplayGap.maxMessages
  observed : ∀ category ∈ e.expectedErrorCategories, category ∈ o.errors

/-- The outcome is as expected. Where a hash or an epoch is expected, there is a winner that
has it. -/
structure Met (e : Expectations) (o : Outcome) : Prop extends MetBesideWinner e o where
  hash : e.reconciledEpoch.hash ≠ "" →
    ∃ winner ∈ o.winner, e.reconciledEpoch.hash = winner.hash
  epoch : e.reconciledEpoch.epochId ≠ 0 →
    ∃ winner ∈ o.winner, e.reconciledEpoch.epochId = winner.epochId

variable (e : Expectations)

theorem met_iff_of_winner {o : Outcome} {winner : Winner} (h : o.winner = some winner) :
    e.Met o ↔ e.MetBesideWinner o ∧ e.reconciledEpoch.Agrees winner := by
  constructor
  · rintro ⟨hbeside, hhash, hepoch⟩
    refine ⟨hbeside, fun hstated => ?_, fun hstated => ?_⟩
    · obtain ⟨other, hother, heq⟩ := hhash hstated
      cases h.symm.trans hother
      exact heq
    · obtain ⟨other, hother, heq⟩ := hepoch hstated
      cases h.symm.trans hother
      exact heq
  · rintro ⟨hbeside, hhash, hepoch⟩
    exact ⟨hbeside, fun hstated => ⟨winner, h, hhash hstated⟩,
      fun hstated => ⟨winner, h, hepoch hstated⟩⟩

theorem met_iff_of_no_winner {o : Outcome} (h : o.winner = none) :
    e.Met o ↔ e.MetBesideWinner o ∧ e.reconciledEpoch.Open := by
  constructor
  · rintro ⟨hbeside, hhash, hepoch⟩
    refine ⟨hbeside, not_ne_iff.mp fun hstated => ?_, not_ne_iff.mp fun hstated => ?_⟩
    · obtain ⟨winner, hwinner, -⟩ := hhash hstated
      cases h.symm.trans hwinner
    · obtain ⟨winner, hwinner, -⟩ := hepoch hstated
      cases h.symm.trans hwinner
  · rintro ⟨hbeside, hhash, hepoch⟩
    exact ⟨hbeside, fun hstated => absurd hhash hstated, fun hstated => absurd hepoch hstated⟩

theorem timing_eq_nil_iff (detectionMs : Option ℤ) :
    e.timing detectionMs = [] ↔
      (e.detected = true → ∃ ms ∈ detectionMs, Within ms e.maxDetectionMs) ∧
        (e.detected = false → ∀ ms ∈ detectionMs, ms = 0) := by
  unfold timing
  cases e.detected with
  | false => cases detectionMs <;> simp
  | true =>
    cases detectionMs with
    | none => simp
    | some ms => simp [← exceeds_eq_false_iff]

theorem healing_eq_nil_iff (reconciliationMs : Option ℤ) :
    e.healing reconciliationMs = [] ↔
      (e.healingRequired = true → ∃ ms ∈ reconciliationMs, Within ms e.maxReconciliationMs) := by
  unfold healing
  cases e.healingRequired with
  | false => simp
  | true =>
    cases reconciliationMs with
    | none => simp
    | some ms => simp [← exceeds_eq_false_iff]

/-- The checks ask this of a winner, if there is one. -/
theorem winnerFailures_eq_nil_iff (winner? : Option Winner) :
    e.winnerFailures winner? = [] ↔ ∀ winner ∈ winner?, e.reconciledEpoch.Agrees winner := by
  cases winner? with
  | none => simp [winnerFailures]
  | some winner =>
    simp only [winnerFailures, List.append_eq_nil_iff, ite_eq_left_iff, List.cons_ne_nil, imp_false,
      not_not, ReconciledEpoch.Agrees, Option.mem_some_iff, forall_eq', or_iff_not_imp_left, ne_eq]

theorem missing_eq_nil_iff (errors : List String) :
    e.missing errors = [] ↔ ∀ category ∈ e.expectedErrorCategories, category ∈ errors := by
  simp [missing, List.filter_eq_nil_iff]

theorem failures_eq_nil_iff (o : Outcome) :
    e.failures o = [] ↔
      e.MetBesideWinner o ∧ ∀ winner ∈ o.winner, e.reconciledEpoch.Agrees winner := by
  simp only [failures, List.append_eq_nil_iff, ite_eq_left_iff, ite_eq_right_iff,
    List.cons_ne_nil, imp_false, not_not, Bool.not_eq_true, timing_eq_nil_iff,
    winnerFailures_eq_nil_iff, healing_eq_nil_iff, exceeds_eq_false_iff, List.isEmpty_iff,
    missing_eq_nil_iff]
  constructor
  · rintro ⟨⟨⟨⟨⟨hdetected, htimely, hquiet⟩, hwinner⟩, hhealed⟩, hgap⟩, hobserved⟩
    exact ⟨⟨hdetected, htimely, hquiet, hhealed, hgap, hobserved⟩, hwinner⟩
  · rintro ⟨⟨hdetected, htimely, hquiet, hhealed, hgap, hobserved⟩, hwinner⟩
    exact ⟨⟨⟨⟨⟨hdetected, htimely, hquiet⟩, hwinner⟩, hhealed⟩, hgap⟩, hobserved⟩

end Expectations

theorem Outcome.report_status_eq_pass_iff (scenarioId : String) (e : Expectations) (o : Outcome) :
    (o.report scenarioId e).status = .pass ↔
      e.MetBesideWinner o ∧ ∀ winner ∈ o.winner, e.reconciledEpoch.Agrees winner := by
  simp only [Outcome.report, Report.withErrors, Report.setMetrics_status, Report.withNotes]
  rw [Report.failAll_status_eq_pass_iff, List.map_eq_nil_iff, e.failures_eq_nil_iff]
  exact and_iff_right rfl

namespace Scenario
variable {s : Scenario} {o : Outcome}

/-- Some event issues a node, as it was not dropped. -/
def Issued (s : Scenario) : Prop :=
  ∃ event ∈ s.events, event.kind = "epoch_issue" ∧ "drop_next_eare" ∉ event.faults

theorem winner_isSome_iff (h : s.simulate = .ok o) : o.winner.isSome = true ↔ s.Issued := by
  have hrun := (s.simulate_eq_ok_iff o).mp h
  obtain ⟨hgraph, hknown⟩ := (exists_simulate_eq_ok_iff _ _ _).mp ⟨o, hrun⟩
  obtain ⟨t, ht, hwinner, -⟩ := gathers_of_simulate hrun
  rw [hwinner, ht.isSome_winner_iff hgraph fun e he => hknown e ((mem_inOrder s.events e).mp he)]
  simp only [mem_inOrder, Issued]

/-- A scenario that can be simulated has a report. If some issue is not dropped, or no winner is
expected, the report passes exactly if the outcome is as expected. If all issues are dropped, there
is no winner, and the report passes exactly if the outcome is as expected in all else, whatever
winner is expected. -/
theorem report_passes_iff (h : s.simulate = .ok o) :
    ∃ r, s.report = .ok r ∧
      (s.Issued ∨ s.expectations.reconciledEpoch.Open →
        (r.status = .pass ↔ s.expectations.Met o)) ∧
      (¬ s.Issued → o.winner = none ∧ (r.status = .pass ↔ s.expectations.MetBesideWinner o)) ∧
      (r.status = .pass ↔ s.expectations.MetBesideWinner o ∧
        ∀ winner ∈ o.winner, s.expectations.reconciledEpoch.Agrees winner) := by
  have hpass := o.report_status_eq_pass_iff s.scenarioId s.expectations
  have hissued := winner_isSome_iff h
  refine ⟨_, (s.report_eq_ok_iff _).mpr ⟨o, h, rfl⟩, ?_, ?_, hpass⟩
  · intro hexpected
    rw [hpass]
    cases hwinner : o.winner with
    | some winner => simp [s.expectations.met_iff_of_winner hwinner]
    | none =>
      have hopen : s.expectations.reconciledEpoch.Open := by
        refine hexpected.resolve_left fun hsome => ?_
        rw [← hissued, hwinner] at hsome
        cases hsome
      simp [s.expectations.met_iff_of_no_winner hwinner, hopen]
  · intro hnone
    have hwinner : o.winner = none := by
      rw [← hissued, Option.isSome_iff_ne_none, not_not] at hnone
      exact hnone
    refine ⟨hwinner, ?_⟩
    rw [hpass, hwinner]
    simp

/-- A root is issued, by an event with these faults, and a winner is expected with the hash. -/
def ofRoot (faults : List String) (hash : String) : Scenario where
  scenarioId := "root"
  tags := []
  groupContext := []
  graph := ⟨[⟨"root", 1, "first", none, none, none, "", 0⟩], []⟩
  events := [⟨0, "epoch_issue", none, none, some "root", [], none, none, faults⟩]
  expectations := { Expectations.unchecked with reconciledEpoch := ⟨1, none, hash⟩ }

theorem ofRoot_metBesideWinner (faults : List String) (hash : String) (winner? : Option Winner) :
    (ofRoot faults hash).expectations.MetBesideWinner ⟨false, none, none, winner?, 0, []⟩ := by
  constructor <;> simp [ofRoot, Expectations.unchecked, ReplayGap.unchecked, Within]

theorem report_passes_of_expected_root :
    (∃ o r, (ofRoot [] "first").simulate = .ok o ∧ (ofRoot [] "first").report = .ok r ∧
      r.status = .pass ∧ (ofRoot [] "first").expectations.Met o) ∧
    ∃ o r, (ofRoot [] "second").simulate = .ok o ∧ (ofRoot [] "second").report = .ok r ∧
      r.status ≠ .pass ∧ ¬ (ofRoot [] "second").expectations.Met o := by
  have hissued (hash : String) : (ofRoot [] hash).Issued :=
    ⟨_, List.mem_cons_self, rfl, List.not_mem_nil⟩
  have houtcome (hash : String) : ∃ o, (ofRoot [] hash).simulate = .ok o ∧
      o = ⟨false, none, none, some ⟨"root", 1, "first"⟩, 0, []⟩ := ⟨_, by cbv, rfl⟩
  refine ⟨?_, ?_⟩
  · obtain ⟨o, ho, rfl⟩ := houtcome "first"
    obtain ⟨r, hr, hmet, -⟩ := report_passes_iff ho
    have hexpected : (ofRoot [] "first").expectations.Met
        ⟨false, none, none, some ⟨"root", 1, "first"⟩, 0, []⟩ := by
      refine ⟨ofRoot_metBesideWinner _ _ _, fun _ => ?_, fun _ => ?_⟩
      · exact ⟨_, rfl, rfl⟩
      · exact ⟨_, rfl, rfl⟩
    exact ⟨_, r, ho, hr, (hmet (.inl (hissued _))).mpr hexpected, hexpected⟩
  · obtain ⟨o, ho, rfl⟩ := houtcome "second"
    obtain ⟨r, hr, hmet, -⟩ := report_passes_iff ho
    have hunexpected : ¬ (ofRoot [] "second").expectations.Met
        ⟨false, none, none, some ⟨"root", 1, "first"⟩, 0, []⟩ := by
      intro h
      obtain ⟨winner, hwinner, hhash⟩ := h.hash (by decide)
      cases hwinner
      exact absurd hhash (by decide)
    exact ⟨_, r, ho, hr, mt (hmet (.inl (hissued _))).mp hunexpected, hunexpected⟩

/-- The only issue is dropped, so there is no winner, and any hash may have been expected of it. -/
theorem dropped_root_passes :
    ∃ o r, (ofRoot ["drop_next_eare"] "second").simulate = .ok o ∧
      (ofRoot ["drop_next_eare"] "second").report = .ok r ∧ r.status = .pass ∧
      (ofRoot ["drop_next_eare"] "second").expectations.reconciledEpoch.hash = "second" ∧
      o.winner = none ∧ ¬ (ofRoot ["drop_next_eare"] "second").expectations.Met o := by
  have houtcome : ∃ o, (ofRoot ["drop_next_eare"] "second").simulate = .ok o ∧
      o = ⟨false, none, none, none, 0, []⟩ := ⟨_, by cbv, rfl⟩
  obtain ⟨o, ho, rfl⟩ := houtcome
  refine ⟨_, _, ho, (Scenario.report_eq_ok_iff _ _).mpr ⟨_, ho, rfl⟩, ?_, rfl, rfl, fun h => ?_⟩
  · rw [Outcome.report_status_eq_pass_iff]
    exact ⟨ofRoot_metBesideWinner _ _ _, by simp⟩
  · obtain ⟨winner, hwinner, -⟩ := h.hash (by decide)
    cases hwinner

end Scenario
end Conformance.EpochFork
