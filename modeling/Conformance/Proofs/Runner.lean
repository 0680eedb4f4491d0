import Conformance.EpochChain.Verdict
import Conformance.EpochFork.Verdict
import Conformance.KeySchedule.Vectors
import Conformance.Message.Vectors
import Conformance.Poisoning.Sections
import Conformance.Proofs.Json.Order
import Conformance.Proofs.Pointwise
import Conformance.Proofs.Sequencing
import Conformance.Proofs.Summary
import Conformance.Sealing.Vectors

/-!
# Runs case by case

A run reports its cases one after the other into a fresh summary. Whatever is wrong
with a case becomes a failure of its own report, so a run ends early only if two
cases have one name, or if a case can have no report, which is so for epoch forks
alone. The report of a case is the one that it has by itself.
-/
namespace Conformance

/-- A kind of corpora, the way they are run, and the cases that they consist of. -/
structure Runner (α κ : Type) where
  suite : String
  corpus : Corpus α
  run : α → Except Fault Summary
  cases : α → List κ
  name : κ → String
  /-- The corpus of one case alone, which keeps all that the cases of a corpus share. -/
  only : α → κ → α
  /-- Whether the case can have a report. -/
  Reportable : κ → Prop

namespace Runner

variable {α κ : Type} (R : Runner α κ)

/-- The report is the one that the case gets when it is run alone. -/
def ReportsAlone (c : α) (k : κ) (r : Report) : Prop :=
  r.scenarioId = R.name k ∧ R.run (R.only c k) = .ok ((Summary.own R.suite).extended [r])

variable {R} in
theorem ReportsAlone.eq {c d : α} {k : κ} {r t : Report} (hr : R.ReportsAlone c k r)
    (ht : R.ReportsAlone d k t) (hshared : R.only c k = R.only d k) : r = t := by
  have hsummary := Except.ok.inj (hr.2.symm.trans (hshared ▸ ht.2))
  simpa [Summary.extended] using congrArg Summary.scenarios hsummary

/-- Runs lose no case, merge none and are ended by none, and no case changes the report of another
one. -/
structure CaseByCase : Prop where
  cases_only (c : α) (k : κ) : R.cases (R.only c k) = [k]
  exists_ok_iff (c : α) : (∃ s, R.run c = .ok s) ↔
    ((R.cases c).map R.name).Nodup ∧ ∀ k ∈ R.cases c, R.Reportable k
  reports {c : α} {s : Summary} (h : R.run c = .ok s) :
    List.Forall₂ (R.ReportsAlone c) (R.cases c) s.scenarios
  scenarioCount_eq {c : α} {s : Summary} (h : R.run c = .ok s) :
    s.scenarioCount = R.corpus.scenarioCount c
  status_eq_fail_iff {c : α} {s : Summary} (h : R.run c = .ok s) :
    ∀ r ∈ s.scenarios, r.status = .fail ↔ r.failures ≠ []
  unaffected {c d : α} {s t : Summary} (hc : R.run c = .ok s) (hd : R.run d = .ok t) {k : κ}
    (hk : k ∈ R.cases c) (hk' : k ∈ R.cases d) (hshared : R.only c k = R.only d k) :
    ∃ r ∈ s.scenarios, r ∈ t.scenarios ∧ R.ReportsAlone c k r

/-- How a run comes by the report of a case: it makes one from the case and from what the cases of
the corpus share, or ends with a fault, and records it before it goes on. -/
structure ReportedBy (report : α → κ → Except Fault Report) : Prop where
  run_eq (c : α) : R.run c =
    (R.cases c).foldlM (fun s k => do s.record (← report c k)) (Summary.own R.suite)
  isOf {c : α} {k : κ} {r : Report} (h : report c k = .ok r) : r.IsOf (R.name k)
  exists_iff (c : α) (k : κ) : (∃ r, report c k = .ok r) ↔ R.Reportable k
  report_only (c : α) (k : κ) : report (R.only c k) k = report c k
  cases_only (c : α) (k : κ) : R.cases (R.only c k) = [k]
  count_eq (c : α) : R.corpus.scenarioCount c = (R.cases c).length

theorem foldlM_record_eq_ok_iff (report : κ → Except Fault Report) (l : List κ) (s t : Summary) :
    l.foldlM (fun s k => do s.record (← report k)) s = .ok t ↔
      ∃ reports, List.Forall₂ (fun k r => report k = .ok r) l reports ∧
        s.recordAll reports = .ok t := by
  induction l generalizing s with
  | nil => simp [Summary.recordAll]
  | cons k l ih =>
    rw [List.foldlM_cons]
    simp only [bind_eq_ok_iff, ih]
    constructor
    · rintro ⟨middle, ⟨r, hr, hrecord⟩, reports, hreports, hall⟩
      refine ⟨r :: reports, .cons hr hreports, ?_⟩
      rw [Summary.recordAll, List.foldlM_cons, hrecord]
      exact hall
    · rintro ⟨_, hreports, hall⟩
      obtain ⟨r, reports, hr, hrest, rfl⟩ := List.forall₂_cons_left_iff.mp hreports
      rw [Summary.recordAll, List.foldlM_cons] at hall
      obtain ⟨middle, hrecord, hall⟩ := bind_eq_ok_iff.mp hall
      exact ⟨middle, ⟨r, hr, hrecord⟩, reports, hrest, hall⟩

namespace ReportedBy

variable {R} {report : α → κ → Except Fault Report} (h : R.ReportedBy report)
include h

theorem map_scenarioId {c : α} {l : List κ} {reports : List Report}
    (hreports : List.Forall₂ (fun k r => report c k = .ok r) l reports) :
    reports.map Report.scenarioId = l.map R.name :=
  (Pointwise.map_eq_of (hreports.imp fun _ _ hr => (h.isOf hr).scenarioId_eq.symm)).symm

theorem run_eq_ok_iff (c : α) (s : Summary) :
    R.run c = .ok s ↔ ∃ reports,
      List.Forall₂ (fun k r => report c k = .ok r) (R.cases c) reports ∧
        ((R.cases c).map R.name).Nodup ∧ s = (Summary.own R.suite).extended reports := by
  rw [h.run_eq, foldlM_record_eq_ok_iff]
  refine exists_congr fun reports => and_congr_right fun hreports => ?_
  rw [Summary.own, Summary.recordAll_new_eq_ok_iff, h.map_scenarioId hreports]

theorem reportsAlone {c : α} {k : κ} {r : Report} (hr : report c k = .ok r) :
    R.ReportsAlone c k r := by
  refine ⟨(h.isOf hr).scenarioId_eq, (h.run_eq_ok_iff _ _).mpr ⟨[r], ?_, ?_, rfl⟩⟩
  · rw [h.cases_only]
    exact .cons ((h.report_only c k).trans hr) .nil
  · rw [h.cases_only]
    exact List.nodup_singleton _

theorem reports {c : α} {s : Summary} (hrun : R.run c = .ok s) :
    List.Forall₂ (R.ReportsAlone c) (R.cases c) s.scenarios := by
  obtain ⟨reports, hreports, -, rfl⟩ := (h.run_eq_ok_iff c s).mp hrun
  exact hreports.imp fun _ _ hr => h.reportsAlone hr

theorem caseByCase : R.CaseByCase where
  cases_only := h.cases_only
  exists_ok_iff c := by
    have hreports := Pointwise.exists_forall₂_iff (R := fun k r => report c k = .ok r)
      (l := R.cases c)
    simp only [h.exists_iff] at hreports
    simp only [h.run_eq_ok_iff, ← hreports]
    constructor
    · rintro ⟨s, reports, hall, hnodup, rfl⟩
      exact ⟨hnodup, reports, hall⟩
    · rintro ⟨hnodup, reports, hall⟩
      exact ⟨_, reports, hall, hnodup, rfl⟩
  reports := h.reports
  scenarioCount_eq {c s} hrun := by
    obtain ⟨reports, hreports, -, rfl⟩ := (h.run_eq_ok_iff c s).mp hrun
    rw [h.count_eq, hreports.length_eq]
    exact Nat.zero_add _
  status_eq_fail_iff {c s} hrun := by
    obtain ⟨reports, hreports, -, rfl⟩ := (h.run_eq_ok_iff c s).mp hrun
    intro r hr
    obtain ⟨k, -, hk⟩ := Pointwise.exists_left hreports hr
    exact (h.isOf hk).status_eq_fail_iff
  unaffected {c d s t} hc hd k hk hk' hshared := by
    obtain ⟨r, hr, halone⟩ := Pointwise.exists_right (h.reports hc) hk
    obtain ⟨r', hr', halone'⟩ := Pointwise.exists_right (h.reports hd) hk'
    obtain rfl := halone.eq halone' hshared
    exact ⟨r, hr, hr', halone⟩

end ReportedBy

/-- Where every case has a report, a run records the list of them. -/
theorem recordAll_map (suite : String) (report : κ → Report) (l : List κ) :
    (Summary.own suite).recordAll (l.map report) =
      l.foldlM (fun s k => do s.record (← .ok (report k))) (Summary.own suite) := by
  rw [Summary.recordAll, List.foldlM_map]
  rfl

/-- A runner under which every case has a report. -/
theorem reportedBy_of_map {R : Runner α κ} {report : α → κ → Report}
    (hrun : ∀ c, R.run c = (Summary.own R.suite).recordAll ((R.cases c).map (report c)))
    (hisOf : ∀ c k, (report c k).IsOf (R.name k)) (hreportable : ∀ k, R.Reportable k)
    (honly : ∀ c k, report (R.only c k) k = report c k)
    (hcases : ∀ c k, R.cases (R.only c k) = [k])
    (hcount : ∀ c, R.corpus.scenarioCount c = (R.cases c).length) :
    R.ReportedBy fun c k => .ok (report c k) where
  run_eq c := by rw [hrun, recordAll_map]
  isOf {c k r} hr := Except.ok.inj hr ▸ hisOf c k
  exists_iff c k := iff_of_true ⟨_, rfl⟩ (hreportable k)
  report_only c k := congrArg Except.ok (honly c k)
  cases_only := hcases
  count_eq := hcount

end Runner

namespace Message

def runner : Runner VectorSet (String × Vector) where
  suite := "schema"
  corpus := VectorSet.corpus
  run := VectorSet.run
  cases vectors := vectors
  name := Prod.fst
  only _ case := [case]
  Reportable _ := True

theorem isOf_report (name : String) (v : Vector) : (v.report name).IsOf name := by
  unfold Vector.report
  have hfirst := ((Report.IsOf.new name).withErrors v.validate.messages).withNotes
    v.validate.warnings
  apply Report.IsOf.foldl
  · apply Report.IsOf.check
    cases v.validate.kind with
    | none => exact hfirst
    | some kind => exact hfirst.setMetric _ _
  · intro r field hr
    exact hr.check _ _

theorem reportedBy_report :
    runner.ReportedBy fun _ case => .ok (case.2.report case.1) :=
  Runner.reportedBy_of_map (fun _ => rfl) (fun _ case => isOf_report case.1 case.2)
    (fun _ => trivial) (fun _ _ => rfl) (fun _ _ => rfl) fun _ => rfl

end Message

namespace KeySchedule

def runner : Runner VectorSet Vector where
  suite := "kdf"
  corpus := VectorSet.corpus
  run := VectorSet.run
  cases := VectorSet.vectors
  name := Prod.fst
  only set vector := { set with vectors := [vector] }
  Reportable _ := True

theorem Vector.isOf_report (v : Vector) : v.report.IsOf v.1 := by
  obtain ⟨id, case⟩ := v
  have hfirst := (Report.IsOf.new id).setMetric "kind" (.text case.kind)
  simp only [Vector.report]
  cases case.compare with
  | ok comparisons => exact hfirst.foldl (fun _ _ hr => hr.check _ _) comparisons
  | error fault => exact hfirst.fail _

theorem reportedBy_report : runner.ReportedBy fun _ vector => .ok vector.report :=
  Runner.reportedBy_of_map (fun _ => rfl) (fun _ => Vector.isOf_report) (fun _ => trivial)
    (fun _ _ => rfl) (fun _ _ => rfl) fun _ => rfl

end KeySchedule

namespace Sealing

def runner : Runner VectorSet Vector where
  suite := "aead"
  corpus := VectorSet.corpus
  run := VectorSet.run
  cases := VectorSet.vectors
  name := Prod.fst
  only set vector := { set with vectors := [vector] }
  Reportable _ := True

section
variable {r : Report} {id : String} (h : r.IsOf id)
include h

theorem isOf_orFail {α : Type} {result : Except Fault α} {next : α → Report}
    (hnext : ∀ a, (next a).IsOf id) : (orFail r result next).IsOf id := by
  cases result with
  | ok a => exact hnext a
  | error fault => exact h.fail _

theorem isOf_checkBytes (what expected : String) (actual : Bytes) :
    (checkBytes r what expected actual).IsOf id :=
  h.check _ _

theorem isOf_checkRoundTrip (key : Key) (aad : Bytes) (plaintext ciphertext : String) :
    (checkRoundTrip r key aad plaintext ciphertext).IsOf id := by
  apply isOf_orFail h
  intro text
  have hsealed := isOf_checkBytes h "ciphertext" ciphertext (key.encrypt aad text)
  exact isOf_orFail hsealed fun opened => isOf_checkBytes hsealed _ _ _

theorem isOf_checkRefusal (expected : FailureClass) (result : Except Refusal Bytes) :
    (checkRefusal r expected result).IsOf id := by
  unfold checkRefusal
  cases result with
  | ok _ => exact h.fail _
  | error refusal =>
    by_cases hclass : refusal.failure = expected
    · simpa only [hclass, if_true] using h.withErrors _
    · simpa only [hclass, if_false] using h.fail _

theorem isOf_check (case : Case) : (case.check r).IsOf id := by
  cases case with
  | encrypt => exact isOf_orFail h fun _ => isOf_checkRoundTrip h _ _ _ _
  | reject => exact isOf_orFail h fun _ => isOf_checkRefusal h _ _
  | messageAad => exact isOf_orFail h fun _ => isOf_checkBytes h _ _ _
  | sessionMessage => exact isOf_orFail h fun _ => isOf_checkRoundTrip h _ _ _ _

end

theorem Vector.isOf_report (v : Vector) : v.report.IsOf v.1 :=
  isOf_check ((Report.IsOf.new v.1).setMetric _ _) v.2

theorem reportedBy_report : runner.ReportedBy fun _ vector => .ok vector.report :=
  Runner.reportedBy_of_map (fun _ => rfl) (fun _ => Vector.isOf_report) (fun _ => trivial)
    (fun _ _ => rfl) (fun _ _ => rfl) fun _ => rfl

end Sealing

namespace Replay

/-- The profiles of a set share its queue and its tolerance. -/
def runner : Runner ProfileSet Profile where
  suite := "replay_storm"
  corpus := ProfileSet.corpus
  run := ProfileSet.run
  cases := ProfileSet.profiles
  name := Profile.profileId
  only set profile := { set with profiles := [profile] }
  Reportable _ := True

theorem Profile.isOf_report (queue : Queue Float) (tolerance : Float) (p : Profile) :
    (p.report queue tolerance).IsOf p.profileId :=
  ((((Report.IsOf.new p.profileId).setMetrics _).check _ _).check _ _).withNotes _

theorem reportedBy_report :
    runner.ReportedBy fun set profile => .ok (profile.report set.queue set.tolerance) :=
  Runner.reportedBy_of_map (fun _ => rfl) (fun set => Profile.isOf_report set.queue set.tolerance)
    (fun _ => trivial) (fun _ _ => rfl) (fun _ _ => rfl) fun _ => rfl

end Replay

namespace EpochChain

def runner : Runner (List Scenario) Scenario where
  suite := "corrupted_eare"
  corpus := EpochChain.corpus
  run := EpochChain.run
  cases scenarios := scenarios
  name := Scenario.scenarioId
  only _ s := [s]
  Reportable _ := True

theorem Scenario.isOf_report (s : Scenario) : s.report.IsOf s.scenarioId :=
  ((Report.IsOf.new s.scenarioId).failAll _).of_verdict_eq rfl rfl rfl

theorem reportedBy_report : runner.ReportedBy fun _ s => .ok s.report :=
  Runner.reportedBy_of_map (fun _ => rfl) (fun _ => Scenario.isOf_report) (fun _ => trivial)
    (fun _ _ => rfl) (fun _ _ => rfl) fun _ => rfl

end EpochChain

namespace Poisoning

theorem ReplayCase.isOf_report (section_ : String) (windowSize : Int) (c : ReplayCase) :
    (c.report section_ windowSize).IsOf (scenarioId section_ c.name) :=
  (((Report.IsOf.new (scenarioId section_ c.name)).setMetrics _).check _ _).withNotes _

theorem Attack.isOf_report (attack : Attack) :
    attack.report.IsOf (scenarioId "poisoning" attack.name) := by
  have hchecked := ((Report.IsOf.new (scenarioId "poisoning" attack.name)).setMetric "violations"
    (.ofNat attack.violations)).check (0 < attack.violations) "injected values went undetected"
  unfold Attack.report
  split
  · exact hchecked
  · exact hchecked.note _

theorem ForkCase.isOf_report (c : ForkCase) : c.report.IsOf (scenarioId "epoch_fork" c.name) :=
  ((Report.IsOf.new (scenarioId "epoch_fork" c.name)).setMetrics _).check _ _

theorem EpochRecord.isOf_report (record : EpochRecord) :
    record.report.IsOf (scenarioId "eare" record.recordId) :=
  (((Report.IsOf.new (scenarioId "eare" record.recordId)).setMetrics _).withErrors _).check _ _

theorem Rule.isOf_report (rule : Rule) :
    rule.report.IsOf (scenarioId "anti_poisoning" rule.ruleId) := by
  have hmetric := (Report.IsOf.new (scenarioId "anti_poisoning" rule.ruleId)).setMetric "enforced"
    (.boolean rule.enforced)
  simp only [Rule.report]
  split
  · exact (hmetric.check _ _).note _
  · exact hmetric.check _ _

theorem StormCase.isOf_report (model : Replay.StormModel Float) (c : StormCase) :
    (c.report model).IsOf (scenarioId "replay_storm" c.profileId) :=
  ((Report.IsOf.new (scenarioId "replay_storm" c.profileId)).setMetrics _).check _ _

/-- A case of some section. -/
inductive Case
  | replayAttack (c : ReplayCase)
  | windowBoundary (c : ReplayCase)
  | injection (attack : Attack)
  | fork (c : ForkCase)
  | epochRecord (record : EpochRecord)
  | rule (rule : Rule)
  | storm (c : StormCase)

def Case.name : Case → String
  | .replayAttack c => scenarioId "replay_attack" c.name
  | .windowBoundary c => scenarioId "replay_window" c.name
  | .injection attack => scenarioId "poisoning" attack.name
  | .fork c => scenarioId "epoch_fork" c.name
  | .epochRecord record => scenarioId "eare" record.recordId
  | .rule r => scenarioId "anti_poisoning" r.ruleId
  | .storm c => scenarioId "replay_storm" c.profileId

namespace Sections

variable (s : Sections)

def cases : List Case :=
  s.replayAttacks.cases.map .replayAttack ++ s.windowBoundaries.cases.map .windowBoundary
    ++ s.injections.map .injection ++ s.forks.map .fork ++ s.epochRecords.map .epochRecord
    ++ s.rules.map .rule ++ s.storms.cases.map .storm

/-- The window sizes and the capacity, without any case. -/
def bare : Sections where
  replayAttacks := ⟨s.replayAttacks.windowSize, []⟩
  windowBoundaries := ⟨s.windowBoundaries.windowSize, []⟩
  injections := []
  forks := []
  epochRecords := []
  rules := []
  storms := ⟨s.storms.windowSize, s.storms.capacityPerMs, []⟩

def only : Case → Sections
  | .replayAttack c => { s.bare with replayAttacks := ⟨s.replayAttacks.windowSize, [c]⟩ }
  | .windowBoundary c => { s.bare with windowBoundaries := ⟨s.windowBoundaries.windowSize, [c]⟩ }
  | .injection attack => { s.bare with injections := [attack] }
  | .fork c => { s.bare with forks := [c] }
  | .epochRecord record => { s.bare with epochRecords := [record] }
  | .rule rule => { s.bare with rules := [rule] }
  | .storm c => { s.bare with storms := ⟨s.storms.windowSize, s.storms.capacityPerMs, [c]⟩ }

def report : Case → Report
  | .replayAttack c => c.report "replay_attack" s.replayAttacks.windowSize
  | .windowBoundary c => c.report "replay_window" s.windowBoundaries.windowSize
  | .injection attack => attack.report
  | .fork c => c.report
  | .epochRecord record => record.report
  | .rule rule => rule.report
  | .storm c => c.report s.storms.model

theorem reports_eq : s.reports = s.cases.map s.report := by
  simp only [reports, cases, ReplayCases.reports, List.map_append, List.map_map]
  rfl

theorem count_eq : s.count = s.cases.length := by
  simp only [count, cases, List.length_append, List.length_map]

theorem isOf_report (k : Case) : (s.report k).IsOf k.name := by
  cases k with
  | replayAttack c => exact c.isOf_report _ _
  | windowBoundary c => exact c.isOf_report _ _
  | injection attack => exact attack.isOf_report
  | fork c => exact c.isOf_report
  | epochRecord record => exact record.isOf_report
  | rule rule => exact rule.isOf_report
  | storm c => exact c.isOf_report _

theorem report_only (k : Case) : (s.only k).report k = s.report k := by
  cases k <;> rfl

theorem cases_only (k : Case) : (s.only k).cases = [k] := by
  cases k <;> rfl

end Sections

/-- The window sizes and the capacity of a corpus are shared by the cases of a section. -/
def runner : Runner Sections Case where
  suite := "replay_poisoning"
  corpus := Sections.corpus
  run := Sections.run
  cases := Sections.cases
  name := Case.name
  only := Sections.only
  Reportable _ := True

theorem reportedBy_report : runner.ReportedBy fun s k => .ok (s.report k) :=
  Runner.reportedBy_of_map (fun s => congrArg (Summary.own "replay_poisoning").recordAll
      s.reports_eq) Sections.isOf_report (fun _ => trivial) Sections.report_only
    Sections.cases_only Sections.count_eq

end Poisoning

namespace EpochFork

/-- A scenario has a report if its graph and its events can be simulated. -/
def runner : Runner (List Scenario) Scenario where
  suite := "epoch_fork"
  corpus := EpochFork.corpus
  run := EpochFork.run
  cases scenarios := scenarios
  name := Scenario.scenarioId
  only _ s := [s]
  Reportable s := ∃ outcome, s.simulate = .ok outcome

theorem Outcome.isOf_report (scenarioId : String) (e : Expectations) (o : Outcome) :
    (o.report scenarioId e).IsOf scenarioId :=
  ((((Report.IsOf.new scenarioId).failAll _).withNotes _).setMetrics _).withErrors _

theorem Scenario.report_eq_ok_iff (s : Scenario) (r : Report) :
    s.report = .ok r ↔
      ∃ outcome, s.simulate = .ok outcome ∧ outcome.report s.scenarioId s.expectations = r := by
  rw [report, bind_eq_ok_iff]
  simp only [pure, Except.pure, Except.ok.injEq]

theorem reportedBy_report : runner.ReportedBy fun _ s => s.report where
  run_eq _ := rfl
  isOf {c s r} hr := by
    obtain ⟨outcome, -, rfl⟩ := (s.report_eq_ok_iff r).mp hr
    exact outcome.isOf_report s.scenarioId s.expectations
  exists_iff c s := by
    simp only [s.report_eq_ok_iff]
    constructor
    · rintro ⟨-, outcome, houtcome, -⟩
      exact ⟨outcome, houtcome⟩
    · rintro ⟨outcome, houtcome⟩
      exact ⟨_, outcome, houtcome, rfl⟩
  report_only _ _ := rfl
  cases_only _ _ := rfl
  count_eq _ := rfl

end EpochFork

/-- What is parsed was read from a literal. -/
theorem Corpus.exists_reader_of_parse {α : Type} {kind : Corpus α} {text : String} {c : α}
    (h : kind.parse text = .ok c) :
    ∃ literal, kind.reader Json.maxNesting literal = some c := by
  unfold Corpus.parse at h
  split at h
  · cases h
  · split at h
    · cases h
    · rename_i corpus hread
      obtain ⟨literal, -, hliteral⟩ := Option.bind_eq_some_iff.mp hread
      split at h
      · cases h
      · cases h
        exact ⟨literal, hliteral⟩

namespace Message.VectorSet

/-- The names increase strictly. -/
def InOrder (vectors : VectorSet) : Prop :=
  vectors.Pairwise fun a b => a.1 < b.1

theorem inOrder_of_parse {text : String} {vectors : VectorSet}
    (h : corpus.parse text = .ok vectors) : vectors.InOrder := by
  obtain ⟨literal, hread⟩ := Corpus.exists_reader_of_parse h
  exact Json.Reader.pairwise_byName hread

theorem InOrder.exists_run {vectors : VectorSet} (h : vectors.InOrder) :
    ∃ s, vectors.run = .ok s := by
  refine (reportedBy_report.caseByCase.exists_ok_iff vectors).mpr ⟨?_, fun _ _ => trivial⟩
  exact List.pairwise_map.mpr (List.Pairwise.imp (fun hlt => hlt.ne) h)

end Message.VectorSet

namespace Runner

/-- Every kind of corpora is run case by case. Messages stand in the order of their names in each
set that is read, so that no run of messages ends early. -/
theorem runs_case_by_case :
    Message.runner.CaseByCase ∧ KeySchedule.runner.CaseByCase ∧ Sealing.runner.CaseByCase ∧
    Replay.runner.CaseByCase ∧ EpochChain.runner.CaseByCase ∧ Poisoning.runner.CaseByCase ∧
    EpochFork.runner.CaseByCase ∧
    (∀ text vectors, Message.VectorSet.corpus.parse text = .ok vectors → vectors.InOrder) ∧
    ∀ vectors : Message.VectorSet, vectors.InOrder → ∃ s, vectors.run = .ok s :=
  ⟨Message.reportedBy_report.caseByCase, KeySchedule.reportedBy_report.caseByCase,
    Sealing.reportedBy_report.caseByCase, Replay.reportedBy_report.caseByCase,
    EpochChain.reportedBy_report.caseByCase, Poisoning.reportedBy_report.caseByCase,
    EpochFork.reportedBy_report.caseByCase,
    fun _ _ => Message.VectorSet.inOrder_of_parse,
    fun _ => Message.VectorSet.InOrder.exists_run⟩

/-- An input that is no hexadecimal text. -/
def unreadable : KeySchedule.Vector :=
  ("unreadable", .sessionId "xy" "")

/-- A length that is to be refused. -/
def tooLong : KeySchedule.Vector :=
  ("too long", .invalidLength 9000)

/-- Two messages that are invalid, where a valid one is expected. -/
def twoInvalid : String :=
  "\x7b\"b\":[0,null],\"a\":[9,0]\x7d"

theorem unreadable_beside_tooLong :
    (∃ s, KeySchedule.runner.run ⟨"", [unreadable, tooLong]⟩ = .ok s ∧ s.scenarioCount = 2 ∧
      s.scenarios.map Report.status = [.fail, .pass]) ∧
    ∃ vectors s, Message.VectorSet.corpus.parse twoInvalid = .ok vectors ∧
      vectors.map Prod.fst = ["a", "b"] ∧ vectors.run = .ok s := by
  obtain ⟨-, hkeys, -, -, -, -, -, horder, hmessages⟩ := runs_case_by_case
  constructor
  · obtain ⟨s, hrun⟩ := (hkeys.exists_ok_iff ⟨"", [unreadable, tooLong]⟩).mpr
      ⟨by decide, fun _ _ => trivial⟩
    refine ⟨s, hrun, hkeys.scenarioCount_eq hrun, ?_⟩
    have halone (v : KeySchedule.Vector) := KeySchedule.reportedBy_report.reportsAlone
      (c := ⟨"", [unreadable, tooLong]⟩) (k := v) rfl
    have hstatus := Pointwise.map_eq_of (f := fun v : KeySchedule.Vector => v.report.status)
      (g := Report.status) <|
        (hkeys.reports hrun).imp fun v r hr => congrArg Report.status ((halone v).eq hr rfl)
    exact hstatus.symm
  · have hnames : (Message.VectorSet.corpus.parse twoInvalid).toOption.map (List.map Prod.fst) =
        some ["a", "b"] := by
      decide +kernel
    cases hparse : Message.VectorSet.corpus.parse twoInvalid with
    | error refusal =>
      rw [hparse] at hnames
      cases hnames
    | ok vectors =>
      rw [hparse] at hnames
      obtain ⟨s, hrun⟩ := hmessages vectors (horder twoInvalid vectors hparse)
      exact ⟨vectors, s, rfl, Option.some.inj hnames, hrun⟩

end Runner
end Conformance
