import Conformance.Proofs.Report
import Mathlib

/-!
# Summaries of a run

A summary is written in place, report by report, and a report whose scenario has
one already is refused before anything is counted. So the counts are those of the
reports held, and what is held for a scenario is the first report recorded for it.
-/
namespace Conformance.Summary
open Conformance

/-- Recording in place: what was changed before a refusal would stay changed. -/
def recordInPlace (r : Report) : ExceptT Fault (StateM Summary) Unit := do
  if ((← get).get? r.scenarioId).isSome then
    throw (duplicate r.scenarioId)
  match r.status with
  | .pass => modify fun s => { s with passed := s.passed + 1 }
  | .fail => modify fun s => { s with failed := s.failed + 1 }
  modify fun s => { s with scenarioCount := s.scenarioCount + 1 }
  modify fun s => { s with scenarios := s.scenarios ++ [r] }

variable (s : Summary)

/-- The answer to a report, and the summary that recording it in place leaves. -/
def offer (r : Report) : Except Fault Unit × Summary := (recordInPlace r).run.run s

def answer (r : Report) : Except Fault Unit := (s.offer r).1

def next (r : Report) : Summary := (s.offer r).2

/-- A report of the scenario is held. -/
def Holds (scenarioId : String) : Prop := ∃ r ∈ s.scenarios, r.scenarioId = scenarioId

/-- The summary with more reports, each of them counted. -/
def extended (reports : List Report) : Summary :=
  { s with
    scenarioCount := s.scenarioCount + reports.length
    passed := s.passed + reports.countP (·.status = .pass)
    failed := s.failed + reports.countP (·.status = .fail)
    scenarios := s.scenarios ++ reports }

theorem isSome_get?_iff (scenarioId : String) :
    (s.get? scenarioId).isSome = true ↔ s.Holds scenarioId := by
  simp [get?, Holds]

theorem record_cases (r : Report) :
    (s.Holds r.scenarioId ∧ s.record r = .error (duplicate r.scenarioId)) ∨
    (¬ s.Holds r.scenarioId ∧ s.record r = .ok (s.extended [r])) := by
  unfold record
  by_cases h : s.Holds r.scenarioId
  · left
    exact ⟨h, if_pos ((s.isSome_get?_iff _).mpr h)⟩
  · right
    refine ⟨h, ?_⟩
    rw [if_neg (mt (s.isSome_get?_iff _).mp h)]
    cases hstatus : r.status <;> simp [extended, hstatus]

/-- Recording in place is recording, where a refused report leaves the summary as it was. -/
theorem offer_eq (r : Report) :
    s.offer r = match s.record r with
      | .ok t => (.ok (), t)
      | .error fault => (.error fault, s) := by
  change (if (s.get? r.scenarioId).isSome = true then _ else _ :
    ExceptT Fault (StateM Summary) Unit).run.run s = _
  unfold record
  by_cases h : (s.get? r.scenarioId).isSome = true
  · rw [if_pos h, if_pos h]
    rfl
  · rw [if_neg h, if_neg h]
    cases r.status <;> rfl

theorem record_eq (r : Report) : s.record r = (s.answer r).map fun _ => s.next r := by
  unfold answer next
  rw [offer_eq]
  cases s.record r <;> rfl

/-- What a report does: it is refused and changes nothing, or it is added and counted. -/
theorem offer_cases (r : Report) :
    (s.Holds r.scenarioId ∧ s.offer r = (.error (duplicate r.scenarioId), s)) ∨
    (¬ s.Holds r.scenarioId ∧ s.offer r = (.ok (), s.extended [r])) := by
  rcases s.record_cases r with ⟨h, hrecord⟩ | ⟨h, hrecord⟩
  · left
    exact ⟨h, by rw [offer_eq, hrecord]⟩
  · right
    exact ⟨h, by rw [offer_eq, hrecord]⟩

theorem not_holds_new (language suite scenarioId : String) :
    ¬ (new language suite).Holds scenarioId := by
  rintro ⟨r, hr, -⟩
  cases hr

theorem extended_extended (earlier later : List Report) :
    (s.extended earlier).extended later = s.extended (earlier ++ later) := by
  simp [extended, Nat.add_assoc]

theorem holds_extended_iff (reports : List Report) (scenarioId : String) :
    (s.extended reports).Holds scenarioId ↔
      s.Holds scenarioId ∨ ∃ r ∈ reports, r.scenarioId = scenarioId := by
  simp only [Holds, extended, List.mem_append, or_and_right, exists_or]

/-- Reports of scenarios that are new, and differ from each other, are all recorded. -/
theorem recordAll_eq_ok {reports : List Report}
    (hnodup : (reports.map Report.scenarioId).Nodup)
    (hnew : ∀ r ∈ reports, ¬ s.Holds r.scenarioId) :
    s.recordAll reports = .ok (s.extended reports) := by
  induction reports generalizing s with
  | nil =>
    have hempty : s.extended [] = s := by simp [extended]
    rw [hempty]
    rfl
  | cons r reports ih =>
    obtain ⟨hfirst, hrest⟩ := List.nodup_cons.mp hnodup
    have hrecord : s.record r = .ok (s.extended [r]) :=
      ((s.record_cases r).resolve_left fun h => hnew r List.mem_cons_self h.1).2
    have hlater : ∀ t ∈ reports, ¬ (s.extended [r]).Holds t.scenarioId := by
      intro t ht hholds
      rcases (s.holds_extended_iff [r] _).mp hholds with hs | ⟨first, hmem, heq⟩
      · exact hnew t (List.mem_cons_of_mem r ht) hs
      · obtain rfl := List.mem_singleton.mp hmem
        exact hfirst (List.mem_map.mpr ⟨t, ht, heq.symm⟩)
    have hall := ih (s.extended [r]) hrest hlater
    rw [extended_extended, List.singleton_append] at hall
    rw [recordAll, List.foldlM_cons, hrecord]
    exact hall

/-- No report is recorded of a scenario that has one already. -/
theorem new_of_recordAll {reports : List Report} {t : Summary} (h : s.recordAll reports = .ok t) :
    (reports.map Report.scenarioId).Nodup ∧ ∀ r ∈ reports, ¬ s.Holds r.scenarioId := by
  induction reports generalizing s with
  | nil => exact ⟨List.nodup_nil, nofun⟩
  | cons r reports ih =>
    rw [recordAll, List.foldlM_cons] at h
    rcases s.record_cases r with ⟨-, hrefused⟩ | ⟨hfirst, hrecord⟩
    · rw [hrefused] at h
      cases h
    · rw [hrecord] at h
      obtain ⟨hnodup, hlater⟩ := ih (s.extended [r]) h
      simp only [holds_extended_iff, not_or, List.mem_singleton, exists_eq_left] at hlater
      refine ⟨List.nodup_cons.mpr ⟨?_, hnodup⟩, List.forall_mem_cons.mpr ⟨hfirst, ?_⟩⟩
      · intro hmem
        obtain ⟨other, hother, hid⟩ := List.mem_map.mp hmem
        exact (hlater other hother).2 hid.symm
      · exact fun other hother => (hlater other hother).1

/-- A fresh summary takes all reports, each of them as it is, or there are two of one scenario. -/
theorem recordAll_new_eq_ok_iff (language suite : String) (reports : List Report) (t : Summary) :
    (new language suite).recordAll reports = .ok t ↔
      (reports.map Report.scenarioId).Nodup ∧ t = (new language suite).extended reports := by
  constructor
  · intro h
    have hnodup := ((new language suite).new_of_recordAll h).1
    have hall := (new language suite).recordAll_eq_ok hnodup fun _ _ => not_holds_new _ _ _
    exact ⟨hnodup, Except.ok.inj (h.symm.trans hall)⟩
  · rintro ⟨hnodup, rfl⟩
    exact (new language suite).recordAll_eq_ok hnodup fun _ _ => not_holds_new _ _ _

theorem scenarios_of_recordAll_new {language suite : String} {reports : List Report} {t : Summary}
    (h : (new language suite).recordAll reports = .ok t) : t.scenarios = reports := by
  obtain ⟨-, rfl⟩ := (recordAll_new_eq_ok_iff _ _ _ _).mp h
  exact List.nil_append _

/-- Reports are refused for the first of them whose scenario has one already. -/
theorem exists_of_recordAll_eq_error {reports : List Report} {fault : Fault}
    (h : s.recordAll reports = .error fault) :
    ∃ earlier r later, reports = earlier ++ r :: later ∧
      s.recordAll earlier = .ok (s.extended earlier) ∧
      (s.extended earlier).Holds r.scenarioId ∧ fault = duplicate r.scenarioId := by
  induction reports generalizing s with
  | nil => cases h
  | cons r reports ih =>
    have hempty : s.extended [] = s := by simp [extended]
    rw [recordAll, List.foldlM_cons] at h
    rcases s.record_cases r with ⟨hold, hrefused⟩ | ⟨-, hrecord⟩
    · rw [hrefused] at h
      refine ⟨[], r, reports, rfl, ?_, ?_, (Except.error.inj h).symm⟩
      · rw [hempty]
        rfl
      · rw [hempty]
        exact hold
    · rw [hrecord] at h
      obtain ⟨earlier, t, later, hreports, hall, hold, hfault⟩ := ih (s.extended [r]) h
      rw [extended_extended, List.singleton_append] at hall hold
      refine ⟨r :: earlier, t, later, by rw [hreports, List.cons_append], ?_, hold, hfault⟩
      rw [recordAll, List.foldlM_cons, hrecord]
      exact hall

/-- The counts are those of the reports held, no two of which are of one scenario. -/
structure Tallied : Prop where
  scenarioCount_eq : s.scenarioCount = s.scenarios.length
  passed_eq : s.passed = s.scenarios.countP (·.status = .pass)
  failed_eq : s.failed = s.scenarios.countP (·.status = .fail)
  nodup : (s.scenarios.map Report.scenarioId).Nodup

theorem tallied_new (language suite : String) : (new language suite).Tallied :=
  ⟨rfl, rfl, rfl, List.nodup_nil⟩

variable {s}

theorem Tallied.extended (h : s.Tallied) {reports : List Report}
    (hnodup : (reports.map Report.scenarioId).Nodup)
    (hnew : ∀ r ∈ reports, ¬ s.Holds r.scenarioId) : (s.extended reports).Tallied where
  scenarioCount_eq := by simp [Summary.extended, h.scenarioCount_eq]
  passed_eq := by simp [Summary.extended, h.passed_eq]
  failed_eq := by simp [Summary.extended, h.failed_eq]
  nodup := by
    rw [Summary.extended, List.map_append]
    refine List.nodup_append.mpr ⟨h.nodup, hnodup, ?_⟩
    intro a ha b hb
    obtain ⟨t, ht, rfl⟩ := List.mem_map.mp ha
    obtain ⟨r, hr, rfl⟩ := List.mem_map.mp hb
    exact fun heq => hnew r hr ⟨t, ht, heq⟩

theorem Tallied.next (h : s.Tallied) (r : Report) : (s.next r).Tallied := by
  unfold Summary.next
  rcases s.offer_cases r with ⟨-, hoffer⟩ | ⟨hnew, hoffer⟩
  · rw [hoffer]
    exact h
  · rw [hoffer]
    exact h.extended (List.nodup_singleton _) (by simpa using hnew)

theorem Tallied.scenarioCount_eq_add (h : s.Tallied) : s.scenarioCount = s.passed + s.failed := by
  rw [h.scenarioCount_eq, h.passed_eq, h.failed_eq,
    List.length_eq_countP_add_countP fun r : Report => decide (r.status = .pass)]
  congr 1
  refine List.countP_congr fun r _ => ?_
  cases r.status <;> simp

theorem Tallied.allPassed_iff (h : s.Tallied) :
    s.allPassed = true ↔ s.scenarios ≠ [] ∧ ∀ r ∈ s.scenarios, r.status ≠ .fail := by
  simp [allPassed, h.scenarioCount_eq, h.failed_eq, List.length_pos_iff, List.countP_eq_zero]

/-- Reports that are recorded in a fresh summary pass together if there are any and each does. -/
theorem allPassed_extended_new_iff (language suite : String) {reports : List Report}
    (hnodup : (reports.map Report.scenarioId).Nodup) :
    ((new language suite).extended reports).allPassed = true ↔
      reports ≠ [] ∧ ∀ r ∈ reports, r.status = .pass := by
  have htallied : ((new language suite).extended reports).Tallied :=
    (tallied_new language suite).extended hnodup fun r _ => not_holds_new language suite _
  rw [htallied.allPassed_iff]
  have hscenarios : ((new language suite).extended reports).scenarios = reports := rfl
  rw [hscenarios]
  refine and_congr_right' (forall₂_congr fun r _ => ?_)
  cases r.status <;> simp

/-- What is held of a scenario stays; a report is held if nothing was held of its scenario. -/
theorem get?_next (s : Summary) (r : Report) (scenarioId : String) :
    (s.next r).get? scenarioId =
      (s.get? scenarioId).or ([r].find? (·.scenarioId == scenarioId)) := by
  unfold Summary.next
  rcases s.offer_cases r with ⟨hold, hoffer⟩ | ⟨-, hoffer⟩
  · rw [hoffer]
    by_cases hid : r.scenarioId = scenarioId
    · subst hid
      obtain ⟨held, hget⟩ := Option.isSome_iff_exists.mp ((s.isSome_get?_iff _).mpr hold)
      rw [hget, Option.some_or]
    · rw [List.find?_eq_none.mpr (by simpa using hid), Option.or_none]
  · rw [hoffer]
    exact List.find?_append

/-- A fresh summary and the reports that are offered to it, whatever it answers. -/
structure History where
  language : String
  suite : String
  reports : List Report

namespace History

variable (h : History)

def report (i : Fin h.reports.length) : Report := h.reports[i]

/-- The summary when `n` reports have been offered. -/
def summary (n : ℕ) : Summary := (h.reports.take n).foldl Summary.next (new h.language h.suite)

def answer (i : Fin h.reports.length) : Except Fault Unit := (h.summary i).answer (h.report i)

def Accepted (i : Fin h.reports.length) : Prop := h.answer i = .ok ()

theorem summary_succ (i : Fin h.reports.length) :
    h.summary (i + 1) = (h.summary i).next (h.report i) := by
  unfold summary
  rw [List.take_succ_eq_append_getElem i.isLt, List.foldl_append]
  rfl

theorem summary_tallied (n : ℕ) : (h.summary n).Tallied := by
  unfold summary
  refine List.foldlRecOn _ _ (tallied_new h.language h.suite) ?_
  intro s hs r _
  exact hs.next r

/-- What is held of a scenario is the first report of it that was offered. -/
theorem summary_get? (n : ℕ) (scenarioId : String) :
    (h.summary n).get? scenarioId =
      (h.reports.take n).find? (·.scenarioId == scenarioId) := by
  unfold summary
  induction h.reports.take n using List.reverseRecOn with
  | nil => rfl
  | append_singleton reports r ih =>
    rw [List.foldl_append, List.foldl_cons, List.foldl_nil, get?_next, ih, List.find?_append]

theorem holds_iff (n : ℕ) (scenarioId : String) :
    (h.summary n).Holds scenarioId ↔ ∃ i, i.val < n ∧ (h.report i).scenarioId = scenarioId := by
  rw [← isSome_get?_iff, summary_get?, List.find?_isSome]
  simp only [List.mem_take_iff_getElem, beq_iff_eq, lt_min_iff]
  constructor
  · rintro ⟨r, ⟨i, hi, rfl⟩, hid⟩
    exact ⟨⟨i, hi.2⟩, hi.1, hid⟩
  · rintro ⟨i, hi, hid⟩
    exact ⟨h.report i, ⟨i, ⟨hi, i.isLt⟩, rfl⟩, hid⟩

/-- A report is refused as a corpus fault, and nothing changes, if its scenario has one already. -/
theorem answer_of_holds {i : Fin h.reports.length}
    (hold : (h.summary i).Holds (h.report i).scenarioId) :
    h.answer i = .error (duplicate (h.report i).scenarioId) ∧ h.summary (i + 1) = h.summary i := by
  rcases (h.summary i).offer_cases (h.report i) with ⟨-, hoffer⟩ | ⟨hnew, -⟩
  · exact ⟨congrArg Prod.fst hoffer, (h.summary_succ i).trans (congrArg Prod.snd hoffer)⟩
  · exact absurd hold hnew

theorem answer_of_not_holds {i : Fin h.reports.length}
    (hnew : ¬ (h.summary i).Holds (h.report i).scenarioId) :
    h.Accepted i ∧ h.summary (i + 1) = (h.summary i).extended [h.report i] := by
  rcases (h.summary i).offer_cases (h.report i) with ⟨hold, -⟩ | ⟨-, hoffer⟩
  · exact absurd hold hnew
  · exact ⟨congrArg Prod.fst hoffer, (h.summary_succ i).trans (congrArg Prod.snd hoffer)⟩

theorem accepted_iff (i : Fin h.reports.length) :
    h.Accepted i ↔ ∀ j < i, (h.report j).scenarioId ≠ (h.report i).scenarioId := by
  have hholds := h.holds_iff i (h.report i).scenarioId
  constructor
  · intro hi j hji hid
    have hrefused := (h.answer_of_holds (hholds.mpr ⟨j, hji, hid⟩)).1
    cases hrefused.symm.trans hi
  · intro hfirst
    refine (h.answer_of_not_holds fun hold => ?_).1
    obtain ⟨j, hji, hid⟩ := hholds.mp hold
    exact hfirst j hji hid

/-- The report that is held of a scenario is the one that was accepted, and it is held as it was. -/
theorem get?_eq_some_iff (n : ℕ) (scenarioId : String) (r : Report) :
    (h.summary n).get? scenarioId = some r ↔
      ∃ i, i.val < n ∧ h.Accepted i ∧ h.report i = r ∧ r.scenarioId = scenarioId := by
  rw [summary_get?, List.find?_eq_some_iff_getElem]
  simp only [beq_iff_eq, Bool.not_eq_true', beq_eq_false_iff_ne, List.length_take, lt_min_iff,
    List.getElem_take]
  constructor
  · rintro ⟨rfl, i, hi, rfl, hfirst⟩
    exact ⟨⟨i, hi.2⟩, hi.1, (h.accepted_iff _).mpr fun j hji => hfirst j hji, rfl, rfl⟩
  · rintro ⟨i, hi, haccepted, rfl, rfl⟩
    refine ⟨rfl, i, ⟨hi, i.isLt⟩, rfl, fun j hji => ?_⟩
    exact (h.accepted_iff i).mp haccepted ⟨j, hji.trans i.isLt⟩ hji

/-- After every report that is offered, the counts are those of the reports held, and for each
scenario the first report of it is held for good; a second one is refused and changes nothing. A
report that is offered fails exactly if it has failures. -/
theorem counts_and_first_reports (h : History) :
    (∀ n, (h.summary n).Tallied ∧
      (h.summary n).scenarioCount = (h.summary n).passed + (h.summary n).failed ∧
      ((h.summary n).allPassed = true ↔
        (h.summary n).scenarios ≠ [] ∧ ∀ r ∈ (h.summary n).scenarios, r.status ≠ .fail)) ∧
    (∀ n scenarioId r, (h.summary n).get? scenarioId = some r ↔
      ∃ i, i.val < n ∧ h.Accepted i ∧ h.report i = r ∧ r.scenarioId = scenarioId ∧
        ∀ j < i, h.Accepted j → (h.report j).scenarioId ≠ scenarioId) ∧
    (∀ i : Fin h.reports.length,
      (h.summary i).record (h.report i) = (h.answer i).map fun _ => h.summary (i + 1)) ∧
    (∀ i : Fin h.reports.length, (∃ fault, h.answer i = .error fault ∧ fault.kind = .corpus) ↔
      (h.summary i).Holds (h.report i).scenarioId) ∧
    (∀ i : Fin h.reports.length,
      (h.summary i).Holds (h.report i).scenarioId → h.summary (i + 1) = h.summary i) ∧
    (∀ i : Fin h.reports.length, ¬ (h.summary i).Holds (h.report i).scenarioId →
      h.Accepted i ∧ h.summary (i + 1) = (h.summary i).extended [h.report i]) ∧
    ∀ r : Report, r.Made → (r.status = .fail ↔ r.failures ≠ []) := by
  refine ⟨fun n => ?_, fun n scenarioId r => ?_, fun i => ?_, fun i => ⟨?_, fun hold => ?_⟩,
    fun i hold => (h.answer_of_holds hold).2, fun i hnew => h.answer_of_not_holds hnew,
    fun r hr => hr.status_eq_fail_iff⟩
  · have htallied := h.summary_tallied n
    exact ⟨htallied, htallied.scenarioCount_eq_add, htallied.allPassed_iff⟩
  · rw [h.get?_eq_some_iff]
    constructor
    · rintro ⟨i, hi, haccepted, rfl, rfl⟩
      exact ⟨i, hi, haccepted, rfl, rfl, fun j hji _ => (h.accepted_iff i).mp haccepted j hji⟩
    · rintro ⟨i, hi, haccepted, hr, hid, -⟩
      exact ⟨i, hi, haccepted, hr, hid⟩
  · rw [summary_succ]
    exact (h.summary i).record_eq (h.report i)
  · rintro ⟨fault, hfault, -⟩
    by_contra hnew
    cases hfault.symm.trans (h.answer_of_not_holds hnew).1
  · exact ⟨_, (h.answer_of_holds hold).1, rfl⟩

/-- A scenario that is reported twice, and another one that fails. -/
def reportedTwice : History :=
  ⟨"here", "suite", [.new "a", (Report.new "a").fail "late", (Report.new "b").fail "unmet"]⟩

theorem second_report_refused :
    (reportedTwice.summary 1).Holds "a" ∧ reportedTwice.summary 2 = reportedTwice.summary 1 ∧
    ¬ (reportedTwice.summary 2).Holds "b" ∧ reportedTwice.Accepted ⟨2, by decide⟩ ∧
    (reportedTwice.summary 3).get? "a" = some (.new "a") ∧
    (reportedTwice.summary 3).allPassed = false ∧
    (((Report.new "b").fail "unmet").status = .fail ↔
      ((Report.new "b").fail "unmet").failures ≠ []) := by
  obtain ⟨htallies, hget, -, -, hrefused, haccepted, hmade⟩ :=
    counts_and_first_reports reportedTwice
  have hold : (reportedTwice.summary 1).Holds "a" := ⟨.new "a", List.mem_singleton_self _, rfl⟩
  have hnew : ¬ (reportedTwice.summary 2).Holds "b" := by
    rintro ⟨r, hr, hid⟩
    obtain rfl := List.mem_singleton.mp hr
    exact absurd hid (by decide)
  have hlast := haccepted ⟨2, by decide⟩ hnew
  refine ⟨hold, hrefused ⟨1, by decide⟩ hold, hnew, hlast.1, ?_, ?_, hmade _ (.fail (.new "b") _)⟩
  · refine (hget 3 "a" (.new "a")).mpr ⟨⟨0, by decide⟩, by decide, rfl, rfl, rfl, ?_⟩
    intro j hj
    exact absurd hj (Nat.not_lt_zero _)
  · rw [Bool.eq_false_iff, Ne, (htallies 3).2.2]
    have hmem : (Report.new "b").fail "unmet" ∈ (reportedTwice.summary 3).scenarios :=
      List.mem_cons_of_mem _ List.mem_cons_self
    rintro ⟨-, hpass⟩
    exact hpass _ hmem rfl

end History
end Conformance.Summary
