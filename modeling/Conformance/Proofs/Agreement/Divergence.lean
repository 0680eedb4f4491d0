import Conformance.Agreement.Divergence
import Conformance.Proofs.Pointwise
import Mathlib

/-!
# Which scenarios diverge

What counts of a list of summaries is, for each suite, which languages ran it and
which report each of them lists last for a scenario. A scenario diverges exactly
if one of the languages lists no report of it, or two list reports that differ in
their status or in the set of their error codes.
-/
namespace Conformance.Agreement
open Conformance

theorem exists_eraseReps_loop_eq (name : String) (names kept : List String) :
    ∃ rest, List.eraseRepsBy.loop (· == ·) name names kept = kept.reverse ++ rest ∧
      (∀ n, n ∈ rest ↔ n ∈ name :: names) ∧
      ((name :: names).Pairwise (· ≤ ·) → rest.Pairwise (· < ·)) := by
  induction names generalizing name kept with
  | nil =>
    refine ⟨[name], ?_, fun n => Iff.rfl, fun _ => List.pairwise_singleton _ _⟩
    simp [List.eraseRepsBy.loop]
  | cons next names ih =>
    by_cases heq : name = next
    · subst heq
      obtain ⟨rest, hloop, hmem, hpairwise⟩ := ih name kept
      refine ⟨rest, ?_, fun n => ?_, fun hsorted => hpairwise hsorted.tail⟩
      · simpa [List.eraseRepsBy.loop] using hloop
      · rw [hmem]
        simp
    · obtain ⟨rest, hloop, hmem, hpairwise⟩ := ih next (name :: kept)
      refine ⟨name :: rest, ?_, fun n => ?_, fun hsorted => ?_⟩
      · have hbeq : (name == next) = false := by simpa using heq
        simpa [List.eraseRepsBy.loop, hbeq] using hloop
      · rw [List.mem_cons, hmem, ← List.mem_cons]
      · obtain ⟨hname, hrest⟩ := List.pairwise_cons.mp hsorted
        refine List.pairwise_cons.mpr ⟨fun n hn => ?_, hpairwise hrest⟩
        have hfirst : name < next := lt_of_le_of_ne (hname next List.mem_cons_self) heq
        rcases List.mem_cons.mp ((hmem n).mp hn) with rfl | hn
        · exact hfirst
        · exact hfirst.trans_le ((List.pairwise_cons.mp hrest).1 n hn)

theorem mem_eraseReps (names : List String) (n : String) : n ∈ names.eraseReps ↔ n ∈ names := by
  cases names with
  | nil => exact Iff.rfl
  | cons name rest =>
    obtain ⟨kept, hloop, hmem, -⟩ := exists_eraseReps_loop_eq name rest []
    rw [← hmem, List.eraseReps, List.eraseRepsBy, hloop]
    rfl

theorem eraseReps_pairwise {names : List String} (h : names.Pairwise (· ≤ ·)) :
    names.eraseReps.Pairwise (· < ·) := by
  cases names with
  | nil => exact List.Pairwise.nil
  | cons name rest =>
    obtain ⟨kept, hloop, -, hpairwise⟩ := exists_eraseReps_loop_eq name rest []
    rw [List.eraseReps, List.eraseRepsBy, hloop]
    exact hpairwise h

theorem mem_sortedNames (names : List String) (n : String) : n ∈ sortedNames names ↔ n ∈ names :=
  (mem_eraseReps _ n).trans List.mem_mergeSort

theorem sortedNames_pairwise (names : List String) : (sortedNames names).Pairwise (· < ·) := by
  have htrans : ∀ a b c : String, decide (a ≤ b) → decide (b ≤ c) → decide (a ≤ c) := by
    simpa only [decide_eq_true_eq] using fun a b c : String => le_trans
  have htotal : ∀ a b : String, decide (a ≤ b) || decide (b ≤ a) := by
    simpa using le_total
  have hsorted := List.pairwise_mergeSort htrans htotal names
  apply eraseReps_pairwise
  simpa only [decide_eq_true_eq] using hsorted

/-- Names in order are known by which names they are. -/
theorem sortedNames_eq_iff (names others : List String) :
    sortedNames names = sortedNames others ↔ ∀ n, n ∈ names ↔ n ∈ others := by
  constructor
  · intro h n
    rw [← mem_sortedNames, h, mem_sortedNames]
  · intro h
    refine (sortedNames_pairwise names).eq_of_mem_iff (sortedNames_pairwise others) fun n => ?_
    rw [mem_sortedNames, mem_sortedNames, h]

/-- The reports have the same status and the same set of error codes. -/
def SameVerdict (r t : Report) : Prop :=
  r.status = t.status ∧ ∀ code, code ∈ r.errors ↔ code ∈ t.errors

theorem ofReport_eq_iff (r t : Report) :
    Verdict.ofReport r = Verdict.ofReport t ↔ SameVerdict r t := by
  rw [Verdict.ofReport, Verdict.ofReport, Verdict.mk.injEq, sortedNames_eq_iff, SameVerdict]

/-- A report, with the suite and the language whose summary lists it. -/
structure Listing where
  suite : String
  language : String
  report : Report

def Listing.Concerns (suite language scenarioId : String) (l : Listing) : Prop :=
  l.suite = suite ∧ l.language = language ∧ l.report.scenarioId = scenarioId

instance (suite language scenarioId : String) :
    DecidablePred (Listing.Concerns suite language scenarioId) := fun _ =>
  inferInstanceAs (Decidable (_ ∧ _))

variable (summaries : List Summary)

/-- All reports in the order in which they are listed. -/
def listings : List Listing :=
  summaries.flatMap fun s => s.scenarios.map fun r => ⟨s.suite, s.language, r⟩

variable (suite language scenarioId : String)

/-- The report is the last one that the language lists for the scenario of the suite. -/
def ListsLast (r : Report) : Prop :=
  r.scenarioId = scenarioId ∧ ∃ earlier later,
    listings summaries = earlier ++ ⟨suite, language, r⟩ :: later ∧
      ∀ l ∈ later, ¬ l.Concerns suite language scenarioId

/-- The language has a summary of the suite. -/
def Runs : Prop := ∃ s ∈ summaries, s.suite = suite ∧ s.language = language

/-- The language has a summary of the suite, and no report of the scenario. -/
def Misses : Prop :=
  Runs summaries suite language ∧ ∀ r, ¬ ListsLast summaries suite language scenarioId r

/-- Some summary of the suite lists the scenario. -/
def Reported : Prop :=
  ∃ s ∈ summaries, s.suite = suite ∧ ∃ r ∈ s.scenarios, r.scenarioId = scenarioId

/-- Two languages differ in what they list last. -/
def Differ : Prop :=
  ∃ one other r t, ListsLast summaries suite one scenarioId r ∧
    ListsLast summaries suite other scenarioId t ∧ ¬ SameVerdict r t

theorem concerning_eq :
    (((ofSuite suite summaries).filter (·.language == language)).flatMap (·.scenarios)).filter
        (·.scenarioId == scenarioId) =
      ((listings summaries).filter (·.Concerns suite language scenarioId)).map (·.report) := by
  induction summaries with
  | nil => rfl
  | cons s rest ih =>
    rw [listings, List.flatMap_cons, List.filter_append, List.map_append, ← listings, ← ih]
    by_cases hsuite : s.suite = suite
    · by_cases hlanguage : s.language = language
      · simp [ofSuite, hsuite, hlanguage, List.filter_map, Function.comp_def, Listing.Concerns]
        rfl
      · simp [ofSuite, hsuite, hlanguage, List.filter_map, Function.comp_def, Listing.Concerns]
    · simp [ofSuite, hsuite, List.filter_map, Function.comp_def, Listing.Concerns]

theorem verdict?_eq : verdict? summaries suite scenarioId language =
    (((listings summaries).filter (·.Concerns suite language scenarioId)).getLast?).map
      fun l => .ofReport l.report := by
  rw [verdict?, concerning_eq, List.getLast?_map, Option.map_map]
  rfl

theorem last_eq_some_iff (l : Listing) :
    ((listings summaries).filter (·.Concerns suite language scenarioId)).getLast? = some l ↔
      ∃ r, ListsLast summaries suite language scenarioId r ∧ l = ⟨suite, language, r⟩ := by
  rw [List.getLast?_filter, List.find?_eq_some_iff_append]
  simp only [decide_eq_true_eq, Bool.not_eq_true', decide_eq_false_iff_not]
  constructor
  · rintro ⟨⟨rfl, rfl, hid⟩, later, earlier, heq, hlater⟩
    refine ⟨l.report, ⟨hid, earlier.reverse, later.reverse, ?_, ?_⟩, rfl⟩
    · simpa using congrArg List.reverse heq
    · simpa using hlater
  · rintro ⟨r, ⟨hid, earlier, later, heq, hlater⟩, rfl⟩
    refine ⟨⟨rfl, rfl, hid⟩, later.reverse, earlier.reverse, ?_, ?_⟩
    · simp [heq]
    · simpa using hlater

variable {summaries suite language scenarioId}

theorem verdict?_eq_some_iff (v : Verdict) :
    verdict? summaries suite scenarioId language = some v ↔
      ∃ r, ListsLast summaries suite language scenarioId r ∧ .ofReport r = v := by
  rw [verdict?_eq, Option.map_eq_some_iff]
  simp only [last_eq_some_iff]
  constructor
  · rintro ⟨l, ⟨r, hr, rfl⟩, rfl⟩
    exact ⟨r, hr, rfl⟩
  · rintro ⟨r, hr, rfl⟩
    exact ⟨_, ⟨r, hr, rfl⟩, rfl⟩

theorem verdict?_eq_none_iff :
    verdict? summaries suite scenarioId language = none ↔
      ∀ r, ¬ ListsLast summaries suite language scenarioId r := by
  rw [Option.eq_none_iff_forall_ne_some]
  constructor
  · intro h r hr
    exact h _ ((verdict?_eq_some_iff _).mpr ⟨r, hr, rfl⟩)
  · intro h v hv
    obtain ⟨r, hr, -⟩ := (verdict?_eq_some_iff v).mp hv
    exact h r hr

theorem mem_ofSuite (s : Summary) :
    s ∈ ofSuite suite summaries ↔ s ∈ summaries ∧ s.suite = suite := by
  simp [ofSuite]

theorem mem_languages : language ∈ languages suite summaries ↔ Runs summaries suite language := by
  simp [languages, mem_sortedNames, mem_ofSuite, Runs, and_assoc]

theorem mem_scenarioIds :
    scenarioId ∈ scenarioIds suite summaries ↔ Reported summaries suite scenarioId := by
  simp [scenarioIds, mem_sortedNames, mem_ofSuite, Reported, and_assoc]

theorem mem_listings (l : Listing) :
    l ∈ listings summaries ↔
      ∃ s ∈ summaries, s.suite = l.suite ∧ s.language = l.language ∧ l.report ∈ s.scenarios := by
  rw [listings, List.mem_flatMap]
  refine exists_congr fun s => and_congr_right fun _ => ?_
  rw [List.mem_map]
  constructor
  · rintro ⟨r, hr, rfl⟩
    exact ⟨rfl, rfl, hr⟩
  · rintro ⟨hsuite, hlanguage, hr⟩
    exact ⟨l.report, hr, by rw [hsuite, hlanguage]⟩

theorem ListsLast.runs {r : Report} (h : ListsLast summaries suite language scenarioId r) :
    Runs summaries suite language := by
  obtain ⟨-, earlier, later, heq, -⟩ := h
  have hmem : ⟨suite, language, r⟩ ∈ listings summaries := by simp [heq]
  obtain ⟨s, hs, hsuite, hlanguage, -⟩ := (mem_listings _).mp hmem
  exact ⟨s, hs, hsuite, hlanguage⟩

theorem exists_listsLast_iff : (∃ r, ListsLast summaries suite language scenarioId r) ↔
    ∃ s ∈ summaries, s.suite = suite ∧ s.language = language ∧
      ∃ r ∈ s.scenarios, r.scenarioId = scenarioId := by
  have hlisted : (∃ r, ListsLast summaries suite language scenarioId r) ↔
      ∃ l ∈ listings summaries, l.Concerns suite language scenarioId := by
    constructor
    · rintro ⟨r, hid, earlier, later, heq, -⟩
      exact ⟨⟨suite, language, r⟩, by simp [heq], rfl, rfl, hid⟩
    · rintro ⟨l, hl, hconcerns⟩
      have hmem : l ∈ (listings summaries).filter (·.Concerns suite language scenarioId) :=
        List.mem_filter.mpr ⟨hl, decide_eq_true hconcerns⟩
      obtain ⟨r, hr, -⟩ := (last_eq_some_iff summaries suite language scenarioId _).mp
        (List.getLast?_eq_some_getLast (List.ne_nil_of_mem hmem))
      exact ⟨r, hr⟩
  rw [hlisted]
  constructor
  · rintro ⟨l, hl, rfl, rfl, hid⟩
    obtain ⟨s, hs, hsuite, hlanguage, hr⟩ := (mem_listings l).mp hl
    exact ⟨s, hs, hsuite, hlanguage, l.report, hr, hid⟩
  · rintro ⟨s, hs, rfl, rfl, r, hr, hid⟩
    exact ⟨⟨s.suite, s.language, r⟩, (mem_listings _).mpr ⟨s, hs, rfl, rfl, hr⟩, rfl, rfl, hid⟩

theorem disagree_iff (verdicts : List (String × Verdict)) :
    disagree verdicts = true ↔ ∃ a ∈ verdicts, ∃ b ∈ verdicts, a.2 ≠ b.2 := by
  cases verdicts with
  | nil => simp [disagree]
  | cons first rest =>
    simp only [disagree, List.any_eq_true, decide_eq_true_eq]
    constructor
    · rintro ⟨b, hb, hne⟩
      exact ⟨b, List.mem_cons_of_mem first hb, first, List.mem_cons_self, hne⟩
    · rintro ⟨a, ha, b, hb, hne⟩
      by_contra hnone
      have hall : ∀ c ∈ first :: rest, c.2 = first.2 := by
        refine List.forall_mem_cons.mpr ⟨rfl, fun c hc => ?_⟩
        by_contra hc'
        exact hnone ⟨c, hc, hc'⟩
      exact hne ((hall a ha).trans (hall b hb).symm)

variable (summaries suite scenarioId) in
/-- The languages that have a summary of the suite and no verdict on the scenario, in order. -/
def missing : List String :=
  (languages suite summaries).filter fun language =>
    (verdict? summaries suite scenarioId language).isNone

variable (summaries suite scenarioId) in
/-- The verdicts on the scenario, in the order of the languages. -/
def present : List (String × Verdict) :=
  (languages suite summaries).filterMap fun language =>
    (verdict? summaries suite scenarioId language).map fun v => (language, v)

theorem divergence?_eq : divergence? summaries suite scenarioId =
    if missing summaries suite scenarioId ≠ [] then
      some ⟨suite, scenarioId,
        "missing from " ++ String.intercalate ", " (missing summaries suite scenarioId)⟩
    else if disagree (present summaries suite scenarioId) then
      some ⟨suite, scenarioId, String.intercalate " "
        ((present summaries suite scenarioId).map
          fun (language, v) => language ++ "=" ++ v.describe)⟩
    else none := by
  have hmissing : missing summaries suite scenarioId = (languages suite summaries).filterMap
      fun language => if (verdict? summaries suite scenarioId language).isNone then some language
        else none := by
    rw [missing, ← List.filterMap_eq_filter]
    rfl
  rw [divergence?, hmissing, present]
  simp only [List.filterMap_map]
  rfl

theorem mem_missing :
    language ∈ missing summaries suite scenarioId ↔ Misses summaries suite language scenarioId := by
  rw [missing, List.mem_filter, mem_languages, Option.isNone_iff_eq_none, verdict?_eq_none_iff,
    Misses]

theorem mem_present (v : Verdict) :
    (language, v) ∈ present summaries suite scenarioId ↔
      ∃ r, ListsLast summaries suite language scenarioId r ∧ .ofReport r = v := by
  rw [← verdict?_eq_some_iff]
  simp only [present, List.mem_filterMap, Option.map_eq_some_iff, Prod.mk.injEq, mem_languages]
  constructor
  · rintro ⟨l, -, w, hw, rfl, rfl⟩
    exact hw
  · intro hv
    obtain ⟨r, hr, -⟩ := (verdict?_eq_some_iff v).mp hv
    exact ⟨language, hr.runs, v, hv, rfl, rfl⟩

theorem disagree_present_iff :
    disagree (present summaries suite scenarioId) = true ↔ Differ summaries suite scenarioId := by
  rw [disagree_iff]
  constructor
  · rintro ⟨⟨one, v⟩, hv, ⟨other, w⟩, hw, hne⟩
    obtain ⟨r, hr, rfl⟩ := (mem_present v).mp hv
    obtain ⟨t, ht, rfl⟩ := (mem_present w).mp hw
    exact ⟨one, other, r, t, hr, ht, mt (ofReport_eq_iff r t).mpr hne⟩
  · rintro ⟨one, other, r, t, hr, ht, hne⟩
    exact ⟨(one, .ofReport r), (mem_present _).mpr ⟨r, hr, rfl⟩, (other, .ofReport t),
      (mem_present _).mpr ⟨t, ht, rfl⟩, mt (ofReport_eq_iff r t).mp hne⟩

theorem eq_of_divergence? {d : Divergence} (h : divergence? summaries suite scenarioId = some d) :
    d.suite = suite ∧ d.scenarioId = scenarioId := by
  rw [divergence?_eq] at h
  split_ifs at h
  · cases h
    exact ⟨rfl, rfl⟩
  · cases h
    exact ⟨rfl, rfl⟩

theorem divergence?_of_misses (h : Misses summaries suite language scenarioId) :
    divergence? summaries suite scenarioId = some ⟨suite, scenarioId,
      "missing from " ++ String.intercalate ", " (missing summaries suite scenarioId)⟩ := by
  rw [divergence?_eq, if_pos (List.ne_nil_of_mem (mem_missing.mpr h))]

theorem isSome_divergence?_iff : (divergence? summaries suite scenarioId).isSome = true ↔
    (∃ language, Misses summaries suite language scenarioId) ∨
      Differ summaries suite scenarioId := by
  have hmissing : (∃ language, Misses summaries suite language scenarioId) ↔
      missing summaries suite scenarioId ≠ [] := by
    simp only [← mem_missing]
    exact ⟨fun ⟨_, hmem⟩ => List.ne_nil_of_mem hmem, List.exists_mem_of_ne_nil _⟩
  rw [divergence?_eq, hmissing, ← disagree_present_iff]
  split_ifs with hnames hdisagree
  · simp [hnames]
  · simp [hdisagree]
  · simp [hnames, hdisagree]

theorem mem_divergences (d : Divergence) :
    d ∈ divergences summaries ↔
      Reported summaries d.suite d.scenarioId ∧
        divergence? summaries d.suite d.scenarioId = some d := by
  simp only [divergences, List.mem_flatMap, List.mem_filterMap, mem_scenarioIds]
  constructor
  · rintro ⟨suite, -, scenarioId, hreported, hd⟩
    obtain ⟨rfl, rfl⟩ := eq_of_divergence? hd
    exact ⟨hreported, hd⟩
  · rintro ⟨hreported, hd⟩
    refine ⟨d.suite, ?_, d.scenarioId, hreported, hd⟩
    obtain ⟨s, hs, hsuite, -⟩ := hreported
    rw [suites, mem_sortedNames]
    exact List.mem_map.mpr ⟨s, hs, hsuite⟩

/-- Divergences are in the order of their suites, and within a suite of their scenarios. -/
def Divergence.Before (d e : Divergence) : Prop :=
  d.suite < e.suite ∨ d.suite = e.suite ∧ d.scenarioId < e.scenarioId

theorem divergences_pairwise (summaries : List Summary) :
    (divergences summaries).Pairwise Divergence.Before := by
  refine List.pairwise_flatMap.mpr ⟨fun suite _ => ?_, ?_⟩
  · refine List.pairwise_filterMap.mpr ((sortedNames_pairwise _).imp ?_)
    intro one other hlt d hd e he
    obtain ⟨hsuite, rfl⟩ := eq_of_divergence? hd
    obtain ⟨hsuite', rfl⟩ := eq_of_divergence? he
    exact .inr ⟨hsuite.trans hsuite'.symm, hlt⟩
  · refine (sortedNames_pairwise _).imp ?_
    intro one other hlt d hd e he
    obtain ⟨_, -, hd⟩ := List.mem_filterMap.mp hd
    obtain ⟨_, -, he⟩ := List.mem_filterMap.mp he
    obtain ⟨rfl, -⟩ := eq_of_divergence? hd
    obtain ⟨rfl, -⟩ := eq_of_divergence? he
    exact .inl hlt

theorem Divergence.Before.ne {d e : Divergence} (h : d.Before e) :
    (d.suite, d.scenarioId) ≠ (e.suite, e.scenarioId) := by
  intro heq
  obtain ⟨hsuite, hid⟩ := Prod.mk.inj heq
  rcases h with hlt | ⟨-, hlt⟩
  · exact absurd hsuite hlt.ne
  · exact absurd hid hlt.ne

open Classical in
/-- No scenario has two divergences. -/
theorem countP_divergences (summaries : List Summary) (suite scenarioId : String) :
    (divergences summaries).countP (fun d => d.suite = suite ∧ d.scenarioId = scenarioId) =
      if Reported summaries suite scenarioId ∧
        ((∃ language, Misses summaries suite language scenarioId) ∨
          Differ summaries suite scenarioId) then 1 else 0 := by
  let place : Divergence → String × String := fun d => (d.suite, d.scenarioId)
  have hnodup : ((divergences summaries).map place).Nodup :=
    List.pairwise_map.mpr ((divergences_pairwise summaries).imp Divergence.Before.ne)
  have hmem : (suite, scenarioId) ∈ (divergences summaries).map place ↔
      Reported summaries suite scenarioId ∧
        ((∃ language, Misses summaries suite language scenarioId) ∨
          Differ summaries suite scenarioId) := by
    rw [← isSome_divergence?_iff, Option.isSome_iff_exists, List.mem_map]
    constructor
    · rintro ⟨d, hd, hplace⟩
      obtain ⟨rfl, rfl⟩ := Prod.mk.inj hplace
      obtain ⟨hreported, hd⟩ := (mem_divergences d).mp hd
      exact ⟨hreported, d, hd⟩
    · rintro ⟨hreported, d, hd⟩
      obtain ⟨rfl, rfl⟩ := eq_of_divergence? hd
      exact ⟨d, (mem_divergences d).mpr ⟨hreported, hd⟩, rfl⟩
  have hcount : (divergences summaries).countP
      (fun d => d.suite = suite ∧ d.scenarioId = scenarioId) =
        ((divergences summaries).map place).count (suite, scenarioId) := by
    rw [List.count_eq_countP, List.countP_map]
    refine List.countP_congr fun d _ => ?_
    simp [place]
  rw [hcount]
  split_ifs with h
  · exact List.count_eq_one_of_mem hnodup (hmem.mpr h)
  · exact List.count_eq_zero.mpr (mt hmem.mp h)

theorem misses_iff : Misses summaries suite language scenarioId ↔
    Runs summaries suite language ∧ ∀ s ∈ summaries, s.suite = suite → s.language = language →
      ∀ r ∈ s.scenarios, r.scenarioId ≠ scenarioId := by
  rw [Misses, ← not_exists, exists_listsLast_iff]
  push Not
  rfl

theorem reported_iff : Reported summaries suite scenarioId ↔
    ∃ language, (verdict? summaries suite scenarioId language).isSome = true := by
  have hlisted : ∀ language, (verdict? summaries suite scenarioId language).isSome = true ↔
      ∃ s ∈ summaries, s.suite = suite ∧ s.language = language ∧
        ∃ r ∈ s.scenarios, r.scenarioId = scenarioId := by
    intro language
    rw [← exists_listsLast_iff, Option.isSome_iff_ne_none, ne_eq, verdict?_eq_none_iff]
    push Not
    rfl
  simp only [hlisted, Reported]
  constructor
  · rintro ⟨s, hs, hsuite, hr⟩
    exact ⟨s.language, s, hs, hsuite, rfl, hr⟩
  · rintro ⟨-, s, hs, hsuite, -, hr⟩
    exact ⟨s, hs, hsuite, hr⟩

/-- Divergences are told by which languages run a suite and which verdicts they list last. -/
theorem divergences_eq_of {others : List Summary}
    (hruns : ∀ suite language, Runs summaries suite language ↔ Runs others suite language)
    (hverdict : ∀ suite scenarioId language, verdict? summaries suite scenarioId language =
      verdict? others suite scenarioId language) : divergences summaries = divergences others := by
  have hsuites : suites summaries = suites others := by
    have hsuite : ∀ (all : List Summary) suite, suite ∈ all.map (·.suite) ↔
        ∃ language, Runs all suite language := by
      simp [Runs]
    exact (sortedNames_eq_iff _ _).mpr fun suite => by simp only [hsuite, hruns]
  have hlanguages : ∀ suite, languages suite summaries = languages suite others := by
    intro suite
    refine (sortedNames_pairwise _).eq_of_mem_iff (sortedNames_pairwise _) fun language => ?_
    exact mem_languages.trans ((hruns suite language).trans mem_languages.symm)
  have hids : ∀ suite, scenarioIds suite summaries = scenarioIds suite others := by
    intro suite
    refine (sortedNames_pairwise _).eq_of_mem_iff (sortedNames_pairwise _) fun scenarioId => ?_
    refine mem_scenarioIds.trans (Iff.trans ?_ mem_scenarioIds.symm)
    simp only [reported_iff, hverdict]
  have hdivergence : ∀ suite, divergence? summaries suite = divergence? others suite := by
    intro suite
    funext scenarioId
    rw [divergence?, divergence?, hlanguages]
    simp only [hverdict]
  rw [divergences, divergences, hsuites]
  simp only [hids, hdivergence]

/-- What a summary is compared on. -/
structure View where
  suite : String
  language : String
  verdicts : List (String × Verdict)

def view (s : Summary) : View :=
  ⟨s.suite, s.language, s.scenarios.map fun r => (r.scenarioId, .ofReport r)⟩

section SameView
variable {others : List Summary} (h : summaries.map view = others.map view)
include h

theorem map_view_ofSuite (suite : String) :
    (ofSuite suite summaries).map view = (ofSuite suite others).map view := by
  have hfilter := congrArg (List.filter fun v : View => v.suite == suite) h
  rw [List.filter_map, List.filter_map] at hfilter
  exact hfilter

theorem verdict?_congr (suite scenarioId language : String) :
    verdict? summaries suite scenarioId language = verdict? others suite scenarioId language := by
  have hverdict : ∀ all : List Summary, verdict? all suite scenarioId language =
      (((((ofSuite suite all).map view).filter (·.language == language)).flatMap
        (·.verdicts)).filter (·.1 == scenarioId)).getLast?.map Prod.snd := by
    intro all
    rw [List.filter_map, List.flatMap_map]
    simp only [view, ← List.map_flatMap]
    rw [List.filter_map, List.getLast?_map, Option.map_map]
    rfl
  rw [hverdict, hverdict, map_view_ofSuite h]

theorem runs_congr (suite language : String) :
    Runs summaries suite language ↔ Runs others suite language := by
  have hruns : ∀ all : List Summary, Runs all suite language ↔
      ∃ v ∈ all.map view, v.suite = suite ∧ v.language = language := by
    simp [Runs, view]
  rw [hruns, hruns, h]

theorem divergences_congr : divergences summaries = divergences others :=
  divergences_eq_of (runs_congr h) (verdict?_congr h)

end SameView

/-- The summaries list the same scenarios in one order, with the same verdicts: the order and the
repetition of error codes may differ. -/
structure SameVerdicts (s t : Summary) : Prop where
  suite_eq : s.suite = t.suite
  language_eq : s.language = t.language
  reports : List.Forall₂ (fun r r' => r.scenarioId = r'.scenarioId ∧ SameVerdict r r')
    s.scenarios t.scenarios

theorem SameVerdicts.view_eq {s t : Summary} (h : SameVerdicts s t) : view s = view t := by
  have hreports : List.Forall₂ (fun r r' => (r.scenarioId, Verdict.ofReport r) =
      (r'.scenarioId, Verdict.ofReport r')) s.scenarios t.scenarios := by
    refine h.reports.imp ?_
    rintro r r' ⟨hid, hverdict⟩
    rw [hid, (ofReport_eq_iff r r').mpr hverdict]
  rw [view, view, h.suite_eq, h.language_eq, Pointwise.map_eq_of hreports]

open Classical in
/-- There is one divergence for each scenario that a language of its suite has no report of, or two
languages report differently, and there is no other; the languages that have none are named.
Neither the order nor the repetition of error codes counts, and a language whose summaries of a
suite are all empty misses each of its scenarios. -/
theorem divergences_exact (summaries : List Summary) :
    (divergences summaries).Pairwise Divergence.Before ∧
    (∀ suite scenarioId, (divergences summaries).countP
        (fun d => d.suite = suite ∧ d.scenarioId = scenarioId) =
      if Reported summaries suite scenarioId ∧
        ((∃ language, Misses summaries suite language scenarioId) ∨
          Differ summaries suite scenarioId) then 1 else 0) ∧
    (∀ suite language scenarioId, Misses summaries suite language scenarioId ↔
      Runs summaries suite language ∧ ∀ s ∈ summaries, s.suite = suite → s.language = language →
        ∀ r ∈ s.scenarios, r.scenarioId ≠ scenarioId) ∧
    (∀ d ∈ divergences summaries, (∃ language, Misses summaries d.suite language d.scenarioId) →
      ∃ names, d.detail = "missing from " ++ String.intercalate ", " names ∧
        names.Pairwise (· < ·) ∧
        ∀ language, language ∈ names ↔ Misses summaries d.suite language d.scenarioId) ∧
    (∀ others, List.Forall₂ SameVerdicts summaries others →
      divergences others = divergences summaries) ∧
    (∀ s ∈ summaries,
      (∀ t ∈ summaries, t.suite = s.suite → t.language = s.language → t.scenarios = []) →
      ∀ scenarioId, Reported summaries s.suite scenarioId →
        Misses summaries s.suite s.language scenarioId ∧
        ∃ d ∈ divergences summaries, d.suite = s.suite ∧ d.scenarioId = scenarioId) := by
  refine ⟨divergences_pairwise summaries, countP_divergences summaries, fun _ _ _ => misses_iff,
    fun d hd hmisses => ?_, fun others h => ?_, fun s hs hempty scenarioId hreported => ?_⟩
  · obtain ⟨language, hlanguage⟩ := hmisses
    have hdetail := ((mem_divergences d).mp hd).2.symm.trans (divergence?_of_misses hlanguage)
    exact ⟨missing summaries d.suite d.scenarioId,
      congrArg Divergence.detail (Option.some.inj hdetail), (sortedNames_pairwise _).filter _,
      fun language => mem_missing⟩
  · refine (divergences_congr ?_).symm
    exact Pointwise.map_eq_of (h.imp fun s t hst => hst.view_eq)
  · have hmisses : Misses summaries s.suite s.language scenarioId := by
      refine misses_iff.mpr ⟨⟨s, hs, rfl, rfl⟩, fun t ht hsuite hlanguage r hr => ?_⟩
      rw [hempty t ht hsuite hlanguage] at hr
      cases hr
    exact ⟨hmisses, ⟨s.suite, scenarioId, _⟩,
      (mem_divergences _).mpr ⟨hreported, divergence?_of_misses hmisses⟩, rfl, rfl⟩

/-- A language that lists a scenario with these error codes, and one that lists none. -/
def besideEmpty (codes : List String) : List Summary :=
  [⟨"here", "fork", 1, 1, 0, [(Report.new "f").withErrors codes]⟩, .new "there" "fork"]

theorem empty_summary_diverges :
    (∃ d ∈ divergences (besideEmpty ["B", "A"]), d.suite = "fork" ∧ d.scenarioId = "f" ∧
      ∃ names, d.detail = "missing from " ++ String.intercalate ", " names ∧ "there" ∈ names) ∧
    divergences (besideEmpty ["A", "B", "A"]) = divergences (besideEmpty ["B", "A"]) := by
  obtain ⟨-, -, -, hdetail, hcodes, hempty⟩ := divergences_exact (besideEmpty ["B", "A"])
  constructor
  · have hreported : Reported (besideEmpty ["B", "A"]) "fork" "f" :=
      ⟨_, List.mem_cons_self, rfl, _, List.mem_cons_self, rfl⟩
    have hthere : ∀ t ∈ besideEmpty ["B", "A"], t.suite = "fork" → t.language = "there" →
        t.scenarios = [] := by
      simp [besideEmpty, Summary.new]
    obtain ⟨hmisses, d, hd, hsuite, hid⟩ := hempty (.new "there" "fork")
      (List.mem_cons_of_mem _ List.mem_cons_self) hthere "f" hreported
    have hmisses' : Misses (besideEmpty ["B", "A"]) d.suite "there" d.scenarioId := by
      rw [hsuite, hid]
      exact hmisses
    obtain ⟨names, hnames, -, hmem⟩ := hdetail d hd ⟨"there", hmisses'⟩
    exact ⟨d, hd, hsuite, hid, names, hnames, (hmem "there").mpr hmisses'⟩
  · refine hcodes _ (.cons ⟨rfl, rfl, .cons ⟨rfl, rfl, ?_⟩ .nil⟩ (.cons ⟨rfl, rfl, .nil⟩ .nil))
    simp [Report.withErrors, Report.new, or_comm]

end Conformance.Agreement
