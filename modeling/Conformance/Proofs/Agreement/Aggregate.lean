import Conformance.Agreement.Outcome
import Mathlib

/-!
# What an aggregate holds

After any outcomes an aggregate has the last one of each language and no other,
and its counts are those of what it holds. Outcomes of distinct languages can
therefore be recorded in any order, and so can the tasks that they come from.
-/
namespace Conformance.Agreement
open Conformance

/-- The last outcome of the language. -/
def lastOf (language : String) (outcomes : List Outcome) : Option Outcome :=
  (outcomes.filter (·.language == language)).getLast?

theorem lastOf_append_singleton (language : String) (outcomes : List Outcome) (o : Outcome) :
    lastOf language (outcomes ++ [o]) =
      if o.language = language then some o else lastOf language outcomes := by
  by_cases h : o.language = language <;> simp [lastOf, h]

theorem mem_of_lastOf {language : String} {outcomes : List Outcome} {o : Outcome}
    (h : lastOf language outcomes = some o) : o ∈ outcomes ∧ o.language = language := by
  simpa using List.mem_of_getLast? h

theorem lastOf_isSome_iff (language : String) (outcomes : List Outcome) :
    (lastOf language outcomes).isSome = true ↔ language ∈ outcomes.map (·.language) := by
  simp [lastOf]

/-- Where no language comes twice, each outcome is the last one of its language. -/
theorem lastOf_eq_some_iff {outcomes : List Outcome} (h : (outcomes.map (·.language)).Nodup)
    (language : String) (o : Outcome) :
    lastOf language outcomes = some o ↔ o ∈ outcomes ∧ o.language = language := by
  refine ⟨mem_of_lastOf, ?_⟩
  rintro ⟨ho, rfl⟩
  have hsome : (lastOf o.language outcomes).isSome = true :=
    (lastOf_isSome_iff _ _).mpr (List.mem_map_of_mem ho)
  obtain ⟨last, hlast⟩ := Option.isSome_iff_exists.mp hsome
  obtain ⟨hmem, hlanguage⟩ := mem_of_lastOf hlast
  rw [hlast, List.inj_on_of_nodup_map h hmem ho hlanguage]

namespace Aggregate

/-- Entries in the order of their languages, each language once. -/
def Increasing (results : List (String × Outcome)) : Prop :=
  results.Pairwise fun x y => x.1 < y.1

theorem Increasing.nodup {results : List (String × Outcome)} (h : Increasing results) :
    (results.map Prod.fst).Nodup :=
  List.pairwise_map.mpr (List.Pairwise.imp (fun hlt => hlt.ne) h)

theorem mem_insert {results : List (String × Outcome)} (h : Increasing results) (o : Outcome)
    (e : String × Outcome) :
    e ∈ insert o results ↔ e = (o.language, o) ∨ e ∈ results ∧ e.1 ≠ o.language := by
  induction results with
  | nil => simp [insert]
  | cons first rest ih =>
    obtain ⟨language, other⟩ := first
    obtain ⟨hfirst, hrest⟩ := List.pairwise_cons.mp h
    rw [insert]
    split_ifs with hlt heq
    · have hne : ∀ x ∈ (language, other) :: rest, x.1 ≠ o.language := by
        refine List.forall_mem_cons.mpr ⟨hlt.ne', fun x hx => ?_⟩
        exact (hlt.trans (hfirst x hx)).ne'
      rw [List.mem_cons]
      exact or_congr_right ⟨fun he => ⟨he, hne e he⟩, And.left⟩
    · subst heq
      have hne : e ∈ rest → e.1 ≠ o.language := fun he => (hfirst e he).ne'
      rw [List.mem_cons, List.mem_cons]
      constructor
      · rintro (rfl | he)
        · exact .inl rfl
        · exact .inr ⟨.inr he, hne he⟩
      · rintro (rfl | ⟨rfl | he, hlanguage⟩)
        · exact .inl rfl
        · exact absurd rfl hlanguage
        · exact .inr he
    · rw [List.mem_cons, List.mem_cons, ih hrest]
      constructor
      · rintro (rfl | rfl | ⟨he, hlanguage⟩)
        · exact .inr ⟨.inl rfl, Ne.symm heq⟩
        · exact .inl rfl
        · exact .inr ⟨.inr he, hlanguage⟩
      · rintro (rfl | ⟨rfl | he, hlanguage⟩)
        · exact .inr (.inl rfl)
        · exact .inl rfl
        · exact .inr (.inr ⟨he, hlanguage⟩)

theorem Increasing.insert {results : List (String × Outcome)} (h : Increasing results)
    (o : Outcome) : Increasing (insert o results) := by
  induction results with
  | nil => exact List.pairwise_singleton _ _
  | cons first rest ih =>
    obtain ⟨language, other⟩ := first
    obtain ⟨hfirst, hrest⟩ := List.pairwise_cons.mp h
    rw [Aggregate.insert]
    split_ifs with hlt heq
    · refine List.pairwise_cons.mpr ⟨List.forall_mem_cons.mpr ⟨hlt, fun x hx => ?_⟩, h⟩
      exact hlt.trans (hfirst x hx)
    · exact List.pairwise_cons.mpr ⟨hfirst, hrest⟩
    · refine List.pairwise_cons.mpr ⟨fun x hx => ?_, ih hrest⟩
      rcases (mem_insert hrest o x).mp hx with rfl | ⟨hx, -⟩
      · exact lt_of_le_of_ne (not_lt.mp hlt) (Ne.symm heq)
      · exact hfirst x hx

/-- The aggregate is what the outcomes leave. -/
structure Tallies (outcomes : List Outcome) (a : Aggregate) : Prop where
  increasing : Increasing a.results
  mem_iff : ∀ language o, (language, o) ∈ a.results ↔ lastOf language outcomes = some o
  total_eq : a.total = a.results.length
  passed_eq : a.passed = a.results.countP (·.2.success)
  failed_eq : a.failed = a.total - a.passed

theorem tallies_new : Tallies [] new :=
  ⟨List.Pairwise.nil, by simp [new, lastOf], rfl, rfl, rfl⟩

/-- One more outcome, whether or not it replaces another one. -/
theorem Tallies.record {outcomes : List Outcome} {a : Aggregate} (h : Tallies outcomes a)
    (o : Outcome) : Tallies (outcomes ++ [o]) (a.record o) := by
  refine ⟨h.increasing.insert o, fun language p => ?_, rfl, rfl, rfl⟩
  rw [lastOf_append_singleton, Aggregate.record, mem_insert h.increasing, h.mem_iff]
  by_cases hlanguage : o.language = language
  · simp [hlanguage, eq_comm]
  · simp [hlanguage, Ne.symm hlanguage]

def recordAll (outcomes : List Outcome) : Aggregate :=
  outcomes.foldl record new

theorem tallies_recordAll (outcomes : List Outcome) : Tallies outcomes (recordAll outcomes) := by
  induction outcomes using List.reverseRecOn with
  | nil => exact tallies_new
  | append_singleton outcomes o ih =>
    rw [recordAll, List.foldl_concat]
    exact ih.record o

namespace Tallies
variable {outcomes : List Outcome} {a : Aggregate} (h : Tallies outcomes a)
include h

theorem languages_eq :
    (a.results.map Prod.fst).toFinset = (outcomes.map (·.language)).toFinset := by
  ext language
  rw [List.mem_toFinset, List.mem_toFinset, ← lastOf_isSome_iff, Option.isSome_iff_exists]
  simp [← h.mem_iff]

theorem total_eq_card : a.total = (outcomes.map (·.language)).toFinset.card := by
  rw [h.total_eq, ← h.languages_eq, List.toFinset_card_of_nodup h.increasing.nodup,
    List.length_map]

theorem passed_le_total : a.passed ≤ a.total := by
  rw [h.passed_eq, h.total_eq]
  exact List.countP_le_length

theorem allPassed_iff :
    a.allPassed = true ↔ outcomes ≠ [] ∧ ∀ e ∈ a.results, e.2.success = true := by
  have hpassed : a.failed = 0 ↔ ∀ e ∈ a.results, e.2.success = true := by
    have hle := h.passed_le_total
    rw [← List.countP_eq_length, ← h.passed_eq, ← h.total_eq, h.failed_eq]
    omega
  have htotal : 0 < a.total ↔ outcomes ≠ [] := by
    rw [h.total_eq_card, Finset.card_pos, List.toFinset_nonempty_iff]
    simp
  rw [allPassed, Bool.and_eq_true, decide_eq_true_eq, beq_iff_eq, htotal, hpassed]

/-- An aggregate is known by which outcome is the last of each language. -/
theorem unique {others : List Outcome} {b : Aggregate} (hb : Tallies others b)
    (hlast : ∀ language, lastOf language outcomes = lastOf language others) : a = b := by
  have hresults : a.results = b.results := by
    refine List.Pairwise.eq_of_mem_iff h.increasing hb.increasing fun e => ?_
    rw [h.mem_iff, hb.mem_iff, hlast]
  have htotal : a.total = b.total := by rw [h.total_eq, hb.total_eq, hresults]
  have hpassed : a.passed = b.passed := by rw [h.passed_eq, hb.passed_eq, hresults]
  have hfailed : a.failed = b.failed := by rw [h.failed_eq, hb.failed_eq, htotal, hpassed]
  cases a
  cases b
  simp_all

end Tallies

/-- Outcomes of distinct languages leave the same aggregate in any order. -/
theorem recordAll_perm {outcomes others : List Outcome}
    (hnodup : (outcomes.map (·.language)).Nodup) (hperm : others.Perm outcomes) :
    recordAll others = recordAll outcomes := by
  refine (tallies_recordAll others).unique (tallies_recordAll outcomes) fun language => ?_
  have hnodup' : (others.map (·.language)).Nodup :=
    (hperm.map (·.language)).nodup_iff.mpr hnodup
  ext o
  rw [lastOf_eq_some_iff hnodup', lastOf_eq_some_iff hnodup, hperm.mem_iff]

end Aggregate

theorem lookup_eq_some_iff {α : Type} {l : List (ℕ × α)} (h : (l.map Prod.fst).Nodup) (n : ℕ)
    (x : α) : l.lookup n = some x ↔ (n, x) ∈ l := by
  induction l with
  | nil => simp
  | cons e rest ih =>
    obtain ⟨m, y⟩ := e
    obtain ⟨hm, hrest⟩ := List.nodup_cons.mp h
    rw [List.lookup_cons, List.mem_cons]
    by_cases hn : n = m
    · subst hn
      have hnot : (n, x) ∉ rest := fun hx => hm (List.mem_map.mpr ⟨_, hx, rfl⟩)
      simp [hnot, eq_comm]
    · rw [beq_eq_false_iff_ne.mpr hn, ih hrest]
      simp [hn]

/-- A task that was started under a number for a language, and how it ended. -/
structure Task where
  number : ℕ
  language : String
  ended : TaskEnd

/-- The outcome of a task, which counts for the language that the task was running. -/
def Task.outcome (t : Task) : Outcome :=
  t.ended.outcome t.language

/-- What is known of tasks when they have been started. -/
def started (tasks : List Task) : List (ℕ × String) :=
  tasks.map fun t => (t.number, t.language)

theorem map_fst_started (tasks : List Task) :
    (started tasks).map Prod.fst = tasks.map (·.number) := by
  rw [started, List.map_map]
  rfl

/-- Forgetting a task that has ended changes nothing for the tasks that have not. -/
theorem collect_eq {running : List (ℕ × String)} (hrunning : (running.map Prod.fst).Nodup)
    {order : List Task} (hnumbers : (order.map (·.number)).Nodup)
    (hstarted : ∀ t ∈ order, (t.number, t.language) ∈ running) (a : Aggregate) :
    collect running a (order.map fun t => (t.number, t.ended)) =
      (order.map Task.outcome).foldl Aggregate.record a := by
  induction order generalizing running a with
  | nil => rfl
  | cons t rest ih =>
    obtain ⟨ht, hrest⟩ := List.nodup_cons.mp hnumbers
    have hlanguage := (lookup_eq_some_iff hrunning _ _).mpr (hstarted t List.mem_cons_self)
    have hkept : ((running.filter (·.1 ≠ t.number)).map Prod.fst).Nodup :=
      hrunning.sublist (List.filter_sublist.map Prod.fst)
    have hstill : ∀ u ∈ rest, (u.number, u.language) ∈ running.filter (·.1 ≠ t.number) := by
      intro u hu
      have hne : u.number ≠ t.number := fun heq => ht (List.mem_map.mpr ⟨u, hu, heq⟩)
      exact List.mem_filter.mpr ⟨hstarted u (List.mem_cons_of_mem t hu), by simpa using hne⟩
    rw [List.map_cons, collect, hlanguage, ih hkept hrest hstill, List.map_cons, List.foldl_cons]
    rfl

/-- Tasks leave what their outcomes leave, recorded in the order in which the tasks end. -/
theorem collect_started {tasks order : List Task} (hnumbers : (tasks.map (·.number)).Nodup)
    (hperm : order.Perm tasks) :
    collect (started tasks) .new (order.map fun t => (t.number, t.ended)) =
      .recordAll (order.map Task.outcome) := by
  refine collect_eq ?_ ?_ (fun t ht => ?_) .new
  · rw [map_fst_started]
    exact hnumbers
  · exact (hperm.map _).nodup_iff.mpr hnumbers
  · exact List.mem_map_of_mem (hperm.subset ht)

/-- An aggregate holds the last outcome of each language that was recorded and no other, and its
counts are those of what it holds. Tasks whose outcomes are of distinct languages leave the same
aggregate in whatever order they end, which holds the outcome of each of them once. -/
theorem aggregate_exact (outcomes : List Outcome) :
    (Aggregate.Increasing (Aggregate.recordAll outcomes).results ∧
      ∀ language o, (language, o) ∈ (Aggregate.recordAll outcomes).results ↔
        lastOf language outcomes = some o) ∧
    (Aggregate.recordAll outcomes).total = (outcomes.map (·.language)).toFinset.card ∧
    (Aggregate.recordAll outcomes).passed =
      (Aggregate.recordAll outcomes).results.countP (·.2.success) ∧
    ((Aggregate.recordAll outcomes).passed ≤ (Aggregate.recordAll outcomes).total ∧
      (Aggregate.recordAll outcomes).failed =
        (Aggregate.recordAll outcomes).total - (Aggregate.recordAll outcomes).passed) ∧
    ((Aggregate.recordAll outcomes).allPassed = true ↔
      outcomes ≠ [] ∧ ∀ e ∈ (Aggregate.recordAll outcomes).results, e.2.success = true) ∧
    ∀ tasks : List Task, (tasks.map (·.number)).Nodup → tasks.map Task.outcome = outcomes →
      (outcomes.map (·.language)).Nodup → ∀ order : List Task, order.Perm tasks →
        collect (started tasks) .new (order.map fun t => (t.number, t.ended)) =
          .recordAll outcomes ∧
        (Aggregate.recordAll outcomes).total = tasks.length ∧
        ∀ o, o ∈ outcomes ↔ (o.language, o) ∈ (Aggregate.recordAll outcomes).results := by
  have h := Aggregate.tallies_recordAll outcomes
  refine ⟨⟨h.increasing, h.mem_iff⟩, h.total_eq_card, h.passed_eq, ⟨h.passed_le_total, h.failed_eq⟩,
    h.allPassed_iff, ?_⟩
  rintro tasks hnumbers rfl hnodup order hperm
  refine ⟨?_, ?_, fun o => ?_⟩
  · rw [collect_started hnumbers hperm, Aggregate.recordAll_perm hnodup (hperm.map _)]
  · rw [h.total_eq_card, List.toFinset_card_of_nodup hnodup, List.length_map, List.length_map]
  · rw [h.mem_iff, lastOf_eq_some_iff hnodup, and_iff_left rfl]

/-- One task that succeeded, and one that was given up. -/
def oneAborted : List Task :=
  [⟨7, "go", .finished (classify "go" ["ok"] (.exited 1) "ok")⟩, ⟨3, "c", .aborted "cancelled"⟩]

theorem oneAborted_in_reverse :
    collect (started oneAborted) .new (oneAborted.reverse.map fun t => (t.number, t.ended)) =
        .recordAll (oneAborted.map Task.outcome) ∧
      (Aggregate.recordAll (oneAborted.map Task.outcome)).total = 2 ∧
      (Aggregate.recordAll (oneAborted.map Task.outcome)).allPassed = false := by
  obtain ⟨-, -, -, -, hall, htasks⟩ := aggregate_exact (oneAborted.map Task.outcome)
  obtain ⟨hcollect, htotal, hmem⟩ := htasks oneAborted (by decide) rfl (by decide)
    oneAborted.reverse (List.reverse_perm _)
  refine ⟨hcollect, htotal, Bool.eq_false_iff.mpr fun hpassed => ?_⟩
  have haborted := (hmem (.failed "c" "oracle task failed: cancelled")).mp (by
    simp [oneAborted, Task.outcome, TaskEnd.outcome])
  exact absurd ((hall.mp hpassed).2 _ haborted) (by simp [Outcome.failed])

end Conformance.Agreement
