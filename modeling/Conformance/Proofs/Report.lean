import Conformance.Report
import Mathlib

/-!
# Failures of a report

A report passes as long as no failure is recorded, and what a check records says
nothing about the failures of the other checks.
-/
namespace Conformance.Report

variable (r : Report)

theorem failAll_failures (failures : List String) :
    (r.failAll failures).failures = r.failures ++ failures := by
  induction failures generalizing r with
  | nil => simp [failAll]
  | cons failure rest ih =>
    have hrest := ih (r.fail failure)
    rw [fail, List.append_assoc] at hrest
    exact hrest

theorem failAll_status_eq_pass_iff (failures : List String) :
    (r.failAll failures).status = .pass ↔ r.status = .pass ∧ failures = [] := by
  induction failures generalizing r with
  | nil => simp [failAll]
  | cons failure rest ih =>
    have hrest := ih (r.fail failure)
    simpa [fail, failAll] using hrest

theorem check_status_eq_pass_iff (ok : Bool) (failure : String) :
    (r.check ok failure).status = .pass ↔ r.status = .pass ∧ ok = true := by
  cases ok <;> simp [check, fail]

theorem mem_failures_check (ok : Bool) (failure f : String) :
    f ∈ (r.check ok failure).failures ↔ f ∈ r.failures ∨ ok = false ∧ f = failure := by
  cases ok <;> simp [check, fail]

section Checks
variable {α : Type} (ok : α → Bool) (failure : α → String) (l : List α)

/-- Checks that are made one after the other record a failure each where they do not hold. -/
theorem failures_foldl_check : (l.foldl (fun r a => r.check (ok a) (failure a)) r).failures =
    r.failures ++ (l.filter fun a => !ok a).map failure := by
  induction l generalizing r with
  | nil => simp
  | cons a l ih =>
    rw [List.foldl_cons, ih]
    cases h : ok a <;> simp [check, fail, h]

theorem foldl_check_status_eq_pass_iff :
    (l.foldl (fun r a => r.check (ok a) (failure a)) r).status = .pass ↔
      r.status = .pass ∧ ∀ a ∈ l, ok a = true := by
  induction l generalizing r with
  | nil => simp
  | cons a l ih =>
    rw [List.foldl_cons, ih, check_status_eq_pass_iff, List.forall_mem_cons, and_assoc]

theorem mem_failures_foldl_check (f : String) :
    f ∈ (l.foldl (fun r a => r.check (ok a) (failure a)) r).failures ↔
      f ∈ r.failures ∨ ∃ a ∈ l, ok a = false ∧ f = failure a := by
  simp only [failures_foldl_check, List.mem_append, List.mem_map, List.mem_filter,
    Bool.not_eq_true', and_assoc, eq_comm (b := f)]

end Checks

theorem check_scenarioId (ok : Bool) (failure : String) :
    (r.check ok failure).scenarioId = r.scenarioId := by
  cases ok <;> rfl

theorem failAll_scenarioId (failures : List String) :
    (r.failAll failures).scenarioId = r.scenarioId :=
  List.foldlRecOn (motive := fun t : Report => t.scenarioId = r.scenarioId) failures fail rfl
    fun _ ht _ _ => ht

theorem setMetrics_status (metrics : List (String × Json)) :
    (r.setMetrics metrics).status = r.status :=
  List.foldlRecOn (motive := fun t : Report => t.status = r.status) metrics _ rfl
    fun _ ht _ _ => ht

/-- The report names the failure once if `p` holds, and not at all otherwise. -/
def NamesOnceIff (failure : String) (p : Prop) : Prop :=
  (p → r.failures.count failure = 1) ∧ (¬ p → failure ∉ r.failures)

variable {r}

theorem namesOnceIff_of_nodup {failure : String} {p : Prop} (h : r.failures.Nodup)
    (hmem : failure ∈ r.failures ↔ p) : r.NamesOnceIff failure p :=
  ⟨fun hp => List.count_eq_one_of_mem h (hmem.mpr hp), mt hmem.mp⟩

theorem NamesOnceIff.congr {failure : String} {p q : Prop} (h : r.NamesOnceIff failure p)
    (hpq : p ↔ q) : r.NamesOnceIff failure q :=
  ⟨fun hq => h.1 (hpq.mpr hq), fun hq => h.2 (mt hpq.mp hq)⟩

/-- What a new report becomes by failures, checks and metrics, in any order. -/
inductive Made : Report → Prop
  | new (scenarioId : String) : Made (new scenarioId)
  | fail {r : Report} (h : Made r) (failure : String) : Made (r.fail failure)
  | check {r : Report} (h : Made r) (ok : Bool) (failure : String) : Made (r.check ok failure)
  | setMetric {r : Report} (h : Made r) (key : String) (value : Json) : Made (r.setMetric key value)

theorem fail_status_iff (failure : String) :
    (r.fail failure).status = .fail ↔ (r.fail failure).failures ≠ [] := by
  simp [fail]

theorem Made.status_eq_fail_iff (h : Made r) : r.status = .fail ↔ r.failures ≠ [] := by
  induction h with
  | new scenarioId => simp [Report.new]
  | fail _ failure _ => exact fail_status_iff failure
  | check _ ok failure ih =>
    unfold Report.check
    split
    · exact ih
    · exact fail_status_iff failure
  | setMetric _ key value ih => exact ih

/-- The report is one of the scenario, and it fails exactly if it has failures. -/
structure IsOf (r : Report) (scenarioId : String) : Prop where
  scenarioId_eq : r.scenarioId = scenarioId
  status_eq_fail_iff : r.status = .fail ↔ r.failures ≠ []

namespace IsOf

variable {scenarioId : String}

theorem new (scenarioId : String) : (Report.new scenarioId).IsOf scenarioId :=
  ⟨rfl, (Made.new scenarioId).status_eq_fail_iff⟩

theorem fail (h : r.IsOf scenarioId) (failure : String) : (r.fail failure).IsOf scenarioId :=
  ⟨h.scenarioId_eq, r.fail_status_iff failure⟩

theorem check (h : r.IsOf scenarioId) (ok : Bool) (failure : String) :
    (r.check ok failure).IsOf scenarioId := by
  unfold Report.check
  split
  · exact h
  · exact h.fail failure

theorem foldl {α : Type} {step : Report → α → Report} (h : r.IsOf scenarioId)
    (hstep : ∀ (r : Report) a, r.IsOf scenarioId → (step r a).IsOf scenarioId) (l : List α) :
    (l.foldl step r).IsOf scenarioId :=
  List.foldlRecOn (motive := fun t : Report => t.IsOf scenarioId) l step h
    fun t ht a _ => hstep t a ht

theorem failAll (h : r.IsOf scenarioId) (failures : List String) :
    (r.failAll failures).IsOf scenarioId :=
  h.foldl (fun _ failure ht => ht.fail failure) failures

/-- What says nothing about the verdict changes nothing about it. -/
theorem of_verdict_eq {t : Report} (h : r.IsOf scenarioId) (hid : t.scenarioId = r.scenarioId)
    (hstatus : t.status = r.status) (hfailures : t.failures = r.failures) : t.IsOf scenarioId := by
  constructor
  · rw [hid, h.scenarioId_eq]
  · rw [hstatus, hfailures, h.status_eq_fail_iff]

theorem setMetric (h : r.IsOf scenarioId) (key : String) (value : Json) :
    (r.setMetric key value).IsOf scenarioId :=
  h.of_verdict_eq rfl rfl rfl

theorem setMetrics (h : r.IsOf scenarioId) (metrics : List (String × Json)) :
    (r.setMetrics metrics).IsOf scenarioId :=
  h.foldl (fun _ metric ht => ht.setMetric metric.1 metric.2) metrics

theorem withErrors (h : r.IsOf scenarioId) (errors : List String) :
    (r.withErrors errors).IsOf scenarioId :=
  h.of_verdict_eq rfl rfl rfl

theorem withNotes (h : r.IsOf scenarioId) (notes : List String) :
    (r.withNotes notes).IsOf scenarioId :=
  h.of_verdict_eq rfl rfl rfl

theorem note (h : r.IsOf scenarioId) (text : String) : (r.note text).IsOf scenarioId :=
  h.of_verdict_eq rfl rfl rfl

end IsOf
end Conformance.Report
