import Conformance.Proofs.Message.Validation
import Conformance.Proofs.Runner

/-!
# Reports on messages

A report fails for a verdict that is not the expected one, and for each expected
field without a violation. Violations are of declared fields, so that a field which
no kind declares is always missed.
-/
namespace Conformance.Message
open Conformance

theorem Collects.exists_field {entries : Json.Object} {fields : List Field}
    {errors : List Violation} (h : Collects entries fields errors) :
    ∀ violation ∈ errors, ∃ field ∈ fields, violation.field? = some field.name := by
  induction h with
  | nil => simp
  | satisfied _ _ ih =>
    intro violation hviolation
    obtain ⟨field, hfield, hname⟩ := ih violation hviolation
    exact ⟨field, List.mem_cons_of_mem _ hfield, hname⟩
  | violated h _ ih =>
    intro violation hviolation
    rcases List.mem_cons.mp hviolation with rfl | hrest
    · exact ⟨_, List.mem_cons_self, h.field?⟩
    · obtain ⟨field, hfield, hname⟩ := ih violation hrest
      exact ⟨field, List.mem_cons_of_mem _ hfield, hname⟩

theorem Verdict.exists_field {m : Json} {v : Validation} (h : Verdict m v) {violation : Violation}
    (hviolation : violation ∈ v.errors) {name : String} (hname : violation.field? = some name) :
    ∃ kind : Kind, ∃ field ∈ kind.fields, field.name = name := by
  cases h with
  | notAnObject | missingType | typeNotText | unknownType =>
    obtain rfl := List.mem_singleton.mp hviolation
    cases hname
  | @checked _ kind _ _ _ herrors =>
    obtain ⟨field, hfield, hfield?⟩ := herrors.exists_field violation hviolation
    exact ⟨kind, field, hfield, Option.some.inj (hfield?.symm.trans hname)⟩

/-- What is wrong with a field is wrong with one that some kind declares. -/
theorem Vector.exists_field {v : Vector} {violation : Violation}
    (hviolation : violation ∈ v.validate.errors) {name : String}
    (hname : violation.field? = some name) :
    ∃ kind : Kind, ∃ field ∈ kind.fields, field.name = name := by
  have hverdict := verdict_validate v.message
  by_cases h : ∀ kind, (Message.validate v.message).kind = some kind → kind.tag = v.tag
  · rw [Vector.validate, validateTagged_of_eq h] at hviolation
    exact hverdict.exists_field hviolation hname
  · obtain ⟨kind, hkind, htag⟩ : ∃ kind, (Message.validate v.message).kind = some kind ∧
        kind.tag ≠ v.tag := by
      simpa using h
    rw [Vector.validate, validateTagged_of_ne hkind htag] at hviolation
    rcases List.mem_append.mp hviolation with h | h
    · exact hverdict.exists_field h hname
    · obtain rfl := List.mem_singleton.mp h
      cases hname

/-- A report fails for the verdict, and for each expected field that has no violation. -/
theorem Vector.mem_failures_iff (name : String) (v : Vector) (f : String) :
    f ∈ (v.report name).failures ↔
      (v.validate.valid == v.expectValid) = false ∧
        f = s!"expected {verdictName v.expectValid}, got {verdictName v.validate.valid}" ∨
      ∃ field ∈ v.expectedErrorFields,
        (v.validate.errors.any fun e => e.field? == some field) = false ∧
          f = "missing expected violation on field " ++ field := by
  unfold Vector.report
  rw [Report.mem_failures_foldl_check, Report.mem_failures_check]
  cases v.validate.kind <;>
    simp [Report.new, Report.withErrors, Report.withNotes, Report.setMetric]

/-- Every message has its report, since messages are read in the order of their names. -/
theorem VectorSet.InOrder.run_eq {vectors : VectorSet} (h : vectors.InOrder) :
    vectors.run = .ok ((Summary.own "schema").extended
      (vectors.map fun case => case.2.report case.1)) := by
  refine (Summary.recordAll_new_eq_ok_iff _ _ _ _).mpr ⟨?_, rfl⟩
  have hnames : (vectors.map fun case => case.2.report case.1).map Report.scenarioId =
      vectors.map Prod.fst := by
    rw [List.map_map]
    exact List.map_congr_left fun case _ => (isOf_report case.1 case.2).scenarioId_eq
  rw [hnames]
  exact List.pairwise_map.mpr (List.Pairwise.imp (fun hlt => hlt.ne) h)

end Conformance.Message
