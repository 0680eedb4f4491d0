import Conformance.Message.Validation
import Mathlib.Tactic

/-!
# Contracts of message fields

What a field may hold is stated by itself, and so is what may be held against its
value or its absence. The check of a field reports a violation exactly when there
is one, and it reports the one there is.
-/
namespace Conformance.Message
open Conformance

namespace FieldKind

/-- The values that have the type of the kind. -/
inductive HasType : FieldKind → Json → Prop
  | text (allowed : List String) (s : String) : HasType (.text allowed) (.text s)
  | integer (min max : ℕ) (n : ℤ) : HasType (.integer min max) (.number (.whole n))
  | binary (min max : ℕ) (s : String) : HasType (.binary min max) (.text s)

/-- The values that a field of the kind may hold. -/
inductive Meets : FieldKind → Json → Prop
  | name {s : String} (nonempty : 1 ≤ s.utf8ByteSize) (short : s.utf8ByteSize ≤ 256) :
      Meets (.text []) (.text s)
  | choice {allowed : List String} {s : String} (h : s ∈ allowed) : Meets (.text allowed) (.text s)
  | integer {min max n : ℕ} (fits : n ≤ 2 ^ 64 - 1) (least : min ≤ n) (greatest : n ≤ max) :
      Meets (.integer min max) (.number (.whole n))
  | binary {min max : ℕ} {s : String} {bytes : Bytes} (h : Text.Base64.decode s = .ok bytes)
      (least : min ≤ bytes.length) (greatest : bytes.length ≤ max) :
      Meets (.binary min max) (.text s)

/-- No number that the kind allows is too large for 64 bits. -/
def Fits : FieldKind → Prop
  | .integer _ max => max ≤ Word.greatest
  | _ => True

instance : DecidablePred Fits
  | .text _ => inferInstanceAs (Decidable True)
  | .integer _ max => inferInstanceAs (Decidable (max ≤ Word.greatest))
  | .binary _ _ => inferInstanceAs (Decidable True)

theorem meets_text_iff (allowed : List String) (s : String) :
    Meets (.text allowed) (.text s) ↔ acceptsText allowed s = true := by
  cases allowed with
  | nil =>
    simp only [acceptsText, List.isEmpty_nil, if_true, Bool.and_eq_true, decide_eq_true_eq]
    constructor
    · intro h
      cases h with
      | name nonempty short => exact ⟨nonempty, short⟩
      | choice h => cases h
    · rintro ⟨nonempty, short⟩
      exact .name nonempty short
  | cons first rest =>
    simp only [acceptsText, List.isEmpty_cons, Bool.false_eq_true, if_false, List.contains_iff_mem]
    constructor
    · intro h
      cases h with
      | choice h => exact h
    · exact .choice

theorem meets_integer_iff {min max : ℕ} (h : max ≤ Word.greatest) (n : ℤ) :
    Meets (.integer min max) (.number (.whole n)) ↔ min ≤ n ∧ n ≤ max := by
  constructor
  · intro hmeets
    cases hmeets with
    | integer fits least greatest => omega
  · rintro ⟨least, greatest⟩
    obtain ⟨k, rfl⟩ := Int.eq_ofNat_of_zero_le ((Int.natCast_nonneg min).trans least)
    rw [Word.greatest] at h
    exact .integer (by omega) (by omega) (by omega)

theorem meets_binary_iff {min max : ℕ} {s : String} {bytes : Bytes}
    (h : Text.Base64.decode s = .ok bytes) :
    Meets (.binary min max) (.text s) ↔ min ≤ bytes.length ∧ bytes.length ≤ max := by
  constructor
  · intro hmeets
    cases hmeets with
    | binary h' least greatest =>
      cases h.symm.trans h'
      exact ⟨least, greatest⟩
  · rintro ⟨least, greatest⟩
    exact .binary h least greatest

theorem Meets.hasType {kind : FieldKind} {value : Json} (h : kind.Meets value) :
    kind.HasType value := by
  cases h with
  | name => exact .text _ _
  | choice => exact .text _ _
  | integer => exact .integer _ _ _
  | binary => exact .binary _ _ _

end FieldKind

namespace Field

/-- What may be held against the value of a field, or against its absence. -/
inductive Violates (field : Field) : Option Json → Violation → Prop
  | missing : Violates field none (.missingField field.name)
  | null : Violates field (some .null) (.nullValue field.name field.kind.expected)
  | wrongType {value : Json} (present : value ≠ .null) (h : ¬ field.kind.HasType value) :
      Violates field (some value) (.wrongType field.name field.kind.expected)
  | invalidValue {allowed : List String} {s : String} (hkind : field.kind = .text allowed)
      (h : ¬ field.kind.Meets (.text s)) :
      Violates field (some (.text s)) (.invalidValue field.name s)
  | valueOutOfRange {min max : ℕ} {n : ℤ} (hkind : field.kind = .integer min max)
      (h : ¬ field.kind.Meets (.number (.whole n))) :
      Violates field (some (.number (.whole n))) (.valueOutOfRange field.name n min max)
  | invalidBase64 {min max : ℕ} {s : String} {refusal : Text.Base64.Refusal}
      (hkind : field.kind = .binary min max) (h : Text.Base64.decode s = .error refusal) :
      Violates field (some (.text s)) (.invalidBase64 field.name refusal.fault.detail)
  | lengthOutOfRange {min max : ℕ} {s : String} {bytes : Bytes}
      (hkind : field.kind = .binary min max) (hbytes : Text.Base64.decode s = .ok bytes)
      (h : ¬ field.kind.Meets (.text s)) :
      Violates field (some (.text s)) (.lengthOutOfRange field.name bytes.length min max)

/-- The field is present and holds what it may hold. -/
def Satisfied (field : Field) (value? : Option Json) : Prop :=
  ∃ value, value? = some value ∧ field.kind.Meets value

theorem Violates.field? {field : Field} {value? : Option Json} {violation : Violation}
    (h : field.Violates value? violation) : violation.field? = some field.name := by
  cases h <;> rfl

theorem violation?_eq_of_ne_null (field : Field) {value : Json} (h : value ≠ .null) :
    field.violation? (some value) = field.kind.violation? field.name value := by
  cases value with
  | null => exact absurd rfl h
  | boolean | number | text | array | object => rfl

theorem violation?_of_not_hasType {kind : FieldKind} {value : Json} (h : ¬ kind.HasType value)
    (name : String) : kind.violation? name value = some (.wrongType name kind.expected) := by
  unfold FieldKind.violation?
  split
  · exact absurd (.text _ _) h
  · exact absurd (.integer _ _ _) h
  · exact absurd (.binary _ _ _) h
  · rfl

theorem satisfied_or_violates (field : Field) (value? : Option Json) :
    field.Satisfied value? ∨ ∃ violation, field.Violates value? violation := by
  obtain ⟨name, kind⟩ := field
  cases value? with
  | none => exact .inr ⟨_, .missing⟩
  | some value =>
    by_cases hnull : value = .null
    · subst hnull
      exact .inr ⟨_, .null⟩
    by_cases hmeets : kind.Meets value
    · exact .inl ⟨value, rfl, hmeets⟩
    by_cases htype : kind.HasType value
    · right
      cases htype with
      | text allowed s => exact ⟨_, .invalidValue rfl hmeets⟩
      | integer min max n => exact ⟨_, .valueOutOfRange rfl hmeets⟩
      | binary min max s =>
        cases hdecode : Text.Base64.decode s with
        | ok bytes => exact ⟨_, .lengthOutOfRange rfl hdecode hmeets⟩
        | error refusal => exact ⟨_, .invalidBase64 rfl hdecode⟩
    · exact .inr ⟨_, .wrongType hnull htype⟩

section Check
variable {field : Field} {value? : Option Json} (hfits : field.kind.Fits)
include hfits

theorem violation?_of_violates {violation : Violation} (h : field.Violates value? violation) :
    field.violation? value? = some violation := by
  obtain ⟨name, kind⟩ := field
  cases h with
  | missing => rfl
  | null => rfl
  | wrongType present h => rw [violation?_eq_of_ne_null _ present, violation?_of_not_hasType h]
  | invalidValue hkind h =>
    obtain rfl : kind = _ := hkind
    rw [FieldKind.meets_text_iff] at h
    simp [Field.violation?, FieldKind.violation?, h]
  | valueOutOfRange hkind h =>
    obtain rfl : kind = _ := hkind
    rw [FieldKind.meets_integer_iff hfits] at h
    simp [Field.violation?, FieldKind.violation?, h]
  | invalidBase64 hkind h =>
    obtain rfl : kind = _ := hkind
    simp [Field.violation?, FieldKind.violation?, h]
  | lengthOutOfRange hkind hbytes h =>
    obtain rfl : kind = _ := hkind
    rw [FieldKind.meets_binary_iff hbytes] at h
    simp [Field.violation?, FieldKind.violation?, hbytes, h]

theorem violation?_of_satisfied (h : field.Satisfied value?) : field.violation? value? = none := by
  obtain ⟨name, kind⟩ := field
  obtain ⟨value, rfl, hmeets : kind.Meets value⟩ := h
  cases hmeets.hasType with
  | text allowed s =>
    rw [FieldKind.meets_text_iff] at hmeets
    simp [Field.violation?, FieldKind.violation?, hmeets]
  | integer min max n =>
    rw [FieldKind.meets_integer_iff hfits] at hmeets
    simp [Field.violation?, FieldKind.violation?, hmeets]
  | binary min max s =>
    cases hdecode : Text.Base64.decode s with
    | ok bytes =>
      rw [FieldKind.meets_binary_iff hdecode] at hmeets
      simp [Field.violation?, FieldKind.violation?, hdecode, hmeets]
    | error refusal =>
      cases hmeets with
      | binary h' => cases hdecode.symm.trans h'

/-- What the check reports is what is to be held against the value. -/
theorem violates_iff (violation : Violation) :
    field.Violates value? violation ↔ field.violation? value? = some violation := by
  refine ⟨violation?_of_violates hfits, fun h => ?_⟩
  rcases field.satisfied_or_violates value? with hsat | ⟨other, hother⟩
  · cases (violation?_of_satisfied hfits hsat).symm.trans h
  · cases (violation?_of_violates hfits hother).symm.trans h
    exact hother

theorem satisfied_iff : field.Satisfied value? ↔ field.violation? value? = none := by
  refine ⟨violation?_of_satisfied hfits, fun h => ?_⟩
  refine (field.satisfied_or_violates value?).resolve_right ?_
  rintro ⟨violation, hviolates⟩
  cases (violation?_of_violates hfits hviolates).symm.trans h

end Check
end Field
end Conformance.Message
