import Conformance.Proofs.Json.Order
import Conformance.Proofs.Message.Fields
import Mathlib

/-!
# The verdict on a message

The verdict is stated by itself, as what there is to be found about a message.
Validation finds exactly that: every declared field that breaks its contract is
reported once, in declared order, and for nothing but its own value.
-/
namespace Conformance.Message
open Conformance

namespace Kind

theorem fits_of_mem_fields {kind : Kind} {field : Field} (h : field ∈ kind.fields) :
    field.kind.Fits := by
  have hall : ∀ f ∈ kind.fields, f.kind.Fits := by
    cases kind <;> decide
  exact hall field h

theorem nodup_field_names (kind : Kind) : (kind.fields.map Field.name).Nodup := by
  cases kind <;> decide

theorem field_name_ne_type {kind : Kind} {field : Field} (h : field ∈ kind.fields) :
    field.name ≠ "type" := by
  have hall : ∀ f ∈ kind.fields, f.name ≠ "type" := by
    cases kind <;> decide
  exact hall field h

theorem mem_all (kind : Kind) : kind ∈ all := by
  cases kind <;> decide

theorem name_injective : Function.Injective name := by
  intro a b h
  cases a <;> cases b <;> first | rfl | exact absurd h (by decide)

theorem ofName?_eq_some_iff (s : String) (kind : Kind) : ofName? s = some kind ↔ kind.name = s := by
  constructor
  · intro h
    simpa using List.find?_some h
  · rintro rfl
    cases hfound : ofName? kind.name with
    | none => 
      have := List.find?_eq_none.mp hfound kind kind.mem_all
      simp at this
    | some other =>
      have hname : other.name = kind.name := by simpa using List.find?_some hfound
      rw [name_injective hname]

theorem ofName?_eq_none_iff (s : String) : ofName? s = none ↔ ∀ kind : Kind, kind.name ≠ s := by
  rw [Option.eq_none_iff_forall_ne_some]
  exact forall_congr' fun kind => not_congr (ofName?_eq_some_iff s kind)

/-- The key is neither `type` nor the name of a declared field. -/
def Undeclared (kind : Kind) (key : String) : Prop :=
  key ≠ "type" ∧ ∀ field ∈ kind.fields, field.name ≠ key

instance (kind : Kind) : DecidablePred kind.Undeclared := fun _ =>
  inferInstanceAs (Decidable (_ ∧ _))

def undeclaredKeys (kind : Kind) (entries : Json.Object) : List String :=
  (entries.map Prod.fst).filter kind.Undeclared

theorem not_declares (kind : Kind) (key : String) :
    (!kind.declares key) = decide (kind.Undeclared key) := by
  rw [Bool.eq_iff_iff, decide_eq_true_iff]
  simp [declares, Undeclared]

theorem nodup_undeclaredKeys (kind : Kind) {entries : Json.Object} (h : entries.Increasing) :
    (kind.undeclaredKeys entries).Nodup :=
  h.nodup_keys.filter _

/-- A declared field has other fields before it and after it, none of its name. -/
theorem exists_fields_eq {kind : Kind} {field : Field} (h : field ∈ kind.fields) :
    ∃ earlier later, kind.fields = earlier ++ field :: later ∧
      ∀ f ∈ earlier ++ later, f ∈ kind.fields ∧ f.name ≠ field.name := by
  obtain ⟨earlier, later, hfields⟩ := List.append_of_mem h
  have hnames := kind.nodup_field_names
  rw [hfields, List.map_append, List.map_cons, List.nodup_middle, List.nodup_cons,
    ← List.map_append] at hnames
  refine ⟨earlier, later, hfields, fun f hf => ⟨?_, fun heq => ?_⟩⟩
  · rw [hfields]
    exact (List.perm_middle.mem_iff).mpr (List.mem_cons_of_mem field hf)
  · exact hnames.1 (List.mem_map.mpr ⟨f, hf, heq⟩)

end Kind

/-- Goes through the fields in order: each violated one has one violation, the others have none. -/
inductive Collects (entries : Json.Object) : List Field → List Violation → Prop
  | nil : Collects entries [] []
  | satisfied {field : Field} {fields : List Field} {errors : List Violation}
      (h : field.Satisfied (entries.get? field.name)) (rest : Collects entries fields errors) :
      Collects entries (field :: fields) errors
  | violated {field : Field} {fields : List Field} {violation : Violation}
      {errors : List Violation} (h : field.Violates (entries.get? field.name) violation)
      (rest : Collects entries fields errors) :
      Collects entries (field :: fields) (violation :: errors)

/-- What is to be found about a message: one violation of its shape, or else the violations of the
fields that its kind declares and a warning for each key that it does not declare. The message is
valid where there is no violation. -/
inductive Verdict : Json → Validation → Prop
  | notAnObject {m : Json} (h : ∀ entries, m ≠ .object entries) :
      Verdict m ⟨false, none, [.notAnObject], []⟩
  | missingType {entries : Json.Object} (h : entries.get? "type" = none) :
      Verdict (.object entries) ⟨false, none, [.missingType], []⟩
  | typeNotText {entries : Json.Object} {value : Json} (h : entries.get? "type" = some value)
      (htext : ∀ s, value ≠ .text s) : Verdict (.object entries) ⟨false, none, [.typeNotText], []⟩
  | unknownType {entries : Json.Object} {name : String}
      (h : entries.get? "type" = some (.text name)) (hname : ∀ kind : Kind, kind.name ≠ name) :
      Verdict (.object entries) ⟨false, none, [.unknownType name], []⟩
  | checked {entries : Json.Object} {kind : Kind} {errors : List Violation} {valid : Bool}
      (h : entries.get? "type" = some (.text kind.name))
      (herrors : Collects entries kind.fields errors) (hvalid : valid = true ↔ errors = []) :
      Verdict (.object entries)
        ⟨valid, some kind, errors, (kind.undeclaredKeys entries).map ("Unknown field: " ++ ·)⟩

/-- What the check of a field of the object reports. -/
def reported? (entries : Json.Object) (field : Field) : Option Violation :=
  field.violation? (entries.get? field.name)

theorem collects_iff (entries : Json.Object) {fields : List Field} (errors : List Violation)
    (hfits : ∀ field ∈ fields, field.kind.Fits) :
    Collects entries fields errors ↔ fields.filterMap (reported? entries) = errors := by
  induction fields generalizing errors with
  | nil =>
    constructor
    · intro h
      cases h
      rfl
    · rintro rfl
      exact .nil
  | cons field fields ih =>
    have hfield := hfits field List.mem_cons_self
    have hrest := fun errors => ih errors fun f hf => hfits f (List.mem_cons_of_mem field hf)
    constructor
    · intro h
      cases h with
      | satisfied h rest =>
        have hnone : reported? entries field = none := (Field.satisfied_iff hfield).mp h
        rw [List.filterMap_cons_none hnone, (hrest _).mp rest]
      | violated h rest =>
        have hsome : reported? entries field = some _ := (Field.violates_iff hfield _).mp h
        rw [List.filterMap_cons_some hsome, (hrest _).mp rest]
    · rintro rfl
      cases hcheck : reported? entries field with
      | none =>
        rw [List.filterMap_cons_none hcheck]
        exact .satisfied ((Field.satisfied_iff hfield).mpr hcheck) ((hrest _).mpr rfl)
      | some violation =>
        rw [List.filterMap_cons_some hcheck]
        exact .violated ((Field.violates_iff hfield violation).mpr hcheck) ((hrest _).mpr rfl)

theorem validateFields_eq (kind : Kind) (entries : Json.Object) :
    validateFields kind entries = ⟨(kind.fields.filterMap (reported? entries)).isEmpty, some kind,
      kind.fields.filterMap (reported? entries),
      (kind.undeclaredKeys entries).map ("Unknown field: " ++ ·)⟩ := by
  rw [Kind.undeclaredKeys, List.filter_map, List.map_map, validateFields]
  simp only [kind.not_declares]
  rfl

theorem validate_eq_validateFields {kind : Kind} {entries : Json.Object}
    (h : entries.get? "type" = some (.text kind.name)) :
    validate (.object entries) = validateFields kind entries := by
  simp only [validate, h, (Kind.ofName?_eq_some_iff _ _).mpr rfl]

theorem validate_of_verdict {m : Json} {v : Validation} (h : Verdict m v) : validate m = v := by
  cases h with
  | notAnObject h =>
    cases m with
    | object entries => exact absurd rfl (h entries)
    | null | boolean | number | text | array => rfl
  | missingType h => simp only [validate, h, Validation.refused]
  | @typeNotText entries value h htext =>
    cases value with
    | text s => exact absurd rfl (htext s)
    | null | boolean | number | array | object => simp only [validate, h, Validation.refused]
  | unknownType h hname =>
    simp only [validate, h, (Kind.ofName?_eq_none_iff _).mpr hname, Validation.refused]
  | @checked entries kind errors valid h herrors hvalid =>
    rw [validate_eq_validateFields h, validateFields_eq,
      (collects_iff _ _ fun _ => Kind.fits_of_mem_fields).mp herrors,
      Bool.eq_iff_iff.mpr (List.isEmpty_iff.trans hvalid.symm)]

theorem verdict_validate (m : Json) : Verdict m (validate m) := by
  cases m with
  | null | boolean | number | text | array => exact .notAnObject (by simp)
  | object entries =>
    cases htype : Json.Object.get? "type" entries with
    | none =>
      simp only [validate, htype]
      exact .missingType htype
    | some value =>
      cases value with
      | text name =>
        cases hkind : Kind.ofName? name with
        | none =>
          simp only [validate, htype, hkind]
          exact .unknownType htype ((Kind.ofName?_eq_none_iff name).mp hkind)
        | some kind =>
          obtain rfl := (Kind.ofName?_eq_some_iff name kind).mp hkind
          rw [validate_eq_validateFields htype, validateFields_eq]
          exact .checked htype ((collects_iff _ _ fun _ => Kind.fits_of_mem_fields).mpr rfl)
            List.isEmpty_iff
      | null | boolean | number | array | object =>
        simp only [validate, htype]
        exact .typeNotText htype (by simp)

theorem Verdict.valid_iff {m : Json} {v : Validation} (h : Verdict m v) :
    v.valid = true ↔ v.errors = [] := by
  cases h with
  | notAnObject | missingType | typeNotText | unknownType => simp
  | checked _ _ hvalid => exact hvalid

theorem valid_iff_of_finish {v : Validation} : v.finish.valid = true ↔ v.finish.errors = [] :=
  List.isEmpty_iff

/-- What validation returns is finished, the refusals of a shape included. -/
theorem finish_validate (m : Json) : (validate m).finish = validate m := by
  have hvalid : (validate m).errors.isEmpty = (validate m).valid :=
    Bool.eq_iff_iff.mpr (List.isEmpty_iff.trans (verdict_validate m).valid_iff.symm)
  rw [Validation.finish, hvalid]

/-- The objects hold the same under `type` and under every field that their kind declares. -/
def SameDeclared (as bs : Json.Object) : Prop :=
  as.get? "type" = bs.get? "type" ∧
    ∀ kind : Kind, as.get? "type" = some (.text kind.name) →
      ∀ field ∈ kind.fields, as.get? field.name = bs.get? field.name

/-- The objects hold the same under every key but one. -/
def SameExcept (key : String) (as bs : Json.Object) : Prop :=
  ∀ other, other ≠ key → as.get? other = bs.get? other

theorem sameExcept_insert (key : String) (value : Json) (entries : Json.Object) :
    SameExcept key entries (entries.insert key value) := by
  intro other hother
  rw [Json.Object.get?_insert, if_neg hother]

/-- A change under an undeclared key leaves everything declared as it is. -/
theorem SameExcept.sameDeclared {as bs : Json.Object} {key : String} (h : SameExcept key as bs)
    (htype : key ≠ "type")
    (hundeclared : ∀ kind : Kind, as.get? "type" = some (.text kind.name) → kind.Undeclared key) :
    SameDeclared as bs :=
  ⟨h _ htype.symm, fun kind hkind field hfield => h _ ((hundeclared kind hkind).2 field hfield)⟩

theorem Collects.congr {as bs : Json.Object} {fields : List Field} {errors : List Violation}
    (h : Collects as fields errors)
    (hsame : ∀ field ∈ fields, as.get? field.name = bs.get? field.name) :
    Collects bs fields errors := by
  induction h with
  | nil => exact .nil
  | satisfied h rest ih =>
    rw [hsame _ List.mem_cons_self] at h
    exact .satisfied h (ih fun f hf => hsame f (List.mem_cons_of_mem _ hf))
  | violated h rest ih =>
    rw [hsame _ List.mem_cons_self] at h
    exact .violated h (ih fun f hf => hsame f (List.mem_cons_of_mem _ hf))

theorem SameDeclared.validate_eq {as bs : Json.Object} (hsame : SameDeclared as bs) :
    ∃ warnings, validate (.object bs) = { validate (.object as) with warnings := warnings } := by
  obtain ⟨htype, hfields⟩ := hsame
  have hverdict := verdict_validate (.object as)
  generalize validate (.object as) = v at hverdict
  cases hverdict with
  | notAnObject h => exact absurd rfl (h as)
  | missingType h => exact ⟨[], validate_of_verdict (.missingType (htype ▸ h))⟩
  | typeNotText h htext => exact ⟨[], validate_of_verdict (.typeNotText (htype ▸ h) htext)⟩
  | unknownType h hname => exact ⟨[], validate_of_verdict (.unknownType (htype ▸ h) hname)⟩
  | checked h herrors hvalid =>
    exact ⟨_, validate_of_verdict (.checked (htype ▸ h) (herrors.congr (hfields _ h)) hvalid)⟩

theorem SameExcept.undeclaredKeys_eq {as bs : Json.Object} {kind : Kind} {field : Field}
    (has : as.Increasing) (hbs : bs.Increasing) (hfield : field ∈ kind.fields)
    (hsame : SameExcept field.name as bs) : kind.undeclaredKeys as = kind.undeclaredKeys bs := by
  rw [Kind.undeclaredKeys, Kind.undeclaredKeys, List.filter_map, List.filter_map]
  apply congrArg
  refine has.filter_eq hbs (fun key => decide (kind.Undeclared key)) fun key hkey => hsame key ?_
  exact ((of_decide_eq_true hkey).2 field hfield).symm

/-- A declared field has one place in the list of violations, which is empty or not. -/
theorem SameExcept.validate_eq {as bs : Json.Object} {kind : Kind} {field : Field}
    (has : as.Increasing) (hbs : bs.Increasing) (htype : as.get? "type" = some (.text kind.name))
    (hfield : field ∈ kind.fields) (hsame : SameExcept field.name as bs) :
    ∃ before after : List Violation, ∃ was now : Option Violation, ∃ warnings : List String,
      (∀ v ∈ before ++ after, v.field? ≠ some field.name) ∧
      (∀ v, v ∈ was ↔ field.Violates (as.get? field.name) v) ∧
      (∀ v, v ∈ now ↔ field.Violates (bs.get? field.name) v) ∧
      validate (.object as) = ⟨(before ++ was.toList ++ after).isEmpty, some kind,
        before ++ was.toList ++ after, warnings⟩ ∧
      validate (.object bs) = ⟨(before ++ now.toList ++ after).isEmpty, some kind,
        before ++ now.toList ++ after, warnings⟩ := by
  obtain ⟨earlier, later, hfields, hothers⟩ := Kind.exists_fields_eq hfield
  have hsplit (entries : Json.Object) : kind.fields.filterMap (reported? entries) =
      earlier.filterMap (reported? entries) ++ (reported? entries field).toList ++
        later.filterMap (reported? entries) := by
    rw [hfields, List.filterMap_append, List.append_assoc]
    cases h : reported? entries field with
    | none => rw [List.filterMap_cons_none h, Option.toList_none, List.nil_append]
    | some violation => rw [List.filterMap_cons_some h, Option.toList_some, List.singleton_append]
  have hrest : ∀ f ∈ earlier ++ later, reported? as f = reported? bs f := fun f hf => by
    rw [reported?, reported?, hsame _ (hothers f hf).2]
  obtain ⟨hearlier, hlater⟩ := List.forall_mem_append.mp hrest
  have htype' : bs.get? "type" = some (.text kind.name) := by
    rw [← hsame _ (Kind.field_name_ne_type hfield).symm, htype]
  refine ⟨earlier.filterMap (reported? as), later.filterMap (reported? as), reported? as field,
    reported? bs field, (kind.undeclaredKeys as).map ("Unknown field: " ++ ·), ?_, ?_, ?_, ?_, ?_⟩
  · intro v hv
    rw [← List.filterMap_append] at hv
    obtain ⟨f, hf, hreported⟩ := List.mem_filterMap.mp hv
    have hfits := Kind.fits_of_mem_fields (hothers f hf).1
    rw [((Field.violates_iff hfits v).mpr hreported).field?]
    exact fun heq => (hothers f hf).2 (Option.some.inj heq)
  · exact fun v => (Field.violates_iff (Kind.fits_of_mem_fields hfield) v).symm
  · exact fun v => (Field.violates_iff (Kind.fits_of_mem_fields hfield) v).symm
  · rw [validate_eq_validateFields htype, validateFields_eq, hsplit]
  · rw [validate_eq_validateFields htype', validateFields_eq, hsplit,
      ← List.filterMap_congr hearlier, ← List.filterMap_congr hlater,
      ← hsame.undeclaredKeys_eq has hbs hfield]

theorem validateTagged_of_ne {tag : ℕ} {m : Json} {kind : Kind}
    (h : (validate m).kind = some kind) (htag : kind.tag ≠ tag) :
    validateTagged tag m =
      { validate m with
        valid := false
        errors := (validate m).errors ++ [.tagMismatch kind tag] } := by
  simp only [validateTagged, Validation.checkTag, h, if_neg htag]
  simp [Validation.finish]

theorem validateTagged_of_eq {tag : ℕ} {m : Json}
    (h : ∀ kind, (validate m).kind = some kind → kind.tag = tag) :
    validateTagged tag m = validate m := by
  unfold validateTagged Validation.checkTag
  split
  · rename_i kind hkind
    rw [if_pos (h kind hkind), finish_validate]
  · exact finish_validate m

/-- The message is of the kind, and holds under each declared field what the field may hold. -/
def Conforms (kind : Kind) (m : Json) : Prop :=
  ∃ entries : Json.Object, m = .object entries ∧
    entries.get? "type" = some (.text kind.name) ∧
    ∀ field ∈ kind.fields, field.Satisfied (entries.get? field.name)

theorem conforms_iff (kind : Kind) (m : Json) :
    Conforms kind m ↔ (validate m).valid = true ∧ (validate m).kind = some kind := by
  rw [(verdict_validate m).valid_iff]
  constructor
  · rintro ⟨entries, rfl, htype, hfields⟩
    rw [validate_eq_validateFields htype, validateFields_eq]
    refine ⟨List.filterMap_eq_nil_iff.mpr fun field hfield => ?_, rfl⟩
    exact (Field.satisfied_iff (Kind.fits_of_mem_fields hfield)).mp (hfields field hfield)
  · rintro ⟨herrors, hkind⟩
    have hverdict := verdict_validate m
    generalize validate m = v at hverdict herrors hkind
    cases hverdict with
    | notAnObject | missingType | typeNotText | unknownType => cases hkind
    | @checked entries _ errors _ htype hcollects =>
      obtain rfl : _ = kind := Option.some.inj hkind
      refine ⟨entries, rfl, htype, fun field hfield => ?_⟩
      have hnone := (collects_iff entries errors fun _ => Kind.fits_of_mem_fields).mp hcollects
      obtain rfl : errors = [] := herrors
      exact (Field.satisfied_iff (Kind.fits_of_mem_fields hfield)).mpr
        (List.filterMap_eq_nil_iff.mp hnone field hfield)

/-- Validation finds what there is to be found, no more and no less. What a kind does not declare
has no part in the violations, and a declared field has none in those of the others. -/
theorem validate_exact (m : Json) :
    (∀ v, Verdict m v ↔ validate m = v) ∧
    ((validate m).valid = true ↔ (validate m).errors = []) ∧
    (m.Ordered → (validate m).warnings.Nodup) ∧
    (∀ as bs : Json.Object, m = .object as → SameDeclared as bs →
      ∃ warnings, validate (.object bs) = { validate m with warnings := warnings }) ∧
    (∀ (as bs : Json.Object) (kind : Kind), ∀ field ∈ kind.fields, m = .object as →
      as.Increasing → bs.Increasing → as.get? "type" = some (.text kind.name) →
      SameExcept field.name as bs →
      ∃ before after : List Violation, ∃ was now : Option Violation, ∃ warnings : List String,
        (∀ v ∈ before ++ after, v.field? ≠ some field.name) ∧
        (∀ v, v ∈ was ↔ field.Violates (as.get? field.name) v) ∧
        (∀ v, v ∈ now ↔ field.Violates (bs.get? field.name) v) ∧
        validate m = ⟨(before ++ was.toList ++ after).isEmpty, some kind,
          before ++ was.toList ++ after, warnings⟩ ∧
        validate (.object bs) = ⟨(before ++ now.toList ++ after).isEmpty, some kind,
          before ++ now.toList ++ after, warnings⟩) ∧
    (∀ tag, ((validateTagged tag m).valid = true ↔ (validateTagged tag m).errors = []) ∧
      (∀ kind, (validate m).kind = some kind → kind.tag ≠ tag → validateTagged tag m =
        { validate m with
          valid := false
          errors := (validate m).errors ++ [.tagMismatch kind tag] }) ∧
      ((∀ kind, (validate m).kind = some kind → kind.tag = tag) →
        validateTagged tag m = validate m)) := by
  refine ⟨fun v => ⟨validate_of_verdict, ?_⟩, (verdict_validate m).valid_iff, fun hm => ?_, ?_, ?_,
    fun tag => ⟨valid_iff_of_finish, fun kind h htag => validateTagged_of_ne h htag,
      validateTagged_of_eq⟩⟩
  · rintro rfl
    exact verdict_validate m
  · have hverdict := verdict_validate m
    generalize validate m = v at hverdict
    cases hverdict with
    | notAnObject | missingType | typeNotText | unknownType => exact List.nodup_nil
    | @checked entries kind =>
      refine (kind.nodup_undeclaredKeys hm.increasing).map fun a b hab => ?_
      exact (String.append_right_inj _).mp hab
  · rintro as bs rfl hsame
    exact hsame.validate_eq
  · rintro as bs kind field hfield rfl has hbs htype hsame
    exact hsame.validate_eq has hbs htype hfield

/-- A message to join a room with nothing right but its type. -/
def brokenJoin : Json.Object :=
  .ofEntries [("type", .text "JOIN"), ("version", .text "one"), ("room_id", .text ""),
    ("timestamp", .null), ("nonce", .text "q6ur")]

def brokenJoinErrors : List Violation :=
  [.wrongType "version" "integer", .invalidValue "room_id" "", .missingField "client_id",
    .nullValue "timestamp" "integer", .lengthOutOfRange "nonce" 3 16 16]

theorem validate_exact_brokenJoin :
    Verdict (.object brokenJoin) ⟨false, some .join, brokenJoinErrors, []⟩ ∧
    (validate (.object brokenJoin)).warnings.Nodup ∧
    (∃ warnings, validate (.object (brokenJoin.insert "debug" .null)) =
      ⟨false, some .join, brokenJoinErrors, warnings⟩) ∧
    (∃ before after : List Violation, ∃ was now : Option Violation, ∃ warnings : List String,
      (∀ v ∈ before ++ after, v.field? ≠ some "version") ∧
      (∀ v, v ∈ was ↔ Field.version.Violates (brokenJoin.get? "version") v) ∧
      (∀ v, v ∈ now ↔
        Field.version.Violates ((brokenJoin.insert "version" (.ofNat 1)).get? "version") v) ∧
      validate (.object brokenJoin) = ⟨(before ++ was.toList ++ after).isEmpty, some .join,
        before ++ was.toList ++ after, warnings⟩ ∧
      validate (.object (brokenJoin.insert "version" (.ofNat 1))) =
        ⟨(before ++ now.toList ++ after).isEmpty, some .join, before ++ now.toList ++ after,
          warnings⟩) ∧
    validateTagged 0xE1 (.object brokenJoin) =
      ⟨false, some .join, brokenJoinErrors ++ [.tagMismatch .join 0xE1], []⟩ ∧
    validateTagged 0xE0 (.object brokenJoin) = ⟨false, some .join, brokenJoinErrors, []⟩ := by
  have hvalidate : validate (.object brokenJoin) = ⟨false, some .join, brokenJoinErrors, []⟩ := by
    cbv
  have hordered : Json.Ordered (.object brokenJoin) := Json.ordered_ofEntries (by simp)
  have htype : brokenJoin.get? "type" = some (.text Kind.join.name) := by cbv
  obtain ⟨hverdict, -, hwarnings, hundeclared, hdeclared, htagged⟩ :=
    validate_exact (.object brokenJoin)
  refine ⟨(hverdict _).mpr hvalidate, hwarnings hordered, ?_, ?_, ?_, ?_⟩
  · rw [hvalidate] at hundeclared
    refine hundeclared _ _ rfl ((sameExcept_insert "debug" .null brokenJoin).sameDeclared ?_ ?_)
    · decide
    · intro kind hkind
      cases Kind.name_injective (Json.text.inj (Option.some.inj (htype.symm.trans hkind)))
      decide
  · exact hdeclared _ _ .join .version (by decide) rfl hordered.increasing
      (hordered.increasing.insert _ _) htype (sameExcept_insert _ _ _)
  · rw [(htagged 0xE1).2.1 .join (by rw [hvalidate]) (by decide), hvalidate]
  · rw [(htagged 0xE0).2.2 fun kind hkind => ?_, hvalidate]
    rw [hvalidate] at hkind
    cases hkind
    rfl

end Conformance.Message
