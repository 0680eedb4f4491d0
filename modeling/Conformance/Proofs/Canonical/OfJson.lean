import Conformance.Canonical.OfJson
import Conformance.Proofs.Canonical.Encoding
import Conformance.Proofs.Json.Order

/-!
# Canonical values of messages

A message has a canonical value exactly when its leaves are strings and numbers
that fit 64 bits without a sign; it is refused for one of its leaves otherwise.
The value has the depth of the message, and since the keys of an object have one
order, messages whose values agree are equal.
-/
namespace Conformance

namespace Json

/-- The leaf stands in the value; a leaf is neither an array nor an object. -/
inductive Leaf : Json → Json → Prop
  | null : Leaf .null .null
  | boolean (b : Bool) : Leaf (.boolean b) (.boolean b)
  | number (n : Number) : Leaf (.number n) (.number n)
  | text (s : String) : Leaf (.text s) (.text s)
  | item {leaf item : Json} {items : List Json} (h : item ∈ items) (below : Leaf leaf item) :
      Leaf leaf (.array items)
  | value {leaf : Json} {e : String × Json} {entries : Object} (h : e ∈ entries)
      (below : Leaf leaf e.2) : Leaf leaf (.object entries)

/-- A string, or a whole number from 0 up to `2 ^ 64 - 1`. -/
inductive Plain : Json → Prop
  | text (s : String) : Plain (.text s)
  | whole (n : ℕ) (h : n ≤ 2 ^ 64 - 1) : Plain (.number (.whole n))

mutual

/-- How many levels lie below the root; an item or a value is one level below its container. -/
def depth : Json → ℕ
  | .null => 0
  | .boolean _ => 0
  | .number _ => 0
  | .text _ => 0
  | .array items => depthItems items
  | .object entries => depthEntries entries

def depthItems : List Json → ℕ
  | [] => 0
  | item :: rest => max (depth item + 1) (depthItems rest)

def depthEntries : List (String × Json) → ℕ
  | [] => 0
  | (_, value) :: rest => max (depth value + 1) (depthEntries rest)

end
end Json

namespace Canonical

/-- The value is the canonical value of the message. -/
def Represents (j : Json) (v : Value) : Prop :=
  ofJson j = .ok v

/-- An entry of a map stands for an entry of an object, whose key it has as a text. -/
def RepresentsEntry (e : String × Json) (m : Value × Value) : Prop :=
  m.1 = .text e.1 ∧ Represents e.2 m.2

theorem ofItems_eq_ok_iff (items : List Json) (values : List Value) :
    ofItems items = .ok values ↔ List.Forall₂ Represents items values := by
  induction items generalizing values with
  | nil => simp [ofItems, eq_comm]
  | cons item items ih =>
    simp only [ofItems, bind_eq_ok_iff, ih, List.forall₂_cons_left_iff]
    constructor
    · rintro ⟨first, hfirst, others, hothers, hvalues⟩
      cases hvalues
      exact ⟨first, others, hfirst, hothers, rfl⟩
    · rintro ⟨first, others, hfirst, hothers, rfl⟩
      exact ⟨first, hfirst, others, hothers, rfl⟩

theorem ofEntries_eq_ok_iff (entries : Json.Object) (values : List (Value × Value)) :
    ofEntries entries = .ok values ↔ List.Forall₂ RepresentsEntry entries values := by
  induction entries generalizing values with
  | nil => simp [ofEntries, eq_comm]
  | cons e entries ih =>
    simp only [ofEntries, bind_eq_ok_iff, ih, List.forall₂_cons_left_iff]
    constructor
    · rintro ⟨value, hvalue, others, hothers, hvalues⟩
      cases hvalues
      exact ⟨(.text e.1, value), others, ⟨rfl, hvalue⟩, hothers, rfl⟩
    · rintro ⟨⟨key, value⟩, others, ⟨rfl, hvalue⟩, hothers, rfl⟩
      exact ⟨value, hvalue, others, hothers, rfl⟩

theorem represents_number_iff (n : Json.Number) (v : Value) :
    Represents (.number n) v ↔
      ∃ k : ℕ, k ≤ 2 ^ 64 - 1 ∧ n = .whole k ∧ v = .unsigned (UInt64.ofNat k) := by
  rw [Represents, ofJson]
  cases n with
  | real x => simp [ofNumber]
  | whole n =>
    have hfits : Word.fits n = true ↔ 0 ≤ n ∧ n ≤ 2 ^ 64 - 1 := by
      simp only [Word.fits, Bool.and_eq_true, decide_eq_true_eq, Word.greatest]
      norm_num
    rw [ofNumber]
    split_ifs with hneg hfit
    · constructor
      · intro h
        cases h
      · rintro ⟨k, -, hn, -⟩
        cases hn
        omega
    · obtain ⟨k, rfl⟩ := Int.eq_ofNat_of_zero_le (hfits.mp hfit).1
      constructor
      · intro h
        cases h
        exact ⟨k, by have := hfits.mp hfit; omega, rfl, rfl⟩
      · rintro ⟨l, -, hn, rfl⟩
        cases hn
        rfl
    · constructor
      · intro h
        cases h
      · rintro ⟨k, hk, hn, -⟩
        cases hn
        exact absurd (hfits.mpr (by omega)) hfit

theorem represents_text_iff (s : String) (v : Value) : Represents (.text s) v ↔ v = .text s := by
  rw [Represents, ofJson, Except.ok.injEq, eq_comm]

theorem represents_array_iff (items : List Json) (v : Value) :
    Represents (.array items) v ↔
      ∃ values, List.Forall₂ Represents items values ∧ v = .array values := by
  simp only [Represents, ofJson, bind_eq_ok_iff, ofItems_eq_ok_iff]
  exact exists_congr fun values => and_congr_right fun _ =>
    ⟨fun h => (Except.ok.inj h).symm, fun h => by rw [h]; rfl⟩

theorem represents_object_iff (entries : Json.Object) (v : Value) :
    Represents (.object entries) v ↔
      ∃ values, List.Forall₂ RepresentsEntry entries values ∧ v = .map values := by
  simp only [Represents, ofJson, bind_eq_ok_iff, ofEntries_eq_ok_iff]
  exact exists_congr fun values => and_congr_right fun _ =>
    ⟨fun h => (Except.ok.inj h).symm, fun h => by rw [h]; rfl⟩

theorem exists_represents_iff (j : Json) :
    (∃ v, Represents j v) ↔ ∀ leaf, Json.Leaf leaf j → leaf.Plain := by
  induction j using Json.induction with
  | null =>
    constructor
    · rintro ⟨v, hv⟩
      cases hv
    · intro h
      cases h .null .null
  | boolean b =>
    constructor
    · rintro ⟨v, hv⟩
      cases hv
    · intro h
      cases h (.boolean b) (.boolean b)
  | number n =>
    simp only [represents_number_iff]
    constructor
    · rintro ⟨v, k, hk, rfl, -⟩ leaf hleaf
      cases hleaf
      exact .whole k hk
    · intro h
      cases h (.number n) (.number n) with
      | whole k hk => exact ⟨_, k, hk, rfl, rfl⟩
  | text s =>
    constructor
    · rintro - leaf hleaf
      cases hleaf
      exact .text s
    · rintro -
      exact ⟨_, (represents_text_iff s _).mpr rfl⟩
  | array items ih =>
    have hitems : (∃ v, Represents (.array items) v) ↔ ∀ item ∈ items, ∃ v, Represents item v := by
      rw [← Pointwise.exists_forall₂_iff]
      simp only [represents_array_iff]
      constructor
      · rintro ⟨_, values, h, -⟩
        exact ⟨values, h⟩
      · rintro ⟨values, h⟩
        exact ⟨_, values, h, rfl⟩
    rw [hitems]
    constructor
    · intro h leaf hleaf
      cases hleaf with
      | item hmem below => exact (ih _ hmem).mp (h _ hmem) leaf below
    · intro h item hmem
      exact (ih item hmem).mpr fun leaf below => h leaf (.item hmem below)
  | object entries ih =>
    have hentries : (∃ v, Represents (.object entries) v) ↔
        ∀ e ∈ entries, ∃ m, RepresentsEntry e m := by
      rw [← Pointwise.exists_forall₂_iff]
      simp only [represents_object_iff]
      constructor
      · rintro ⟨_, values, h, -⟩
        exact ⟨values, h⟩
      · rintro ⟨values, h⟩
        exact ⟨_, values, h, rfl⟩
    rw [hentries]
    constructor
    · intro h leaf hleaf
      cases hleaf with
      | value hmem below =>
        obtain ⟨m, -, hm⟩ := h _ hmem
        exact (ih _ hmem).mp ⟨m.2, hm⟩ leaf below
    · intro h e hmem
      obtain ⟨v, hv⟩ := (ih e hmem).mpr fun leaf below => h leaf (.value hmem below)
      exact ⟨(.text e.1, v), rfl, hv⟩

theorem represents_of_plain {leaf : Json} (h : leaf.Plain) : ∃ v, Represents leaf v := by
  cases h with
  | text s => exact ⟨.text s, rfl⟩
  | whole n h => exact ⟨_, (represents_number_iff _ _).mpr ⟨n, h, rfl, rfl⟩⟩

theorem ofItems_eq_error {items : List Json} {refusal : EncodeRefusal}
    (h : ofItems items = .error refusal) : ∃ item ∈ items, ofJson item = .error refusal := by
  induction items with
  | nil => cases h
  | cons item items ih =>
    simp only [ofItems, bind_eq_error_iff] at h
    rcases h with hfirst | ⟨_, -, hothers | ⟨_, -, hnone⟩⟩
    · exact ⟨item, List.mem_cons_self, hfirst⟩
    · obtain ⟨other, hmem, hother⟩ := ih hothers
      exact ⟨other, List.mem_cons_of_mem item hmem, hother⟩
    · cases hnone

theorem ofEntries_eq_error {entries : Json.Object} {refusal : EncodeRefusal}
    (h : ofEntries entries = .error refusal) : ∃ e ∈ entries, ofJson e.2 = .error refusal := by
  induction entries with
  | nil => cases h
  | cons e entries ih =>
    simp only [ofEntries, bind_eq_error_iff] at h
    rcases h with hfirst | ⟨_, -, hothers | ⟨_, -, hnone⟩⟩
    · exact ⟨e, List.mem_cons_self, hfirst⟩
    · obtain ⟨other, hmem, hother⟩ := ih hothers
      exact ⟨other, List.mem_cons_of_mem e hmem, hother⟩
    · cases hnone

/-- A refused message is refused for one of its leaves. -/
theorem exists_refused_leaf {j : Json} {refusal : EncodeRefusal}
    (h : ofJson j = .error refusal) :
    ∃ leaf, Json.Leaf leaf j ∧ ofJson leaf = .error refusal := by
  induction j using Json.induction with
  | null => exact ⟨_, .null, h⟩
  | boolean b => exact ⟨_, .boolean b, h⟩
  | number n => exact ⟨_, .number n, h⟩
  | text s => exact ⟨_, .text s, h⟩
  | array items ih =>
    simp only [ofJson, bind_eq_error_iff] at h
    rcases h with hitems | ⟨_, -, hnone⟩
    · obtain ⟨item, hmem, hitem⟩ := ofItems_eq_error hitems
      obtain ⟨leaf, hleaf, hrefused⟩ := ih item hmem hitem
      exact ⟨leaf, .item hmem hleaf, hrefused⟩
    · cases hnone
  | object entries ih =>
    simp only [ofJson, bind_eq_error_iff] at h
    rcases h with hentries | ⟨_, -, hnone⟩
    · obtain ⟨e, hmem, he⟩ := ofEntries_eq_error hentries
      obtain ⟨leaf, hleaf, hrefused⟩ := ih e hmem he
      exact ⟨leaf, .value hmem hleaf, hrefused⟩
    · cases hnone
theorem depth_of_represents {j : Json} {v : Value} (h : Represents j v) : v.depth = j.depth := by
  induction j using Json.induction generalizing v with
  | null | boolean => cases h
  | number n =>
    obtain ⟨k, -, -, rfl⟩ := (represents_number_iff n v).mp h
    rfl
  | text s =>
    obtain rfl := (represents_text_iff s v).mp h
    rfl
  | array items ih =>
    obtain ⟨values, hvalues, rfl⟩ := (represents_array_iff items v).mp h
    rw [Value.depth, Json.depth]
    have hdepths : List.Forall₂ (fun item value => value.depth = item.depth) items values :=
      (Pointwise.with_mem hvalues).imp fun item value hr => ih item hr.1 hr.2.2
    clear ih hvalues h
    induction hdepths with
    | nil => rfl
    | cons hfirst _ hrest => rw [Value.depthItems, Json.depthItems, hfirst, hrest]
  | object entries ih =>
    obtain ⟨values, hvalues, rfl⟩ := (represents_object_iff entries v).mp h
    rw [Value.depth, Json.depth]
    have hdepths : List.Forall₂ (fun (e : String × Json) (m : Value × Value) =>
        m.1.depth = 0 ∧ m.2.depth = e.2.depth) entries values := by
      refine (Pointwise.with_mem hvalues).imp ?_
      rintro e m ⟨he, -, hkey, hvalue⟩
      exact ⟨by rw [hkey, Value.depth], ih e he hvalue⟩
    clear ih hvalues h
    induction hdepths with
    | nil => rfl
    | cons hfirst _ hrest =>
      rw [Value.depthEntries, Json.depthEntries, hfirst.1, hfirst.2, hrest]
      omega

/-- What a message is like by the kind of its canonical value. -/
theorem represents_cases {j : Json} {v : Value} (h : Represents j v) :
    (∃ k : ℕ, k ≤ 2 ^ 64 - 1 ∧ j = .number (.whole k) ∧ v = .unsigned (UInt64.ofNat k)) ∨
    (∃ s, j = .text s ∧ v = .text s) ∨
    (∃ items values, j = .array items ∧ v = .array values ∧
      List.Forall₂ Represents items values) ∨
    (∃ entries values, j = .object entries ∧ v = .map values ∧
      List.Forall₂ RepresentsEntry entries values) := by
  cases j with
  | null | boolean => cases h
  | number n =>
    obtain ⟨k, hk, rfl, rfl⟩ := (represents_number_iff n v).mp h
    exact .inl ⟨k, hk, rfl, rfl⟩
  | text s => exact .inr (.inl ⟨s, rfl, (represents_text_iff s v).mp h⟩)
  | array items =>
    obtain ⟨values, hvalues, rfl⟩ := (represents_array_iff items v).mp h
    exact .inr (.inr (.inl ⟨items, values, rfl, rfl, hvalues⟩))
  | object entries =>
    obtain ⟨values, hvalues, rfl⟩ := (represents_object_iff entries v).mp h
    exact .inr (.inr (.inr ⟨entries, values, rfl, rfl, hvalues⟩))

/-- The canonical value of the message has the arranged form. -/
def Arranges (j : Json) (form : Value) : Prop :=
  ∃ v, Represents j v ∧ v.arranged = form

theorem arranges_items {items : List Json} {values : List Value}
    (h : List.Forall₂ Represents items values) :
    List.Forall₂ Arranges items (values.map Value.arranged) :=
  List.forall₂_map_right_iff.mpr (h.imp fun _ v hv => ⟨v, hv, rfl⟩)

theorem arranges_entries {entries : Json.Object} {values : List (Value × Value)}
    (h : List.Forall₂ RepresentsEntry entries values) :
    List.Forall₂ (fun e form => form.1 = .text e.1 ∧ Arranges e.2 form.2) entries
      (values.map Value.arrangedEntry) := by
  refine List.forall₂_map_right_iff.mpr (h.imp ?_)
  rintro e m ⟨hkey, hvalue⟩
  exact ⟨by rw [Value.arrangedEntry, hkey, Value.arranged], m.2, hvalue, rfl⟩

/-- Messages whose canonical values agree are equal: the arranged form of a map tells the entries
of the object, and these have one order. -/
theorem Arranges.unique {j k : Json} {form : Value} (hj : j.Ordered) (hk : k.Ordered)
    (h : Arranges j form) (h' : Arranges k form) : j = k := by
  obtain ⟨v, hv, rfl⟩ := h
  obtain ⟨w, hw, hform⟩ := h'
  induction j using Json.induction generalizing k v w with
  | null | boolean => cases hv
  | number n =>
    obtain ⟨a, ha, rfl, rfl⟩ := (represents_number_iff n v).mp hv
    rcases represents_cases hw with ⟨b, hb, rfl, rfl⟩ | ⟨_, rfl, rfl⟩ |
      ⟨_, _, rfl, rfl, -⟩ | ⟨_, _, rfl, rfl, -⟩
    · have hwords : UInt64.ofNat b = UInt64.ofNat a := Value.unsigned.inj hform
      have hnumbers := congrArg UInt64.toNat hwords
      rw [UInt64.toNat_ofNat_of_lt' (by simp only [UInt64.size]; omega),
        UInt64.toNat_ofNat_of_lt' (by simp only [UInt64.size]; omega)] at hnumbers
      rw [hnumbers]
    all_goals cases hform
  | text s =>
    obtain rfl := (represents_text_iff s v).mp hv
    rcases represents_cases hw with ⟨_, -, rfl, rfl⟩ | ⟨t, rfl, rfl⟩ |
      ⟨_, _, rfl, rfl, -⟩ | ⟨_, _, rfl, rfl, -⟩
    case inr.inl =>
      cases hform
      rfl
    all_goals cases hform
  | array items ih =>
    obtain ⟨values, hvalues, rfl⟩ := (represents_array_iff items v).mp hv
    rcases represents_cases hw with ⟨_, -, rfl, rfl⟩ | ⟨_, rfl, rfl⟩ |
      ⟨others, values', rfl, rfl, hothers⟩ | ⟨_, _, rfl, rfl, -⟩
    case inr.inr.inl =>
      have hforms := arranges_items hothers
      rw [Value.arranged_array_inj.mp hform] at hforms
      have hitems : items = others := by
        refine Pointwise.eq_of_shared (arranges_items hvalues) hforms ?_
        rintro item hitem other hother _ ⟨a, ha, rfl⟩ ⟨b, hb, hab⟩
        exact ih item hitem (hj.items item hitem) (hk.items other hother) a ha b hb hab
      rw [hitems]
    all_goals cases hform
  | object entries ih =>
    obtain ⟨values, hvalues, rfl⟩ := (represents_object_iff entries v).mp hv
    rcases represents_cases hw with ⟨_, -, rfl, rfl⟩ | ⟨_, rfl, rfl⟩ |
      ⟨_, _, rfl, rfl, -⟩ | ⟨others, values', rfl, rfl, hothers⟩
    case inr.inr.inr =>
      have hperm := Value.arranged_map_inj.mp hform
      obtain ⟨given, hgiven, horder⟩ :=
        List.perm_comp_forall₂ hperm.symm (arranges_entries hothers).flip
      have hentries : entries = given := by
        refine Pointwise.eq_of_shared (arranges_entries hvalues) hgiven.flip ?_
        rintro e he g hg form ⟨hkey, a, ha, hvalue⟩ ⟨hkey', b, hb, hvalue'⟩
        have hordered := hk.values g (horder.subset hg)
        exact Prod.ext (Value.text.inj (hkey.symm.trans hkey'))
          (ih e he (hj.values e he) hordered a ha b hb (hvalue'.trans hvalue.symm))
      rw [hj.increasing.eq_of_perm hk.increasing (hentries ▸ horder)]
    all_goals cases hform
end Canonical
end Conformance
