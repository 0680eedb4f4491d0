import Conformance.Json.Literal
import Conformance.Json.Record
import Mathlib

/-!
# Objects in key order

The entries of an object stand in strictly increasing order of their keys, at
every depth: this is so for every value that is read from a text. So an object is
known by what it holds under each key, and two objects that hold the same under
some keys have the same entries there.
-/
namespace Conformance.Json
open Conformance

/-- Induction that supposes the property of an array's items and of an object's values. -/
@[elab_as_elim]
theorem induction {motive : Json → Prop} (null : motive .null)
    (boolean : ∀ b, motive (.boolean b)) (number : ∀ n, motive (.number n))
    (text : ∀ s, motive (.text s))
    (array : ∀ items, (∀ item ∈ items, motive item) → motive (.array items))
    (object : ∀ entries : Object, (∀ e ∈ entries, motive e.2) → motive (.object entries)) :
    ∀ j, motive j
  | .null => null
  | .boolean b => boolean b
  | .number n => number n
  | .text s => text s
  | .array items => array items fun item _ =>
      induction null boolean number text array object item
  | .object entries => object entries fun e _ =>
      induction null boolean number text array object e.2
termination_by j => sizeOf j
decreasing_by
  · rename_i h
    have := List.sizeOf_lt_of_mem h
    simp only [Json.array.sizeOf_spec]
    omega
  · obtain ⟨key, value⟩ := e
    rename_i h
    have := List.sizeOf_lt_of_mem h
    simp only [Json.object.sizeOf_spec, Prod.mk.sizeOf_spec] at *
    omega

namespace Object

/-- The keys increase strictly. -/
def Increasing (entries : Object) : Prop :=
  entries.Pairwise fun a b => a.1 < b.1

theorem Increasing.eq_of_perm {as bs : Object} (ha : as.Increasing) (hb : bs.Increasing)
    (h : as.Perm bs) : as = bs := by
  refine h.eq_of_pairwise ?_ ha hb
  intro a b _ _ hab hba
  exact absurd hba (String.lt_asymm hab)

theorem Increasing.nodup_keys {entries : Object} (h : entries.Increasing) :
    (entries.map Prod.fst).Nodup := by
  refine List.pairwise_map.mpr (List.Pairwise.imp ?_ h)
  intro a b hab heq
  exact String.lt_irrefl b.1 (heq ▸ hab)

/-- An object is known by its entries. -/
theorem Increasing.eq_of_mem_iff {as bs : Object} (ha : as.Increasing) (hb : bs.Increasing)
    (h : ∀ e, e ∈ as ↔ e ∈ bs) : as = bs :=
  ha.eq_of_perm hb <|
    (List.perm_ext_iff_of_nodup ha.nodup_keys.of_map hb.nodup_keys.of_map).mpr h

theorem Increasing.get?_eq_some_iff {entries : Object} (h : entries.Increasing) (key : String)
    (value : Json) : entries.get? key = some value ↔ (key, value) ∈ entries := by
  unfold get?
  induction entries with
  | nil => simp
  | cons first rest ih =>
    obtain ⟨name, held⟩ := first
    obtain ⟨hfirst, hrest⟩ := List.pairwise_cons.mp h
    by_cases hkey : key = name
    · subst hkey
      have hnot : (key, value) ∉ rest := fun hmem => String.lt_irrefl key (hfirst _ hmem)
      simp [hnot, eq_comm]
    · have hbeq : (key == name) = false := by simpa using hkey
      simp [List.lookup_cons, hbeq, hkey, ih hrest]

/-- Objects that hold the same under the keys of some kind have the same entries of that kind. -/
theorem Increasing.filter_eq {as bs : Object} (ha : as.Increasing) (hb : bs.Increasing)
    (p : String → Bool) (h : ∀ key, p key = true → as.get? key = bs.get? key) :
    as.filter (fun e => p e.1) = bs.filter (fun e => p e.1) := by
  apply Increasing.eq_of_mem_iff (ha.filter _) (hb.filter _)
  rintro ⟨key, value⟩
  simp only [List.mem_filter, ← ha.get?_eq_some_iff, ← hb.get?_eq_some_iff]
  exact and_congr_left fun hp => by rw [h key hp]

theorem mem_insert {key : String} {value : Json} {entries : Object} {e : String × Json}
    (h : e ∈ entries.insert key value) : e = (key, value) ∨ e ∈ entries := by
  induction entries with
  | nil => simpa [insert] using h
  | cons first rest ih =>
    rw [insert] at h
    split at h
    · exact List.mem_cons.mp h
    · split at h
      · rcases List.mem_cons.mp h with he | he
        · exact .inl he
        · exact .inr (List.mem_cons_of_mem first he)
      · rcases List.mem_cons.mp h with he | he
        · exact .inr (he ▸ List.mem_cons_self)
        · exact (ih he).imp_right (List.mem_cons_of_mem first)

theorem get?_cons (key : String) (value : Json) (rest : Object) (other : String) :
    Object.get? other ((key, value) :: rest) =
      if other = key then some value else rest.get? other := by
  rw [get?, List.lookup_cons]
  by_cases h : other = key
  · simp [h]
  · have hbeq : (other == key) = false := by simpa using h
    rw [hbeq, if_neg h]
    rfl

theorem get?_insert (key : String) (value : Json) (entries : Object) (other : String) :
    (entries.insert key value).get? other =
      if other = key then some value else entries.get? other := by
  induction entries with
  | nil => exact get?_cons key value [] other
  | cons first rest ih =>
    obtain ⟨name, held⟩ := first
    rw [insert]
    split
    · exact get?_cons key value _ other
    · split
      · rename_i hkey
        rw [get?_cons, get?_cons, ← hkey]
        split <;> rfl
      · rename_i hne
        rw [get?_cons, get?_cons, ih]
        by_cases hother : other = name
        · rw [if_pos hother, if_pos hother, if_neg fun h => hne (h.symm.trans hother)]
        · rw [if_neg hother, if_neg hother]

theorem Increasing.insert {entries : Object} (h : entries.Increasing) (key : String)
    (value : Json) : (entries.insert key value).Increasing := by
  induction entries with
  | nil => exact List.pairwise_singleton _ _
  | cons first rest ih =>
    obtain ⟨hfirst, hrest⟩ := List.pairwise_cons.mp h
    rw [Object.insert]
    split
    · rename_i hlt
      refine List.pairwise_cons.mpr ⟨fun e he => ?_, h⟩
      rcases List.mem_cons.mp he with rfl | he
      · exact hlt
      · exact String.lt_trans hlt (hfirst e he)
    · rename_i hge
      split
      · rename_i hkey
        exact List.pairwise_cons.mpr ⟨fun e he => hkey ▸ hfirst e he, hrest⟩
      · rename_i hne
        refine List.pairwise_cons.mpr ⟨fun e he => ?_, ih hrest⟩
        rcases mem_insert he with rfl | he
        · exact ((lt_trichotomy key first.1).resolve_left hge).resolve_left hne
        · exact hfirst e he

theorem extend_append (base first second : Object) :
    base.extend (first ++ second) = (base.extend first).extend second :=
  List.foldl_append

theorem get?_extend (base additions : Object) (key : String) :
    (base.extend additions).get? key = (additions.reverse.lookup key).or (base.get? key) := by
  induction additions using List.reverseRecOn with
  | nil => rfl
  | append_singleton additions e ih =>
    obtain ⟨name, value⟩ := e
    have hlast : List.lookup key [(name, value)] = if key = name then some value else none :=
      get?_cons name value [] key
    rw [extend_append, List.reverse_append, List.reverse_singleton, List.lookup_append,
      Option.or_assoc, ← ih, hlast]
    change ((base.extend additions).insert name value).get? key = _
    rw [get?_insert]
    split <;> rfl

theorem Increasing.extend {base : Object} (h : base.Increasing) (additions : Object) :
    (base.extend additions).Increasing :=
  List.foldlRecOn (motive := Increasing) additions _ h fun _ hb e _ => hb.insert e.1 e.2

theorem foldl_extend (base : Object) (parts : List Object) :
    parts.foldl extend base = base.extend parts.flatten := by
  induction parts generalizing base with
  | nil => rfl
  | cons part parts ih => rw [List.foldl_cons, ih, List.flatten_cons, extend_append]

/-- `o` is what `base` becomes when the entries are added one after the other: under each key it
holds what the last of them says, and otherwise what was there. -/
structure Extended (base additions o : Object) : Prop where
  increasing : base.Increasing → o.Increasing
  get? : ∀ key, o.get? key = (additions.reverse.lookup key).or (base.get? key)

theorem extended_extend (base additions : Object) :
    Extended base additions (base.extend additions) where
  increasing h := h.extend additions
  get? := base.get?_extend additions

end Object

/-- The keys of each object in the value increase strictly. -/
inductive Ordered : Json → Prop
  | null : Ordered .null
  | boolean (b : Bool) : Ordered (.boolean b)
  | number (n : Number) : Ordered (.number n)
  | text (s : String) : Ordered (.text s)
  | array {items : List Json} (h : ∀ item ∈ items, Ordered item) : Ordered (.array items)
  | object {entries : Object} (increasing : entries.Increasing) (h : ∀ e ∈ entries, Ordered e.2) :
      Ordered (.object entries)

attribute [simp] Ordered.null Ordered.boolean Ordered.number Ordered.text

theorem Ordered.items {items : List Json} (h : Ordered (.array items)) :
    ∀ item ∈ items, Ordered item := by
  cases h with
  | array h => exact h

@[simp] theorem ordered_array_iff (items : List Json) :
    Ordered (.array items) ↔ ∀ item ∈ items, Ordered item :=
  ⟨Ordered.items, Ordered.array⟩

@[simp] theorem ordered_ofNat (n : ℕ) : Ordered (ofNat n) :=
  .number _

theorem Ordered.increasing {entries : Object} (h : Ordered (.object entries)) :
    entries.Increasing := by
  cases h with
  | object increasing h => exact increasing

theorem Ordered.values {entries : Object} (h : Ordered (.object entries)) :
    ∀ e ∈ entries, Ordered e.2 := by
  cases h with
  | object increasing h => exact h

theorem Ordered.insert {entries : Object} (h : Ordered (.object entries)) (key : String)
    {value : Json} (hvalue : value.Ordered) : Ordered (.object (entries.insert key value)) := by
  refine .object (h.increasing.insert key value) fun e he => ?_
  rcases Object.mem_insert he with rfl | he
  · exact hvalue
  · exact h.values e he

theorem ordered_ofEntries {entries : List (String × Json)} (h : ∀ e ∈ entries, Ordered e.2) :
    Ordered (ofEntries entries) := by
  have hempty : Ordered (.object []) := .object List.Pairwise.nil (by simp)
  refine List.foldlRecOn (motive := fun base => Ordered (.object base)) entries _ hempty ?_
  intro base hbase e he
  exact hbase.insert e.1 (h e he)

mutual

theorem Literal.ordered_value? (literal : Literal) {room : ℕ} {j : Json}
    (h : literal.value? room = some j) : j.Ordered := by
  cases literal with
  | null =>
    cases h
    exact .null
  | boolean b =>
    cases h
    exact .boolean b
  | number n =>
    obtain ⟨n, -, rfl⟩ := Option.map_eq_some_iff.mp h
    exact .number n
  | text s =>
    obtain ⟨s, -, rfl⟩ := Option.map_eq_some_iff.mp h
    exact .text s
  | array items =>
    rw [Literal.value?, Option.ite_none_left_eq_some] at h
    obtain ⟨values, hvalues, rfl⟩ := Option.map_eq_some_iff.mp h.2
    exact .array (ordered_itemValues? items hvalues)
  | object entries =>
    rw [Literal.value?, Option.ite_none_left_eq_some] at h
    obtain ⟨values, hvalues, rfl⟩ := Option.map_eq_some_iff.mp h.2
    exact ordered_ofEntries (ordered_entryValues? entries hvalues)

theorem ordered_itemValues? (items : List Literal) {room : ℕ} {values : List Json}
    (h : itemValues? room items = some values) : ∀ value ∈ values, value.Ordered := by
  cases items with
  | nil =>
    cases h
    simp
  | cons literal rest =>
    simp only [itemValues?, Option.bind_eq_bind, Option.bind_eq_some_iff] at h
    obtain ⟨value, hvalue, others, hothers, hvalues⟩ := h
    cases hvalues
    exact List.forall_mem_cons.mpr
      ⟨Literal.ordered_value? literal hvalue, ordered_itemValues? rest hothers⟩

theorem ordered_entryValues? (entries : List (Option String × Literal)) {room : ℕ}
    {values : List (String × Json)} (h : entryValues? room entries = some values) :
    ∀ e ∈ values, e.2.Ordered := by
  cases entries with
  | nil =>
    cases h
    simp
  | cons first rest =>
    obtain ⟨name, literal⟩ := first
    simp only [entryValues?, Option.bind_eq_bind, Option.bind_eq_some_iff] at h
    obtain ⟨key, -, value, hvalue, others, hothers, hvalues⟩ := h
    cases hvalues
    exact List.forall_mem_cons.mpr
      ⟨Literal.ordered_value? literal hvalue, ordered_entryValues? rest hothers⟩

end

/-- Every value that is read from a text has its objects in key order. -/
theorem ordered_of_parse {text : String} {j : Json} (h : parse text = some j) : j.Ordered := by
  simp only [parse, Option.bind_eq_bind, Option.bind_eq_some_iff] at h
  obtain ⟨literal, -, hvalue⟩ := h
  exact literal.ordered_value? hvalue

namespace Reader

variable {α : Type}

/-- What is left behind a key begins after it. -/
theorem lt_of_mem_dropWhile {sorted : List (String × α)}
    (h : sorted.Pairwise fun a b => a.1 < b.1) {key : String} {e : String × α}
    (he : e ∈ sorted.dropWhile (·.1 ≤ key)) : key < e.1 := by
  induction sorted with
  | nil => cases he
  | cons first rest ih =>
    obtain ⟨hfirst, hrest⟩ := List.pairwise_cons.mp h
    by_cases hkey : first.1 ≤ key
    · rw [List.dropWhile_cons_of_pos (by simpa using hkey)] at he
      exact ih hrest he
    · rw [List.dropWhile_cons_of_neg (by simpa using hkey)] at he
      rcases List.mem_cons.mp he with rfl | he
      · exact not_le.mp hkey
      · exact (not_le.mp hkey).trans (hfirst e he)

theorem pairwise_put {sorted : List (String × α)} (h : sorted.Pairwise fun a b => a.1 < b.1)
    (e : String × α) : (byName.put sorted e).Pairwise fun a b => a.1 < b.1 := by
  obtain ⟨key, item⟩ := e
  have hbefore : ∀ a ∈ sorted.takeWhile (·.1 < key), a.1 < key := by
    intro a ha
    simpa using List.mem_takeWhile_imp ha
  have hafter : ∀ b ∈ sorted.dropWhile (·.1 ≤ key), key < b.1 := fun b hb =>
    lt_of_mem_dropWhile h hb
  refine List.pairwise_append.mpr ⟨?_, ?_, ?_⟩
  · exact h.sublist (List.takeWhile_sublist _)
  · exact List.pairwise_cons.mpr ⟨hafter, h.sublist (List.dropWhile_sublist _)⟩
  · intro a ha b hb
    rcases List.mem_cons.mp hb with rfl | hb
    · exact hbefore a ha
    · exact (hbefore a ha).trans (hafter b hb)

/-- Items by name stand in strictly increasing order of their names. -/
theorem pairwise_byName {item : Reader α} {room : ℕ} {literal : Literal}
    {items : List (String × α)} (h : byName item room literal = some items) :
    items.Pairwise fun a b => a.1 < b.1 := by
  unfold byName at h
  split at h
  · cases h
  · obtain ⟨entries, -, hitems⟩ := Option.bind_eq_some_iff.mp h
    cases hitems
    exact List.foldlRecOn _ _ List.Pairwise.nil fun sorted hsorted e _ => pairwise_put hsorted e
  · cases h

end Reader
end Conformance.Json
