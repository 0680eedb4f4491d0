import Conformance.Canonical.Value
import Mathlib.Tactic
import Mathlib.Data.Multiset.Basic
import Mathlib.Data.List.Perm.Subperm

/-!
# Agreement of canonical values

Agreement does not see the order of map entries. It is equality of arranged
values, in which the entries of each map stand in an order that is fixed for the
collection of them; so it is an equivalence. The depth of a value bounds the
levels at which its parts lie.
-/
namespace Conformance.Canonical
open Conformance

theorem removeFirst?_perm {α : Type} {p : α → Bool} {l rest : List α}
    (h : removeFirst? p l = some rest) : ∃ a, p a = true ∧ (a :: rest).Perm l := by
  induction l generalizing rest with
  | nil => cases h
  | cons a l ih =>
    unfold removeFirst? at h
    split at h
    · rename_i ha
      cases h
      exact ⟨a, ha, .refl _⟩
    · obtain ⟨kept, hk, rfl⟩ := Option.map_eq_some_iff.mp h
      obtain ⟨b, hb, hperm⟩ := ih hk
      exact ⟨b, hb, (List.Perm.swap a b kept).trans (hperm.cons a)⟩

theorem removeFirst?_eq_none {α : Type} {p : α → Bool} {l : List α}
    (h : removeFirst? p l = none) : ∀ a ∈ l, p a = false := by
  induction l with
  | nil => simp
  | cons a l ih =>
    unfold removeFirst? at h
    split at h
    · cases h
    · rename_i ha
      intro b hb
      rcases List.mem_cons.mp hb with rfl | hb
      · simpa using ha
      · exact ih (Option.map_eq_none_iff.mp h) b hb

namespace Value

/-- Induction that supposes the property of an array's items and of a map's keys and values. -/
@[elab_as_elim]
theorem induction {motive : Value → Prop} (unsigned : ∀ n, motive (.unsigned n))
    (bytes : ∀ b, motive (.bytes b)) (text : ∀ s, motive (.text s))
    (array : ∀ items, (∀ item ∈ items, motive item) → motive (.array items))
    (map : ∀ entries, (∀ e ∈ entries, motive e.1 ∧ motive e.2) → motive (.map entries)) :
    ∀ v, motive v
  | .unsigned n => unsigned n
  | .bytes b => bytes b
  | .text s => text s
  | .array items => array items fun item _ => induction unsigned bytes text array map item
  | .map entries => map entries fun e _ =>
      ⟨induction unsigned bytes text array map e.1, induction unsigned bytes text array map e.2⟩
termination_by v => sizeOf v
decreasing_by
  · rename_i h
    have := List.sizeOf_lt_of_mem h
    simp only [Value.array.sizeOf_spec]
    omega
  all_goals
    obtain ⟨k, w⟩ := e
    rename_i h
    have := List.sizeOf_lt_of_mem h
    simp only [Value.map.sizeOf_spec, Prod.mk.sizeOf_spec] at *
    omega

/-- `Lies n w v`: the value `w` stands in `v`, `n` levels below the root. -/
inductive Lies : ℕ → Value → Value → Prop
  | root (v : Value) : Lies 0 v v
  | item {n : ℕ} {w item : Value} {items : List Value} (h : item ∈ items)
      (below : Lies n w item) : Lies (n + 1) w (.array items)
  | key {n : ℕ} {w : Value} {e : Value × Value} {entries : List (Value × Value)} (h : e ∈ entries)
      (below : Lies n w e.1) : Lies (n + 1) w (.map entries)
  | value {n : ℕ} {w : Value} {e : Value × Value} {entries : List (Value × Value)} (h : e ∈ entries)
      (below : Lies n w e.2) : Lies (n + 1) w (.map entries)

theorem depthItems_le_iff (items : List Value) (n : ℕ) :
    depthItems items ≤ n ↔ ∀ item ∈ items, depth item < n := by
  induction items with
  | nil => simp [depthItems]
  | cons item items ih => simp [depthItems, ih]

theorem depthEntries_le_iff (entries : List (Value × Value)) (n : ℕ) :
    depthEntries entries ≤ n ↔ ∀ e ∈ entries, depth e.1 < n ∧ depth e.2 < n := by
  induction entries with
  | nil => simp [depthEntries]
  | cons e entries ih => simp [depthEntries, ih]

theorem Lies.le_depth {n : ℕ} {w v : Value} (h : Lies n w v) : n ≤ depth v := by
  induction h with
  | root v => exact Nat.zero_le _
  | item h below ih =>
    exact ih.trans_lt ((depthItems_le_iff _ _).mp (le_refl (depthItems _)) _ h)
  | key h below ih =>
    exact ih.trans_lt ((depthEntries_le_iff _ _).mp (le_refl (depthEntries _)) _ h).1
  | value h below ih =>
    exact ih.trans_lt ((depthEntries_le_iff _ _).mp (le_refl (depthEntries _)) _ h).2

/-- The depth is the level of the deepest parts. -/
theorem depth_le_iff (v : Value) (n : ℕ) : depth v ≤ n ↔ ∀ m w, Lies m w v → m ≤ n := by
  constructor
  · intro h m w hw
    exact hw.le_depth.trans h
  · intro h
    induction v using Value.induction generalizing n with
    | unsigned | bytes | text => exact Nat.zero_le n
    | array items ih =>
      rw [depth, depthItems_le_iff]
      intro item hi
      have hn : 1 ≤ n := h 1 item (.item hi (.root item))
      have := ih item hi (n - 1) fun m w hw => by
        have := h (m + 1) w (.item hi hw)
        omega
      omega
    | map entries ih =>
      rw [depth, depthEntries_le_iff]
      intro e he
      have hn : 1 ≤ n := h 1 e.1 (.key he (.root e.1))
      have hk := (ih e he).1 (n - 1) fun m w hw => by
        have := h (m + 1) w (.key he hw)
        omega
      have hv := (ih e he).2 (n - 1) fun m w hw => by
        have := h (m + 1) w (.value he hw)
        omega
      omega

mutual

/-- The value with the entries of each map, at every depth, in an order that depends on the
collection of arranged entries alone. -/
noncomputable def arranged : Value → Value
  | .unsigned n => .unsigned n
  | .bytes b => .bytes b
  | .text s => .text s
  | .array items => .array (arrangedItems items)
  | .map entries => .map (Multiset.toList (arrangedEntries entries : List (Value × Value)))

noncomputable def arrangedItems : List Value → List Value
  | [] => []
  | item :: rest => arranged item :: arrangedItems rest

noncomputable def arrangedEntries : List (Value × Value) → List (Value × Value)
  | [] => []
  | (key, value) :: rest => (arranged key, arranged value) :: arrangedEntries rest

end

noncomputable def arrangedEntry (e : Value × Value) : Value × Value :=
  (arranged e.1, arranged e.2)

theorem arrangedItems_eq_map (items : List Value) : arrangedItems items = items.map arranged := by
  induction items with
  | nil => rfl
  | cons item items ih => rw [arrangedItems, ih, List.map_cons]

theorem arrangedEntries_eq_map (entries : List (Value × Value)) :
    arrangedEntries entries = entries.map arrangedEntry := by
  induction entries with
  | nil => rfl
  | cons e entries ih =>
    rw [arrangedEntries, ih, List.map_cons]
    rfl

theorem arranged_array_inj {as bs : List Value} :
    arranged (.array as) = arranged (.array bs) ↔ as.map arranged = bs.map arranged := by
  rw [arranged, arranged, arrangedItems_eq_map, arrangedItems_eq_map, Value.array.injEq]

theorem arranged_map_inj {as bs : List (Value × Value)} :
    arranged (.map as) = arranged (.map bs) ↔
      (as.map arrangedEntry).Perm (bs.map arrangedEntry) := by
  rw [arranged, arranged, arrangedEntries_eq_map, arrangedEntries_eq_map, Value.map.injEq,
    ← Multiset.coe_eq_coe]
  constructor
  · intro h
    have hs := congrArg (fun l : List (Value × Value) => (l : Multiset (Value × Value))) h
    simpa only [Multiset.coe_toList] using hs
  · intro h
    rw [h]

theorem sameItems_iff {as : List Value} (bs : List Value)
    (h : ∀ a ∈ as, ∀ b, same a b = true ↔ arranged a = arranged b) :
    sameItems as bs = true ↔ as.map arranged = bs.map arranged := by
  induction as generalizing bs with
  | nil => cases bs <;> simp [sameItems]
  | cons a as ih =>
    cases bs with
    | nil => simp [sameItems]
    | cons b bs =>
      rw [sameItems, Bool.and_eq_true, h a List.mem_cons_self,
        ih bs (fun x hx => h x (List.mem_cons_of_mem a hx)), List.map_cons, List.map_cons,
        List.cons.injEq]

/-- Greedy pairing succeeds exactly when the arranged entries are the same collection: pairing
off one entry of a class leaves the same entries of that class, whichever was taken. -/
theorem sameEntries_iff {as : List (Value × Value)} (bs : List (Value × Value))
    (h : ∀ a ∈ as, ∀ b : Value × Value,
      (same a.1 b.1 && same a.2 b.2) = true ↔ arrangedEntry a = arrangedEntry b) :
    sameEntries as bs = true ↔ (as.map arrangedEntry).Perm (bs.map arrangedEntry) := by
  induction as generalizing bs with
  | nil => cases bs <;> simp [sameEntries]
  | cons a as ih =>
    have ha := h a List.mem_cons_self
    rw [sameEntries]
    split
    · rename_i rest hrest
      obtain ⟨b, hb, hperm⟩ := removeFirst?_perm hrest
      have hab : arrangedEntry a = arrangedEntry b := (ha b).mp hb
      have hbs : (arrangedEntry a :: rest.map arrangedEntry).Perm (bs.map arrangedEntry) := by
        rw [hab, ← List.map_cons]
        exact hperm.map arrangedEntry
      rw [ih rest (fun x hx => h x (List.mem_cons_of_mem a hx)), List.map_cons,
        ← List.perm_cons (arrangedEntry a)]
      exact ⟨fun hp => hp.trans hbs, fun hp => hp.trans hbs.symm⟩
    · rename_i hnone
      constructor
      · intro hf
        cases hf
      · intro hp
        have hmem : arrangedEntry a ∈ bs.map arrangedEntry :=
          hp.subset (by rw [List.map_cons]; exact List.mem_cons_self)
        obtain ⟨b, hb, hab⟩ := List.mem_map.mp hmem
        have hfalse := removeFirst?_eq_none hnone b hb
        exact absurd ((ha b).mpr hab.symm) (Bool.eq_false_iff.mp hfalse)

/-- Two values agree exactly when their arranged forms are equal. -/
theorem same_iff (v w : Value) : same v w = true ↔ arranged v = arranged w := by
  induction v using Value.induction generalizing w with
  | unsigned n => cases w <;> simp [same, arranged]
  | bytes b => cases w <;> simp [same, arranged]
  | text s => cases w <;> simp [same, arranged]
  | array items ih =>
    cases w with
    | array others =>
      rw [same, arranged_array_inj]
      exact sameItems_iff others fun a ha b => ih a ha b
    | unsigned | bytes | text | map => simp [same, arranged]
  | map entries ih =>
    cases w with
    | map others =>
      rw [same, arranged_map_inj]
      refine sameEntries_iff others fun a ha b => ?_
      rw [Bool.and_eq_true, (ih a ha).1, (ih a ha).2]
      exact Prod.mk_inj.symm
    | unsigned | bytes | text | array => simp [same, arranged]

theorem beq_iff (v w : Value) : (v == w) = true ↔ arranged v = arranged w :=
  same_iff v w

instance : EquivBEq Value where
  rfl {v} := (beq_iff v v).mpr rfl
  symm {v w} h := (beq_iff w v).mpr ((beq_iff v w).mp h).symm
  trans {u v w} h k := (beq_iff u w).mpr (((beq_iff u v).mp h).trans ((beq_iff v w).mp k))

theorem entry_beq_iff (a b : Value × Value) :
    (a == b) = true ↔ arrangedEntry a = arrangedEntry b := by
  change (a.1 == b.1 && a.2 == b.2) = true ↔ _
  rw [Bool.and_eq_true, beq_iff, beq_iff]
  exact Prod.mk_inj.symm

open Classical in
theorem count_eq_count_arranged (a : Value × Value) (entries : List (Value × Value)) :
    entries.count a =
      Multiset.count (arrangedEntry a) (entries.map arrangedEntry : Multiset (Value × Value)) := by
  induction entries with
  | nil => rfl
  | cons e entries ih =>
    rw [List.map_cons, ← Multiset.cons_coe, Multiset.count_cons, List.count_cons, ih]
    congr 1
    have h := entry_beq_iff e a
    by_cases he : arrangedEntry e = arrangedEntry a
    · rw [if_pos (h.mpr he), if_pos he.symm]
    · rw [if_neg (mt h.mp he), if_neg (Ne.symm he)]

open Classical in
/-- Pairing off the entries of two maps comes to the same as counting them: the maps are of one
length, and each entry stands in both equally often. -/
theorem map_beq_iff_count (as bs : List (Value × Value)) :
    (Value.map as == Value.map bs) = true ↔
      as.length = bs.length ∧ ∀ a ∈ as, as.count a = bs.count a := by
  rw [beq_iff, arranged_map_inj]
  simp only [count_eq_count_arranged]
  constructor
  · intro h
    refine ⟨by simpa using h.length_eq, fun a _ => ?_⟩
    rw [Multiset.coe_eq_coe.mpr h]
  · rintro ⟨hlen, hcount⟩
    rw [← Multiset.coe_eq_coe]
    apply Multiset.eq_of_le_of_card_le
    · rw [Multiset.le_iff_count]
      intro x
      by_cases hx : x ∈ as.map arrangedEntry
      · obtain ⟨a, ha, rfl⟩ := List.mem_map.mp hx
        exact (hcount a ha).le
      · rw [Multiset.count_eq_zero_of_notMem (by simpa using hx)]
        exact Nat.zero_le _
    · simp [hlen]

/-- The entries of one map, at any depth, are put into another order. -/
inductive Rearranges : Value → Value → Prop
  | here {as bs : List (Value × Value)} (h : as.Perm bs) : Rearranges (.map as) (.map bs)
  | item {v w : Value} (before after : List Value) (h : Rearranges v w) :
      Rearranges (.array (before ++ v :: after)) (.array (before ++ w :: after))
  | key {v w : Value} (before after : List (Value × Value)) (value : Value) (h : Rearranges v w) :
      Rearranges (.map (before ++ (v, value) :: after)) (.map (before ++ (w, value) :: after))
  | value {v w : Value} (before after : List (Value × Value)) (key : Value) (h : Rearranges v w) :
      Rearranges (.map (before ++ (key, v) :: after)) (.map (before ++ (key, w) :: after))

theorem Rearranges.beq {v w : Value} (h : Rearranges v w) : (v == w) = true := by
  rw [beq_iff]
  induction h with
  | here h => exact arranged_map_inj.mpr (h.map arrangedEntry)
  | item before after h ih =>
    rw [arranged_array_inj]
    simp only [List.map_append, List.map_cons, ih]
  | key before after value h ih =>
    rw [arranged_map_inj]
    simp only [List.map_append, List.map_cons, arrangedEntry, ih]
    rfl
  | value before after key h ih =>
    rw [arranged_map_inj]
    simp only [List.map_append, List.map_cons, arrangedEntry, ih]
    rfl

/-- Any number of rearrangements leads to a value that agrees with the first. -/
theorem beq_of_rearranges {v w : Value} (h : Relation.ReflTransGen Rearranges v w) :
    (v == w) = true := by
  induction h with
  | refl => exact BEq.rfl
  | tail _ hstep ih => exact BEq.trans ih hstep.beq

end Value
end Conformance.Canonical
