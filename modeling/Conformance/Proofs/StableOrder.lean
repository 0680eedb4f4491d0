import Mathlib.Data.List.Sort

/-!
# Stable orders

A list that is sorted by a key and holds the elements of each key as they stood is
known by these two properties, so what is said of it need not open a sort.
-/
namespace Conformance

variable {α κ : Type} [LinearOrder κ] {key : α → κ}

/-- The list holds the elements by their keys, and those of one key as they stand. -/
structure SortsBy (key : α → κ) (elements ordered : List α) : Prop where
  sorted : ordered.Pairwise fun a b => key a ≤ key b
  stable : ∀ k, ordered.filter (key · = k) = elements.filter (key · = k)

theorem mem_iff_of_filter_key {as bs : List α}
    (h : ∀ k, as.filter (key · = k) = bs.filter (key · = k)) (a : α) : a ∈ as ↔ a ∈ bs := by
  have ha : a ∈ as.filter (key · = key a) ↔ a ∈ bs.filter (key · = key a) := by rw [h]
  simpa [List.mem_filter] using ha

/-- A list that is sorted by key is known by the elements of each key. -/
theorem eq_of_filter_key {as bs : List α} (ha : as.Pairwise fun a b => key a ≤ key b)
    (hb : bs.Pairwise fun a b => key a ≤ key b)
    (h : ∀ k, as.filter (key · = k) = bs.filter (key · = k)) : as = bs := by
  induction as generalizing bs with
  | nil =>
    cases bs with
    | nil => rfl
    | cons b bs => simpa using h (key b)
  | cons a as ih =>
    cases bs with
    | nil => simpa using h (key a)
    | cons b bs =>
      obtain ⟨hfirst, hrest⟩ := List.pairwise_cons.mp ha
      obtain ⟨hfirst', hrest'⟩ := List.pairwise_cons.mp hb
      have hmem := mem_iff_of_filter_key h
      have hab : key a ≤ key b := by
        rcases List.mem_cons.mp ((hmem b).mpr List.mem_cons_self) with rfl | hb
        · exact le_rfl
        · exact hfirst b hb
      have hba : key b ≤ key a := by
        rcases List.mem_cons.mp ((hmem a).mp List.mem_cons_self) with rfl | ha
        · exact le_rfl
        · exact hfirst' a ha
      have hheads := h (key a)
      rw [List.filter_cons_of_pos (by simp),
        List.filter_cons_of_pos (by simpa using le_antisymm hba hab)] at hheads
      obtain rfl : a = b := (List.cons.inj hheads).1
      rw [ih hrest hrest' fun k => ?_]
      have hequal := h k
      by_cases hk : key a = k
      · rw [List.filter_cons_of_pos (by simpa using hk),
          List.filter_cons_of_pos (by simpa using hk)] at hequal
        exact (List.cons.inj hequal).2
      · rwa [List.filter_cons_of_neg (by simpa using hk),
          List.filter_cons_of_neg (by simpa using hk)] at hequal

namespace SortsBy

variable {elements as bs : List α}

theorem unique (ha : SortsBy key elements as) (hb : SortsBy key elements bs) : as = bs :=
  eq_of_filter_key ha.sorted hb.sorted fun k => (ha.stable k).trans (hb.stable k).symm

theorem mem_iff (h : SortsBy key elements as) (a : α) : a ∈ as ↔ a ∈ elements :=
  mem_iff_of_filter_key h.stable a

theorem filter (h : SortsBy key elements as) (p : α → Bool) :
    SortsBy key (elements.filter p) (as.filter p) where
  sorted := h.sorted.filter p
  stable k := by
    rw [List.filter_filter, List.filter_filter]
    simp only [Bool.and_comm (decide _)]
    rw [← List.filter_filter, ← List.filter_filter, h.stable k]

/-- The first element of some kind has the least key of that kind. -/
theorem key_le_of_find? (h : SortsBy key elements as) {p : α → Bool} {a : α}
    (hfirst : as.find? p = some a) {b : α} (hb : b ∈ elements) (hp : p b = true) :
    key a ≤ key b := by
  obtain ⟨-, earlier, later, rfl, hearlier⟩ := List.find?_eq_some_iff_append.mp hfirst
  have hsorted := (List.pairwise_append.mp h.sorted).2.1
  rcases List.mem_append.mp ((h.mem_iff b).mpr hb) with hmem | hmem
  · exact absurd hp (by simpa using hearlier b hmem)
  · rcases List.mem_cons.mp hmem with rfl | hmem
    · exact le_rfl
    · exact List.rel_of_pairwise_cons hsorted hmem

end SortsBy

theorem sortsBy_mergeSort (key : α → κ) (elements : List α) :
    SortsBy key elements (elements.mergeSort fun a b => key a ≤ key b) := by
  have htrans (a b c : α) (hab : decide (key a ≤ key b) = true)
      (hbc : decide (key b ≤ key c) = true) : decide (key a ≤ key c) = true := by
    simp only [decide_eq_true_eq] at hab hbc ⊢
    exact hab.trans hbc
  have htotal (a b : α) : (decide (key a ≤ key b) || decide (key b ≤ key a)) = true := by
    simpa using le_total (key a) (key b)
  refine ⟨(List.pairwise_mergeSort htrans htotal elements).imp of_decide_eq_true, fun k => ?_⟩
  let ofKey (a : α) : Bool := key a = k
  have hsame : (elements.filter ofKey).Pairwise fun a b => decide (key a ≤ key b) := by
    refine List.pairwise_of_forall_mem_list fun a ha b hb => ?_
    have ha : key a = k := by simpa [ofKey] using List.of_mem_filter ha
    have hb : key b = k := by simpa [ofKey] using List.of_mem_filter hb
    exact decide_eq_true (ha.trans hb.symm).le
  have hsublist := List.sublist_mergeSort htrans htotal hsame List.filter_sublist
  have hfiltered := hsublist.filter ofKey
  rw [List.filter_filter] at hfiltered
  simp only [Bool.and_self] at hfiltered
  exact (hfiltered.eq_of_length
    ((List.mergeSort_perm elements _).filter ofKey).length_eq.symm).symm

end Conformance
