import Conformance.Proofs.Replay.Window
import Conformance.Proofs.Word
import Mathlib

/-!
# How much a window retains

Eviction drops what lies too far below the number that is observed, so of what is
retained at most one more than the width is not above it. Nothing drops what lies
above: numbers that come in descending order are all retained, and what a window
retains is bounded by the width and by how far the number has fallen below the
greatest of them.
-/
namespace Conformance.Replay

theorem length_le_of_within {l : List ℤ} (hl : l.Pairwise (· < ·)) {low high : ℤ}
    (hwithin : ∀ n ∈ l, low ≤ n ∧ n ≤ high) : l.length ≤ (high + 1 - low).toNat := by
  have hsubset : l.toFinset ⊆ Finset.Icc low high := fun n hn =>
    Finset.mem_Icc.mpr (hwithin n (List.mem_toFinset.mp hn))
  have hcard := Finset.card_le_card hsubset
  rwa [List.toFinset_card_of_nodup (hl.imp fun h => h.ne), Int.card_Icc] at hcard

theorem length_eq_of_within {l : List ℤ} (hl : l.Pairwise (· < ·)) {low high : ℤ}
    (hwithin : ∀ n, n ∈ l ↔ low ≤ n ∧ n ≤ high) : l.length = (high + 1 - low).toNat := by
  have hset : l.toFinset = Finset.Icc low high := by
    ext n
    rw [List.mem_toFinset, Finset.mem_Icc, hwithin]
  rw [← List.toFinset_card_of_nodup (hl.imp fun h => h.ne), hset, Int.card_Icc]

namespace History
variable {h : History}

/-- Nothing is left that lies below the last number by more than the width. -/
theorem sub_width_le_of_mem (hwidth : 0 ≤ h.width) {j : Fin h.numbers.length}
    (hfits : Word.fitsSigned (h.number j)) {m : ℤ} (hm : m ∈ (h.window (j + 1)).retained) :
    h.number j - h.width ≤ m := by
  rw [Word.fitsSigned_iff] at hfits
  rw [window_succ, (h.window_ascending j).mem_next_iff, window_cutoff] at hm
  rcases hm with ⟨-, hcutoff⟩ | rfl
  · exact ((Word.le_saturate_iff (by omega)).mpr (.inl le_rfl)).trans hcutoff
  · omega

theorem number_mem_retained (j : Fin h.numbers.length) :
    h.number j ∈ (h.window (j + 1)).retained := by
  rw [window_succ, (h.window_ascending j).mem_next_iff]
  exact .inr rfl

/-- The numbers from the lowest that is left up to some bound are at most the width, one, and the
distance from the last number to the bound. -/
theorem length_le_of_retained (hwidth : 0 ≤ h.width) {j : Fin h.numbers.length}
    (hfits : Word.fitsSigned (h.number j)) {l : List ℤ}
    (hl : l.Sublist (h.window (j + 1)).retained) {top : ℤ} (htop : ∀ m ∈ l, m ≤ top)
    (hj : h.number j ≤ top) : (l.length : ℤ) ≤ h.width + 1 + (top - h.number j) := by
  have hlength := length_le_of_within ((h.window_ascending (j + 1)).sublist hl) fun m hm =>
    ⟨sub_width_le_of_mem hwidth hfits (hl.subset hm), htop m hm⟩
  omega

/-- Nothing is dropped if no number lies above a later one by more than the width. -/
theorem mem_window_iff_of_near (hfits : ∀ n ∈ h.numbers, Word.fitsSigned n)
    (hnear : h.numbers.Pairwise fun earlier later => later - h.width ≤ earlier) (m : ℤ) :
    m ∈ (h.window h.numbers.length).retained ↔ m ∈ h.numbers := by
  rw [h.mem_window_iff le_rfl, List.mem_iff_get]
  constructor
  · rintro ⟨i, -, hi, -⟩
    exact ⟨i, hi⟩
  · rintro ⟨i, hi⟩
    have hfit := (Word.fitsSigned_iff _).mp (hfits _ (List.get_mem _ i))
    refine ⟨i, i.isLt, hi, fun k hik _ => (Word.saturate_le_iff hfit.1).mpr (.inl ?_)⟩
    exact List.pairwise_iff_get.mp hnear i k hik

/-- Every number from `top` down to the one that lies below `last` by the width, and then `last`. -/
def descent (width last top : ℤ) : History where
  width := width
  numbers := (List.range (width + 1 + (top - last)).toNat).map (fun k : ℕ => top - k) ++ [last]

variable {width last top : ℤ}

theorem mem_descent_iff (hwidth : 0 ≤ width) (hle : last ≤ top) (n : ℤ) :
    n ∈ (descent width last top).numbers ↔ last - width ≤ n ∧ n ≤ top := by
  rw [descent, List.mem_append, List.mem_map, List.mem_singleton]
  constructor
  · rintro (⟨k, hk, rfl⟩ | rfl)
    · have hk := List.mem_range.mp hk
      omega
    · omega
  · rintro ⟨hlow, hhigh⟩
    exact .inl ⟨(top - n).toNat, List.mem_range.mpr (by omega), by omega⟩

theorem descent_near (hwidth : 0 ≤ width) : (descent width last top).numbers.Pairwise
    fun earlier later => later - (descent width last top).width ≤ earlier := by
  change List.Pairwise (fun earlier later => later - width ≤ earlier) _
  refine List.pairwise_append.mpr ⟨?_, List.pairwise_singleton _ _, ?_⟩
  · refine List.pairwise_map.mpr (List.pairwise_lt_range.imp fun {i k} hik => ?_)
    omega
  · intro n hn final hfinal
    obtain ⟨k, hk, rfl⟩ := List.mem_map.mp hn
    have hk := List.mem_range.mp hk
    rw [List.mem_singleton.mp hfinal]
    omega

theorem descent_fits (hwidth : 0 ≤ width) (hle : last ≤ top)
    (hlow : Word.fitsSigned (last - width)) (hhigh : Word.fitsSigned top) :
    ∀ n ∈ (descent width last top).numbers, Word.fitsSigned n := by
  intro n hn
  rw [mem_descent_iff hwidth hle] at hn
  rw [Word.fitsSigned_iff] at hlow hhigh ⊢
  omega

theorem exists_last_descent (width last top : ℤ) :
    ∃ j : Fin (descent width last top).numbers.length,
      j.val + 1 = (descent width last top).numbers.length ∧
      (descent width last top).number j = last := by
  have hlength : (descent width last top).numbers.length =
      (width + 1 + (top - last)).toNat + 1 := by
    simp [descent]
  refine ⟨⟨(width + 1 + (top - last)).toNat, by omega⟩, hlength.symm, ?_⟩
  simp [number, descent]

/-- A descent leaves all the numbers from the first one to the lowest. -/
theorem descent_retained (hwidth : 0 ≤ width) (hle : last ≤ top)
    (hlow : Word.fitsSigned (last - width)) (hhigh : Word.fitsSigned top) :
    let w := (descent width last top).window (descent width last top).numbers.length
    (∀ m, m ∈ w.retained ↔ last - width ≤ m ∧ m ≤ top) ∧
      (w.retained.length : ℤ) = width + 1 + (top - last) := by
  intro w
  have hmem (m : ℤ) : m ∈ w.retained ↔ last - width ≤ m ∧ m ≤ top := by
    rw [← mem_descent_iff hwidth hle]
    exact mem_window_iff_of_near (descent_fits hwidth hle hlow hhigh) (descent_near hwidth) m
  have hlength : w.retained.length = (top + 1 - (last - width)).toNat :=
    length_eq_of_within (window_ascending _ _) hmem
  refine ⟨hmem, ?_⟩
  rw [hlength]
  omega

/-- After each number at most one more than the width of the retained numbers are not above it, so
a number that is not below any before it leaves no more than these. In all, at most so many more
are retained as the greatest lies above the number. For every width, and for all signed words as
the last number and as the greatest one, some numbers leave as many, provided that the number which
lies below the last one by the width is a signed word too. -/
theorem retained_within_width_and_distance :
    (∀ h : History, 0 ≤ h.width → (∀ n ∈ h.numbers, Word.fitsSigned n) →
      ∀ j : Fin h.numbers.length, ∃ replay w,
        ((Window.new h.width).run h.numbers)[j.val]? = some (replay, w) ∧
        ((w.retained.filter (· ≤ h.number j)).length : ℤ) ≤ h.width + 1 ∧
        ((∀ i ≤ j, h.number i ≤ h.number j) → (w.retained.length : ℤ) ≤ h.width + 1) ∧
        ∀ top, (∀ m ∈ w.retained, m ≤ top) →
          (w.retained.length : ℤ) ≤ h.width + 1 + (top - h.number j)) ∧
    ∀ width last top, 0 ≤ width → last ≤ top → Word.fitsSigned (last - width) →
      Word.fitsSigned top →
      ∃ h : History, h.width = width ∧ (∀ n ∈ h.numbers, Word.fitsSigned n) ∧
        ∃ (j : Fin h.numbers.length) (replay : Bool) (w : Window),
          ((Window.new h.width).run h.numbers)[j.val]? = some (replay, w) ∧
          h.number j = last ∧ top ∈ w.retained ∧ (∀ m ∈ w.retained, m ≤ top) ∧
          (w.retained.length : ℤ) = width + 1 + (top - last) := by
  refine ⟨fun h hwidth hfits j => ?_, fun width last top hwidth hle hlow hhigh => ?_⟩
  · have hj : Word.fitsSigned (h.number j) := hfits _ (List.getElem_mem _)
    refine ⟨_, _, h.run_getElem? j, ?_, fun hgreatest => ?_, fun top htop => ?_⟩
    · have hlength := length_le_of_retained hwidth hj List.filter_sublist
        (fun m hm => of_decide_eq_true (List.mem_filter.mp hm).2) le_rfl
      omega
    · have htop : ∀ m ∈ (h.window (j + 1)).retained, m ≤ h.number j := by
        intro m hm
        obtain ⟨i, hi, rfl, -⟩ := (h.mem_window_iff j.isLt m).mp hm
        exact hgreatest i (Nat.lt_succ_iff.mp hi)
      have hlength := length_le_of_retained hwidth hj (List.Sublist.refl _) htop le_rfl
      omega
    · exact length_le_of_retained hwidth hj (List.Sublist.refl _) htop
        (htop _ (number_mem_retained j))
  · obtain ⟨j, hj, hlast⟩ := exists_last_descent width last top
    obtain ⟨hmem, hlength⟩ := descent_retained hwidth hle hlow hhigh
    rw [← hj] at hmem hlength
    refine ⟨descent width last top, rfl, descent_fits hwidth hle hlow hhigh, j, _, _,
      run_getElem? _ j, hlast, (hmem top).mpr ⟨?_, le_rfl⟩, fun m hm => ((hmem m).mp hm).2, hlength⟩
    omega

/-- A window of width zero that observes a number and the one below it. -/
def oneDown : History := ⟨0, [1, 0]⟩

/-- Both numbers are retained, where one more than the width is one. -/
theorem one_more_than_width_exceeded :
    ¬ ∀ h : History, 0 ≤ h.width → (∀ n ∈ h.numbers, Word.fitsSigned n) →
      ∀ (j : Fin h.numbers.length) (replay : Bool) (w : Window),
        ((Window.new h.width).run h.numbers)[j.val]? = some (replay, w) →
          (w.retained.length : ℤ) ≤ h.width + 1 := by
  intro hall
  exact absurd (hall oneDown (by decide) (by decide) ⟨1, by decide⟩ false ⟨0, [0, 1]⟩ (by decide))
    (by decide)

theorem retained_within_one_down :
    (∃ replay w, ((Window.new 0).run [1, 0])[1]? = some (replay, w) ∧
      (w.retained.filter (· ≤ 0)).length = 1 ∧ (w.retained.length : ℤ) ≤ 0 + 1 + (1 - 0)) ∧
    ∃ h : History, h.width = 64 ∧ ∃ (j : Fin h.numbers.length) (replay : Bool) (w : Window),
      ((Window.new h.width).run h.numbers)[j.val]? = some (replay, w) ∧
      h.number j = Word.leastSigned + 64 ∧ Word.greatestSigned ∈ w.retained ∧
      w.retained.length = 0x10000000000000000 := by
  obtain ⟨hbound, hattained⟩ := retained_within_width_and_distance
  constructor
  · obtain ⟨replay, w, hstep, -, -, htop⟩ :=
      hbound oneDown (by decide) (by decide) ⟨1, by decide⟩
    cases hstep
    exact ⟨false, ⟨0, [0, 1]⟩, by decide, by decide, htop 1 (by decide)⟩
  · obtain ⟨h, hwidth, -, j, replay, w, hstep, hlast, htop, -, hlength⟩ :=
      hattained 64 (Word.leastSigned + 64) Word.greatestSigned (by decide) (by decide) (by decide)
        (by decide)
    refine ⟨h, hwidth, j, replay, w, hstep, hlast, htop, ?_⟩
    rw [Word.leastSigned, Word.greatestSigned] at hlength
    omega

end History
end Conformance.Replay
