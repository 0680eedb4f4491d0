import Conformance.Replay.Window
import Mathlib.Tactic

/-!
# What a window retains

The retained numbers ascend, so those that are too old stand first and dropping
them from the front loses no other. A window therefore retains the numbers that
none of the later ones made too old, and a replay is the repeat of such a number,
in whatever order the numbers come and however wide the window is.
-/
namespace Conformance.Replay

namespace Window

def Ascending (w : Window) : Prop := w.retained.Pairwise (· < ·)

/-- The window after a number. -/
def next (w : Window) (current : ℤ) : Window := (w.observe current).2

def answer (w : Window) (current : ℤ) : Bool := (w.observe current).1

/-- In ascending order the numbers below a bound stand first. -/
theorem mem_dropWhile_iff {l : List ℤ} (hl : l.Pairwise (· < ·)) (bound n : ℤ) :
    n ∈ l.dropWhile (· < bound) ↔ n ∈ l ∧ bound ≤ n := by
  induction l with
  | nil => simp
  | cons m l ih =>
    obtain ⟨hfirst, hrest⟩ := List.pairwise_cons.mp hl
    by_cases hm : m < bound
    · rw [List.dropWhile_cons_of_pos (by simpa using hm), ih hrest, List.mem_cons]
      refine and_congr_left fun hn => ?_
      have hne : n ≠ m := by omega
      simp [hne]
    · rw [List.dropWhile_cons_of_neg (by simpa using hm), iff_self_and]
      intro hn
      rcases List.mem_cons.mp hn with rfl | hn
      · exact not_lt.mp hm
      · exact (not_lt.mp hm).trans (hfirst n hn).le

theorem evict_width (w : Window) (current : ℤ) : (w.evict current).width = w.width := by
  unfold evict
  split
  · rfl
  · split <;> rfl

/-- Where the least number is not too old, none is, and there is nothing to drop. -/
theorem evict_retained (w : Window) (current : ℤ) :
    (w.evict current).retained = w.retained.dropWhile (· < w.cutoff current) := by
  unfold evict
  split
  · rename_i h
    rw [h, List.dropWhile_nil]
  · rename_i least rest h
    by_cases hold : least < w.cutoff current
    · rw [if_pos hold]
    · rw [if_neg hold, h, List.dropWhile_cons_of_neg (by simpa using hold)]

theorem mem_insert (m n : ℤ) (l : List ℤ) : m ∈ insert n l ↔ m = n ∨ m ∈ l := by
  induction l with
  | nil => simp [insert]
  | cons k l ih =>
    by_cases h : n < k
    · simp [insert, h]
    · simp only [insert, h, if_false, List.mem_cons, ih]
      exact or_left_comm

theorem pairwise_insert {n : ℤ} {l : List ℤ} (hl : l.Pairwise (· < ·)) (hn : n ∉ l) :
    (insert n l).Pairwise (· < ·) := by
  induction l with
  | nil => exact List.pairwise_singleton _ _
  | cons k l ih =>
    obtain ⟨hfirst, hrest⟩ := List.pairwise_cons.mp hl
    obtain ⟨hne, hnl⟩ := not_or.mp (mt List.mem_cons.mpr hn)
    by_cases h : n < k
    · rw [insert, if_pos h]
      refine List.pairwise_cons.mpr ⟨fun m hm => ?_, hl⟩
      rcases List.mem_cons.mp hm with rfl | hm
      · exact h
      · exact h.trans (hfirst m hm)
    · rw [insert, if_neg h]
      refine List.pairwise_cons.mpr ⟨fun m hm => ?_, ih hrest hnl⟩
      rcases (mem_insert m n l).mp hm with rfl | hm
      · omega
      · exact hfirst m hm

/-- A number is a replay if eviction leaves it, and is retained if it was not there yet. -/
theorem observe_cases (w : Window) (current : ℤ) :
    (current ∈ (w.evict current).retained ∧ w.observe current = (true, w.evict current)) ∨
    (current ∉ (w.evict current).retained ∧ w.observe current =
      (false, ⟨w.width, insert current (w.evict current).retained⟩)) := by
  by_cases h : current ∈ (w.evict current).retained
  · exact .inl ⟨h, by simp [observe, h]⟩
  · exact .inr ⟨h, by simp [observe, h, evict_width]⟩

variable {w : Window}

theorem ascending_new (width : ℤ) : (new width).Ascending := List.Pairwise.nil

theorem Ascending.mem_evict (h : w.Ascending) (current n : ℤ) :
    n ∈ (w.evict current).retained ↔ n ∈ w.retained ∧ w.cutoff current ≤ n := by
  rw [evict_retained, mem_dropWhile_iff h]

theorem Ascending.evict (h : w.Ascending) (current : ℤ) : (w.evict current).Ascending := by
  unfold Ascending
  rw [evict_retained]
  exact h.sublist (List.dropWhile_sublist _)

theorem Ascending.next (h : w.Ascending) (current : ℤ) : (w.next current).Ascending := by
  unfold Window.next
  rcases observe_cases w current with ⟨-, hw⟩ | ⟨hnew, hw⟩
  · rw [hw]
    exact h.evict current
  · rw [hw]
    exact pairwise_insert (h.evict current) hnew

theorem next_width (w : Window) (current : ℤ) : (w.next current).width = w.width := by
  unfold next
  rcases observe_cases w current with ⟨-, hw⟩ | ⟨-, hw⟩
  · rw [hw]
    exact evict_width w current
  · rw [hw]

theorem Ascending.answer_iff (h : w.Ascending) (current : ℤ) :
    w.answer current = true ↔ current ∈ w.retained ∧ w.cutoff current ≤ current := by
  rw [← h.mem_evict]
  unfold answer
  rcases observe_cases w current with ⟨hmem, hw⟩ | ⟨hmem, hw⟩
  · simp [hw, hmem]
  · simp [hw, hmem]

/-- A number is retained from where it is observed, even if it is below its own cutoff. -/
theorem Ascending.mem_next_iff (h : w.Ascending) (current n : ℤ) :
    n ∈ (w.next current).retained ↔
      (n ∈ w.retained ∧ w.cutoff current ≤ n) ∨ n = current := by
  rw [← h.mem_evict]
  unfold Window.next
  rcases observe_cases w current with ⟨hmem, hw⟩ | ⟨-, hw⟩
  · rw [hw]
    exact ⟨.inl, fun hn => hn.elim id fun heq => heq ▸ hmem⟩
  · rw [hw]
    exact (mem_insert n current _).trans or_comm

theorem run_length (w : Window) (numbers : List ℤ) : (w.run numbers).length = numbers.length := by
  induction numbers generalizing w with
  | nil => rfl
  | cons n numbers ih => rw [run, List.length_cons, List.length_cons, ih]

theorem run_append (w : Window) (numbers later : List ℤ) :
    w.run (numbers ++ later) = w.run numbers ++ (numbers.foldl next w).run later := by
  induction numbers generalizing w with
  | nil => rfl
  | cons n numbers ih =>
    rw [List.cons_append, run, run, ih, List.cons_append, List.foldl_cons]
    rfl

/-- A run answers each number by the window that the numbers before it leave. -/
theorem run_getElem? (w : Window) (numbers : List ℤ) (j : Fin numbers.length) :
    (w.run numbers)[j.val]? =
      some (((numbers.take j).foldl next w).observe numbers[j]) := by
  induction numbers generalizing w with
  | nil => exact j.elim0
  | cons n numbers ih =>
    cases j using Fin.cases with
    | zero => rfl
    | succ j => exact ih (w.next n) j

end Window

/-- A fresh window and the numbers that it observes. -/
structure History where
  width : ℤ
  numbers : List ℤ

namespace History

variable (h : History)

def number (i : Fin h.numbers.length) : ℤ := h.numbers[i]

/-- The window when `n` numbers have been observed. -/
def window (n : ℕ) : Window := (h.numbers.take n).foldl Window.next (.new h.width)

/-- A number is kept when `n` numbers have been observed if it is not below the cutoff of any of
those after it. -/
def Kept (n : ℕ) (i : Fin h.numbers.length) : Prop :=
  ∀ k, i < k → k.val < n → Word.saturate (h.number k - h.width) ≤ h.number i

/-- The number repeats an earlier one that is kept up to here. -/
def Replayed (j : Fin h.numbers.length) : Prop :=
  ∃ i < j, h.number i = h.number j ∧ h.Kept (j + 1) i

theorem window_succ (i : Fin h.numbers.length) :
    h.window (i + 1) = (h.window i).next (h.number i) := by
  unfold window
  rw [List.take_succ_eq_append_getElem i.isLt, List.foldl_append]
  rfl

/-- What a fresh window has and every number keeps, the window always has. -/
theorem window_of_next {P : Window → Prop} (hnew : P (.new h.width))
    (hnext : ∀ w n, P w → P (w.next n)) (n : ℕ) : P (h.window n) := by
  unfold window
  induction h.numbers.take n using List.reverseRecOn with
  | nil => exact hnew
  | append_singleton numbers n ih =>
    rw [List.foldl_append, List.foldl_cons, List.foldl_nil]
    exact hnext _ n ih

theorem window_ascending (n : ℕ) : (h.window n).Ascending :=
  h.window_of_next (Window.ascending_new _) (fun _ n hw => hw.next n) n

theorem window_cutoff (n : ℕ) (current : ℤ) :
    (h.window n).cutoff current = Word.saturate (current - h.width) := by
  have hwidth : (h.window n).width = h.width := by
    apply h.window_of_next (P := fun w => w.width = h.width) rfl
    intro w n hw
    rw [w.next_width, hw]
  rw [Window.cutoff, hwidth]

theorem kept_self (i : Fin h.numbers.length) : h.Kept (i + 1) i := by
  intro k hik hk
  have hlt : i.val < k.val := hik
  omega

/-- One more number keeps an earlier one unless it makes it too old. -/
theorem kept_succ {i j : Fin h.numbers.length} (hij : i < j) :
    h.Kept (j + 1) i ↔
      h.Kept j i ∧ Word.saturate (h.number j - h.width) ≤ h.number i := by
  constructor
  · intro hkept
    exact ⟨fun k hik hk => hkept k hik (by omega), hkept j hij (by omega)⟩
  · rintro ⟨hkept, hj⟩ k hik hk
    rcases Nat.lt_succ_iff_lt_or_eq.mp hk with hlt | heq
    · exact hkept k hik hlt
    · rw [Fin.ext heq]
      exact hj

theorem mem_window_iff {n : ℕ} (hn : n ≤ h.numbers.length) (m : ℤ) :
    m ∈ (h.window n).retained ↔ ∃ i, i.val < n ∧ h.number i = m ∧ h.Kept n i := by
  induction n generalizing m with
  | zero => simp [window, Window.new]
  | succ n ih =>
    let j : Fin h.numbers.length := ⟨n, hn⟩
    have hnext : m ∈ (h.window (n + 1)).retained ↔
        (m ∈ (h.window n).retained ∧ Word.saturate (h.number j - h.width) ≤ m) ∨
          m = h.number j := by
      rw [h.window_succ j, (h.window_ascending j).mem_next_iff, window_cutoff]
    rw [hnext, ih (by omega)]
    constructor
    · rintro (⟨⟨i, hi, rfl, hkept⟩, hm⟩ | rfl)
      · exact ⟨i, by omega, rfl, (h.kept_succ (j := j) hi).mpr ⟨hkept, hm⟩⟩
      · exact ⟨j, Nat.lt_succ_self n, rfl, h.kept_self j⟩
    · rintro ⟨i, hi, rfl, hkept⟩
      rcases Nat.lt_succ_iff_lt_or_eq.mp hi with hlt | heq
      · obtain ⟨hbefore, hm⟩ := (h.kept_succ (j := j) hlt).mp hkept
        exact .inl ⟨⟨i, hlt, rfl, hbefore⟩, hm⟩
      · exact .inr (congrArg h.number (Fin.ext heq))

theorem answer_iff (j : Fin h.numbers.length) :
    (h.window j).answer (h.number j) = true ↔ h.Replayed j := by
  rw [(h.window_ascending j).answer_iff, window_cutoff, h.mem_window_iff j.isLt.le]
  constructor
  · rintro ⟨⟨i, hij, heq, hkept⟩, hj⟩
    exact ⟨i, hij, heq, (h.kept_succ hij).mpr ⟨hkept, heq ▸ hj⟩⟩
  · rintro ⟨i, hij, heq, hkept⟩
    obtain ⟨hbefore, hj⟩ := (h.kept_succ hij).mp hkept
    exact ⟨⟨i, hij, heq, hbefore⟩, heq ▸ hj⟩

theorem run_getElem? (j : Fin h.numbers.length) :
    ((Window.new h.width).run h.numbers)[j.val]? =
      some ((h.window j).answer (h.number j), h.window (j + 1)) := by
  rw [window_succ]
  exact Window.run_getElem? _ _ j

theorem detect_iff : detect h.width h.numbers = true ↔ ∃ j, h.Replayed j := by
  simp only [← answer_iff]
  rw [detect, List.any_eq_true]
  constructor
  · rintro ⟨step, hmem, hstep⟩
    obtain ⟨n, hn⟩ := List.mem_iff_getElem?.mp hmem
    have hlen : n < h.numbers.length := by
      rw [← Window.run_length (.new h.width)]
      exact (List.getElem?_eq_some_iff.mp hn).1
    have heq := (h.run_getElem? ⟨n, hlen⟩).symm.trans hn
    exact ⟨⟨n, hlen⟩, by rwa [← Option.some.inj heq] at hstep⟩
  · rintro ⟨j, hj⟩
    exact ⟨_, List.mem_of_getElem? (h.run_getElem? j), hj⟩

theorem detect_append {width : ℤ} {numbers : List ℤ} (later : List ℤ)
    (hdetect : detect width numbers = true) : detect width (numbers ++ later) = true := by
  rw [detect] at hdetect
  rw [detect, Window.run_append, List.any_append, hdetect, Bool.true_or]

/-- Every answer and every retained number follows from the numbers observed so far, and what is
detected stays detected. -/
theorem replays_and_retained (h : History) :
    (∀ j : Fin h.numbers.length, ∃ replay w,
      ((Window.new h.width).run h.numbers)[j.val]? = some (replay, w) ∧
      (replay = true ↔ h.Replayed j) ∧ w.retained.Pairwise (· < ·) ∧
      ∀ m, m ∈ w.retained ↔ ∃ i ≤ j, h.number i = m ∧ h.Kept (j + 1) i) ∧
    (detect h.width h.numbers = true ↔ ∃ j, h.Replayed j) ∧
    ∀ later, detect h.width h.numbers = true → detect h.width (h.numbers ++ later) = true := by
  refine ⟨fun j => ⟨_, _, h.run_getElem? j, h.answer_iff j, h.window_ascending _, fun m => ?_⟩,
    h.detect_iff, fun later hdetect => detect_append later hdetect⟩
  rw [h.mem_window_iff j.isLt]
  simp only [Nat.lt_succ_iff, Fin.le_def]

/-- The least number is repeated when it is just not too old, and again when it has become so. -/
def atTheEdge : History := ⟨5, [1, 6, 1, 7, 1]⟩

theorem replay_at_the_edge : atTheEdge.Replayed ⟨2, by decide⟩ ∧
    ¬ atTheEdge.Replayed ⟨4, by decide⟩ ∧ detect 5 (atTheEdge.numbers ++ [-100]) = true := by
  obtain ⟨hrun, -, hlater⟩ := replays_and_retained atTheEdge
  refine ⟨?_, ?_, hlater [-100] (by decide)⟩
  · obtain ⟨replay, w, hstep, hreplay, -⟩ := hrun ⟨2, by decide⟩
    cases hstep
    exact hreplay.mp (by decide)
  · obtain ⟨replay, w, hstep, hreplay, -⟩ := hrun ⟨4, by decide⟩
    cases hstep
    exact mt hreplay.mpr (by decide)

end History
end Conformance.Replay
