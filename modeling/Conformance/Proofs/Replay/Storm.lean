import Conformance.Replay.Storm
import Mathlib.Tactic

/-!
# Storms in exact numbers

In exact numbers a queue that starts empty grows by the same amount in every
millisecond, until it reaches its limit, and from then on it drops that amount.
What it dropped after some milliseconds is therefore what the whole burst exceeds
the limit and the service by, which is how the closed form counts.
-/
namespace Conformance.Replay
open Quantity

theorem larger_eq_max (a b : ℚ) : larger a b = max a b := by
  rw [max_def_lt]
  rfl

theorem smaller_eq_min (a b : ℚ) : smaller a b = min a b := by
  rw [min_comm, min_def_lt]
  rfl

theorem isPositive_iff (a : ℚ) : isPositive a = true ↔ 0 < a := Iff.rfl

theorem atMost_iff (a b : ℚ) : atMost a b = true ↔ a ≤ b := by
  rw [← not_lt, ← Bool.not_eq_false, not_iff_not]
  change (!Rat.blt b a) = false ↔ Rat.blt b a = true
  rw [Bool.not_eq_false']

namespace Queue

variable (q : Queue ℚ) (b : ℚ)

/-- What a millisecond leaves waiting before anything is dropped. -/
def left (t : Traffic ℚ) : ℚ := max (t.pending + b - q.capacityPerMs) 0

/-- By how much a queue that is not yet full grows in a millisecond. -/
def growth : ℚ := max (b - q.capacityPerMs) 0

theorem sub_smaller_eq_left (t : Traffic ℚ) :
    t.pending + b - min (t.pending + b) q.capacityPerMs = q.left b t := by
  rw [← max_sub_sub_left, sub_self, max_comm, left]

theorem tick_eq (t : Traffic ℚ) :
    q.tick b t =
      { pending := min (q.left b t) q.limit
        processed := t.processed + min (t.pending + b) q.capacityPerMs
        dropped := t.dropped + max (q.left b t - q.limit) 0
        total := t.total + b
        deepest := max t.deepest (min (q.left b t) q.limit)
        waiting := t.waiting + min (q.left b t) q.limit } := by
  have hpending : q.left b t - max (q.left b t - q.limit) 0 = min (q.left b t) q.limit := by
    rw [← min_sub_sub_left, sub_sub_cancel, sub_zero, min_comm]
  rw [← hpending, ← sub_smaller_eq_left]
  simp only [tick, larger_eq_max, smaller_eq_min]

theorem run_succ (n : ℕ) (t : Traffic ℚ) : q.run b (n + 1) t = q.tick b (q.run b n t) := by
  induction n generalizing t with
  | zero => rfl
  | succ n ih => exact ih (q.tick b t)

theorem growth_nonneg : 0 ≤ q.growth b := le_max_right _ _

/-- The traffic of `n` milliseconds: the queue has grown steadily up to its limit, and what would
have taken it further was dropped. -/
structure Steady (n : ℕ) (t : Traffic ℚ) : Prop where
  pending_eq : t.pending = min (n * q.growth b) q.limit
  dropped_eq : t.dropped = max (n * q.growth b - q.limit) 0
  total_eq : t.total = b * n

variable {q b}

theorem steady_none (hlimit : 0 ≤ q.limit) : q.Steady b 0 .none := by
  constructor
  · rw [Nat.cast_zero, zero_mul, min_eq_left hlimit]
    rfl
  · rw [Nat.cast_zero, zero_mul, max_eq_right (by linarith)]
    rfl
  · rw [Nat.cast_zero, mul_zero]
    rfl

/-- A queue that is served faster than it fills is empty, and any other one is served in full. -/
theorem Steady.left_eq {n : ℕ} {t : Traffic ℚ} (h : q.Steady b n t) (hlimit : 0 ≤ q.limit) :
    q.left b t = t.pending + q.growth b := by
  by_cases hserved : b ≤ q.capacityPerMs
  · have hgrowth : q.growth b = 0 := max_eq_right (by linarith)
    have hempty : t.pending = 0 := by
      rw [h.pending_eq, hgrowth, mul_zero, min_eq_left hlimit]
    rw [left, hempty, zero_add, zero_add, growth]
  · have hgrowth : q.growth b = b - q.capacityPerMs := max_eq_left (by linarith)
    have hnonneg : 0 ≤ t.pending := by
      rw [h.pending_eq]
      exact le_min (mul_nonneg n.cast_nonneg (q.growth_nonneg b)) hlimit
    rw [left, hgrowth, max_eq_left (by linarith)]
    ring

theorem Steady.tick {n : ℕ} {t : Traffic ℚ} (h : q.Steady b n t) (hlimit : 0 ≤ q.limit) :
    q.Steady b (n + 1) (q.tick b t) := by
  have hgrowth := q.growth_nonneg b
  have hleft := h.left_eq hlimit
  have hsucc : ((n + 1 : ℕ) : ℚ) * q.growth b = n * q.growth b + q.growth b := by
    push_cast
    ring
  have htotal : t.total + b = b * (n + 1 : ℕ) := by
    rw [h.total_eq]
    push_cast
    ring
  rw [tick_eq]
  rcases le_total (n * q.growth b) q.limit with hroom | hfull
  · have hpending : t.pending = n * q.growth b := by rw [h.pending_eq, min_eq_left hroom]
    have hdropped : t.dropped = 0 := by rw [h.dropped_eq, max_eq_right (by linarith)]
    rw [hleft, hpending, hdropped, zero_add, ← hsucc]
    exact ⟨rfl, rfl, htotal⟩
  · have hpending : t.pending = q.limit := by rw [h.pending_eq, min_eq_right hfull]
    have hdropped : t.dropped = n * q.growth b - q.limit := by
      rw [h.dropped_eq, max_eq_left (by linarith)]
    rw [hleft, hpending, hdropped]
    constructor
    · change min (q.limit + q.growth b) q.limit = _
      rw [hsucc, min_eq_right (by linarith), min_eq_right (by linarith)]
    · change n * q.growth b - q.limit + max (q.limit + q.growth b - q.limit) 0 = _
      rw [hsucc, add_sub_cancel_left, max_eq_left hgrowth, max_eq_left (by linarith)]
      ring
    · exact htotal

theorem steady_run (hlimit : 0 ≤ q.limit) (n : ℕ) : q.Steady b n (q.run b n .none) := by
  induction n with
  | zero => exact steady_none hlimit
  | succ n ih =>
    rw [run_succ]
    exact ih.tick hlimit

/-- What is dropped of the whole burst is what it exceeds the service and the limit by. -/
theorem Steady.dropped_eq_excess {n : ℕ} {t : Traffic ℚ} (h : q.Steady b n t)
    (hlimit : 0 ≤ q.limit) : t.dropped = max (b * n - (q.capacityPerMs * n + q.limit)) 0 := by
  rw [h.dropped_eq]
  by_cases hserved : b ≤ q.capacityPerMs
  · have hgrowth : q.growth b = 0 := max_eq_right (by linarith)
    have hwork : b * n ≤ q.capacityPerMs * n := mul_le_mul_of_nonneg_right hserved n.cast_nonneg
    rw [hgrowth, max_eq_right (by linarith), max_eq_right (by linarith)]
  · have hgrowth : q.growth b = b - q.capacityPerMs := max_eq_left (by linarith)
    rw [hgrowth]
    congr 1
    ring

end Queue

theorem StormModel.evaluate_eq (m : StormModel ℚ) (b duration : ℚ) :
    m.evaluate b duration =
      let excess := max (b * duration - (m.capacityPerMs * duration + m.window)) 0
      { total := b * duration
        capacity := m.capacityPerMs * duration + m.window
        dropRatio := if b * duration ≤ 0 then 0 else min (excess / (b * duration)) 1 } := by
  simp only [StormModel.evaluate, larger_eq_max, smaller_eq_min, atMost_iff]

theorem Traffic.dropRatio_eq (t : Traffic ℚ) :
    t.dropRatio = if t.total ≤ 0 then 0 else min (t.dropped / t.total) 1 := by
  unfold Traffic.dropRatio
  by_cases h : t.total ≤ 0
  · rw [if_pos h, if_neg (mt (isPositive_iff _).mp (not_lt.mpr h))]
  · rw [if_neg h, if_pos ((isPositive_iff _).mpr (not_le.mp h)), smaller_eq_min]

/-- In exact numbers, a queue that starts empty and a window of the size of its limit lose the same
share of every burst, and the queue has dropped what the burst exceeds its service and its limit
by. -/
theorem queue_agrees_with_window (factor window b c : ℚ) (limit : ℤ) (n : ℕ) (hc : 0 ≤ c)
    (hlimit : 1 ≤ limit) :
    let traffic := (Queue.new factor window c (some (limit : ℚ))).run b n .none
    let outcome := (StormModel.mk (limit : ℚ) c).evaluate b n
    traffic.dropRatio = outcome.dropRatio ∧ traffic.total = outcome.total ∧
      traffic.dropped = max 0 (b * n - (c * n + limit)) := by
  intro traffic outcome
  let q := Queue.new factor window c (some (limit : ℚ))
  have hone : (1 : ℚ) ≤ limit := by exact_mod_cast hlimit
  have hcapacity : q.capacityPerMs = c := by
    change larger c 0 = c
    rw [larger_eq_max]
    exact max_eq_left hc
  have hqueue : q.limit = limit := by
    change larger (limit : ℚ) 1 = limit
    rw [larger_eq_max]
    exact max_eq_left hone
  have hroom : 0 ≤ q.limit := by linarith
  have hsteady : q.Steady b n traffic := Queue.steady_run hroom n
  have hdropped : traffic.dropped = max (b * n - (c * n + limit)) 0 := by
    rw [hsteady.dropped_eq_excess hroom, hcapacity, hqueue]
  have houtcome := StormModel.evaluate_eq ⟨limit, c⟩ b n
  refine ⟨?_, ?_, ?_⟩
  · rw [Traffic.dropRatio_eq, hsteady.total_eq, hdropped]
    exact (congrArg StormOutcome.dropRatio houtcome).symm
  · rw [hsteady.total_eq]
    exact (congrArg StormOutcome.total houtcome).symm
  · rw [hdropped, max_comm]

/-- Twice what is served, for ten milliseconds, with room for what two of them leave. -/
theorem queue_agrees_with_window_overload :
    (0 : ℚ) ≤ 50 ∧ (1 : ℤ) ≤ 100 ∧
    let traffic := (Queue.new 8 64 50 (some ((100 : ℤ) : ℚ))).run 100 10 .none
    let outcome := (StormModel.mk ((100 : ℤ) : ℚ) 50).evaluate 100 (10 : ℕ)
    traffic.dropped = 400 ∧ traffic.dropRatio = 2 / 5 ∧ outcome.dropRatio = 2 / 5 := by
  have hagree := queue_agrees_with_window 8 64 100 50 100 10 (by norm_num) (by norm_num)
  obtain ⟨hratio, -, hdropped⟩ := hagree
  have houtcome : ((StormModel.mk ((100 : ℤ) : ℚ) 50).evaluate 100 (10 : ℕ)).dropRatio = 2 / 5 := by
    rw [StormModel.evaluate_eq]
    norm_num
  refine ⟨by norm_num, by norm_num, ?_, hratio.trans houtcome, houtcome⟩
  rw [hdropped]
  norm_num

end Conformance.Replay
