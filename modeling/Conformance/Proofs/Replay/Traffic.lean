import Conformance.Proofs.Replay.Storm
import Mathlib.Order.Bounds.Basic

/-!
# Traffic is conserved

In exact numbers a queue accounts for all that arrives: after every millisecond what
was served, what was dropped and what waits add up to the whole burst so far, and what
waits fits the queue. So the ratios are the shares of the burst that were dropped and
that were served, and what is missing from their sum is the share that waits.
-/
namespace Conformance.Replay
open Quantity

namespace Queue

theorem capacityPerMs_new (factor window c : ℚ) (limit : Option ℚ) :
    (Queue.new factor window c limit).capacityPerMs = max c 0 :=
  larger_eq_max c 0

theorem limit_new (factor window c : ℚ) (limit : Option ℚ) :
    (Queue.new factor window c limit).limit = max (limit.getD (window * factor)) 1 :=
  larger_eq_max _ 1

variable (q : Queue ℚ) (b : ℚ)

/-- The traffic of bursts at rate `b`, all of it accounted for. -/
structure Accounts (t : Traffic ℚ) : Prop where
  sum_eq_total : t.processed + t.dropped + t.pending = t.total
  pending_nonneg : 0 ≤ t.pending
  pending_le_limit : t.pending ≤ q.limit
  dropped_nonneg : 0 ≤ t.dropped
  processed_nonneg : 0 ≤ b → 0 ≤ t.processed

variable {q b}

theorem accounts_none (hlimit : 0 ≤ q.limit) : q.Accounts b .none where
  sum_eq_total := by
    change (0 : ℚ) + 0 + 0 = 0
    norm_num
  pending_nonneg := le_rfl
  pending_le_limit := hlimit
  dropped_nonneg := le_rfl
  processed_nonneg _ := le_rfl

theorem min_add_max_sub (a limit : ℚ) : min a limit + max (a - limit) 0 = a := by
  by_cases h : a ≤ limit
  · rw [min_eq_left h, max_eq_right (by linarith), add_zero]
  · rw [min_eq_right (by linarith), max_eq_left (by linarith), add_sub_cancel]

/-- What arrives in a millisecond, with what waited before, is served, dropped or left waiting. -/
theorem Accounts.tick {t : Traffic ℚ} (h : q.Accounts b t) (hcapacity : 0 ≤ q.capacityPerMs)
    (hlimit : 0 ≤ q.limit) : q.Accounts b (q.tick b t) := by
  have hleft : 0 ≤ q.left b t := le_max_right _ _
  have hserved : t.pending + b - min (t.pending + b) q.capacityPerMs = q.left b t :=
    q.sub_smaller_eq_left b t
  have hkept := min_add_max_sub (q.left b t) q.limit
  rw [tick_eq]
  constructor
  · have hbefore := h.sum_eq_total
    dsimp only
    linarith
  · exact le_min hleft hlimit
  · exact min_le_right _ _
  · exact add_nonneg h.dropped_nonneg (le_max_right _ _)
  · intro hb
    have harrived : 0 ≤ t.pending + b := add_nonneg h.pending_nonneg hb
    exact add_nonneg (h.processed_nonneg hb) (le_min harrived hcapacity)

theorem accounts_run (hcapacity : 0 ≤ q.capacityPerMs) (hlimit : 0 ≤ q.limit) (n : ℕ) :
    q.Accounts b (q.run b n .none) := by
  induction n with
  | zero => exact accounts_none hlimit
  | succ n ih =>
    rw [run_succ]
    exact ih.tick hcapacity hlimit

variable (q b) in
/-- The depth that is reported is the greatest that the queue has had, at first or after some
millisecond. -/
theorem isGreatest_deepest (n : ℕ) :
    IsGreatest {depth | ∃ k ≤ n, (q.run b k .none).pending = depth} (q.run b n .none).deepest := by
  induction n with
  | zero =>
    constructor
    · exact ⟨0, le_rfl, rfl⟩
    · rintro depth ⟨k, hk, rfl⟩
      rw [Nat.le_zero.mp hk]
      exact le_rfl
  | succ n ih =>
    have hdeepest : (q.run b (n + 1) .none).deepest =
        max (q.run b n .none).deepest (q.run b (n + 1) .none).pending := by
      rw [run_succ, tick_eq]
    rw [hdeepest]
    constructor
    · obtain ⟨k, hk, hdepth⟩ := ih.1
      by_cases hlast : (q.run b n .none).deepest ≤ (q.run b (n + 1) .none).pending
      · rw [max_eq_right hlast]
        exact ⟨n + 1, le_rfl, rfl⟩
      · rw [max_eq_left (le_of_not_ge hlast)]
        exact ⟨k, hk.trans n.le_succ, hdepth⟩
    · rintro depth ⟨k, hk, rfl⟩
      by_cases hlast : k = n + 1
      · rw [hlast]
        exact le_max_right _ _
      · exact (ih.2 ⟨k, by omega, rfl⟩).trans (le_max_left _ _)

/-- Nothing is dropped of a burst that is served as fast as it arrives. -/
theorem Steady.dropped_eq_zero {n : ℕ} {t : Traffic ℚ} (h : q.Steady b n t) (hlimit : 0 ≤ q.limit)
    (hserved : b ≤ q.capacityPerMs) : t.dropped = 0 := by
  have hgrowth : q.growth b = 0 := max_eq_right (by linarith)
  rw [h.dropped_eq, hgrowth, mul_zero, zero_sub]
  exact max_eq_right (by linarith)

end Queue

theorem Traffic.deliveryRatio_eq (t : Traffic ℚ) :
    t.deliveryRatio = if t.total ≤ 0 then 0 else t.processed / t.total := by
  unfold Traffic.deliveryRatio
  by_cases h : t.total ≤ 0
  · rw [if_pos h, if_neg (mt (isPositive_iff _).mp (not_lt.mpr h))]
  · rw [if_neg h, if_pos ((isPositive_iff _).mpr (not_le.mp h))]

namespace Queue.Accounts

variable {q : Queue ℚ} {b : ℚ} {t : Traffic ℚ}

/-- No more is dropped than has arrived, so that the ratio needs no bound. -/
theorem dropRatio_eq_div (h : q.Accounts b t) (hb : 0 ≤ b) (htotal : 0 < t.total) :
    t.dropRatio = t.dropped / t.total := by
  have hsum := h.sum_eq_total
  have hprocessed := h.processed_nonneg hb
  have hpending := h.pending_nonneg
  rw [t.dropRatio_eq, if_neg (not_le.mpr htotal), min_eq_left]
  rw [div_le_one htotal]
  linarith

/-- What is dropped, what is delivered and what waits are the whole of a burst. -/
theorem ratios_add_eq (h : q.Accounts b t) (hb : 0 ≤ b) (htotal : 0 < t.total) :
    t.dropRatio + t.deliveryRatio + t.pending / t.total = 1 := by
  rw [h.dropRatio_eq_div hb htotal, t.deliveryRatio_eq, if_neg (not_le.mpr htotal), ← add_div,
    ← add_div, add_comm t.dropped, h.sum_eq_total, div_self htotal.ne']

theorem dropRatio_nonneg (h : q.Accounts b t) : 0 ≤ t.dropRatio := by
  rw [t.dropRatio_eq]
  split_ifs with htotal
  · exact le_rfl
  · exact le_min (div_nonneg h.dropped_nonneg (le_of_not_ge htotal)) zero_le_one

theorem deliveryRatio_nonneg (h : q.Accounts b t) (hb : 0 < t.total → 0 ≤ b) :
    0 ≤ t.deliveryRatio := by
  rw [t.deliveryRatio_eq]
  split_ifs with htotal
  · exact le_rfl
  · rw [not_le] at htotal
    exact div_nonneg (h.processed_nonneg (hb htotal)) htotal.le

/-- The ratios add up to one if something arrived and nothing of it waits. -/
theorem ratios_add_eq_one_iff (h : q.Accounts b t) (hb : 0 < t.total → 0 ≤ b) :
    t.dropRatio + t.deliveryRatio = 1 ↔ 0 < t.total ∧ t.pending = 0 := by
  by_cases htotal : 0 < t.total
  · have hshares := h.ratios_add_eq (hb htotal) htotal
    have hpending : t.pending / t.total = 0 ↔ t.pending = 0 := by simp [htotal.ne']
    rw [← hpending]
    constructor
    · intro hone
      exact ⟨htotal, by linarith⟩
    · rintro ⟨-, hzero⟩
      linarith
  · rw [t.dropRatio_eq, t.deliveryRatio_eq, if_pos (not_lt.mp htotal), if_pos (not_lt.mp htotal)]
    simp [htotal]

theorem ratios_add_le_one (h : q.Accounts b t) (hb : 0 < t.total → 0 ≤ b) :
    t.dropRatio + t.deliveryRatio ≤ 1 := by
  by_cases htotal : 0 < t.total
  · have hshares := h.ratios_add_eq (hb htotal) htotal
    have hwaiting : 0 ≤ t.pending / t.total := div_nonneg h.pending_nonneg htotal.le
    linarith
  · rw [t.dropRatio_eq, t.deliveryRatio_eq, if_pos (not_lt.mp htotal), if_pos (not_lt.mp htotal)]
    norm_num

end Queue.Accounts

/-- In exact numbers, whatever the parameters and the rate of the burst: after each millisecond all
that has arrived was served, was dropped or waits, and what waits fits the queue. At the end the
greatest depth is one that the queue had and fits as well, the two ratios are the shares of the
burst that were dropped and that were served, they add up to one exactly if something arrived and
nothing waits, and a burst that is served as fast as it arrives loses nothing. -/
theorem traffic_conserved (factor window c : ℚ) (limit : Option ℚ) (b : ℚ) (n : ℕ) :
    let q := Queue.new factor window c limit
    let traffic (k : ℕ) := q.run b k .none
    q.capacityPerMs = max c 0 ∧ q.limit = max (limit.getD (window * factor)) 1 ∧
    (∀ k ≤ n, (traffic k).processed + (traffic k).dropped + (traffic k).pending =
        (traffic k).total ∧ (traffic k).total = b * k ∧
      0 ≤ (traffic k).pending ∧ (traffic k).pending ≤ q.limit) ∧
    IsGreatest {depth | ∃ k ≤ n, (traffic k).pending = depth} (traffic n).deepest ∧
    (traffic n).deepest ≤ q.limit ∧
    (0 < (traffic n).total → (traffic n).dropRatio = (traffic n).dropped / (traffic n).total ∧
      (traffic n).deliveryRatio = (traffic n).processed / (traffic n).total) ∧
    ((traffic n).total ≤ 0 → (traffic n).dropRatio = 0 ∧ (traffic n).deliveryRatio = 0) ∧
    (0 ≤ (traffic n).dropRatio ∧ (traffic n).dropRatio ≤ 1) ∧
    (0 ≤ (traffic n).deliveryRatio ∧ (traffic n).deliveryRatio ≤ 1) ∧
    (traffic n).dropRatio + (traffic n).deliveryRatio ≤ 1 ∧
    ((traffic n).dropRatio + (traffic n).deliveryRatio = 1 ↔
      0 < (traffic n).total ∧ (traffic n).pending = 0) ∧
    (b ≤ q.capacityPerMs → (traffic n).dropRatio = 0) := by
  intro q traffic
  have hcapacity_eq : q.capacityPerMs = max c 0 := Queue.capacityPerMs_new factor window c limit
  have hlimit_eq : q.limit = max (limit.getD (window * factor)) 1 :=
    Queue.limit_new factor window c limit
  have hcapacity : 0 ≤ q.capacityPerMs := hcapacity_eq ▸ le_max_right _ _
  have hlimit : 0 ≤ q.limit := hlimit_eq ▸ zero_le_one.trans (le_max_right _ _)
  have haccounts (k : ℕ) : q.Accounts b (traffic k) := Queue.accounts_run hcapacity hlimit k
  have hsteady (k : ℕ) : q.Steady b k (traffic k) := Queue.steady_run hlimit k
  have hgreatest := q.isGreatest_deepest b n
  have hrate : 0 < (traffic n).total → 0 ≤ b := by
    rw [(hsteady n).total_eq]
    intro htotal
    exact (pos_of_mul_pos_left htotal n.cast_nonneg).le
  have hdrop := (haccounts n).dropRatio_nonneg
  have hdelivery := (haccounts n).deliveryRatio_nonneg hrate
  have hsum := (haccounts n).ratios_add_le_one hrate
  refine ⟨hcapacity_eq, hlimit_eq, fun k _ => ?_, hgreatest, ?_, fun htotal => ?_, fun htotal => ?_,
    ⟨hdrop, by linarith⟩, ⟨hdelivery, by linarith⟩, hsum,
    (haccounts n).ratios_add_eq_one_iff hrate, fun hserved => ?_⟩
  · exact ⟨(haccounts k).sum_eq_total, (hsteady k).total_eq, (haccounts k).pending_nonneg,
      (haccounts k).pending_le_limit⟩
  · obtain ⟨k, -, hdepth⟩ := hgreatest.1
    rw [← hdepth]
    exact (haccounts k).pending_le_limit
  · refine ⟨(haccounts n).dropRatio_eq_div (hrate htotal) htotal, ?_⟩
    rw [Traffic.deliveryRatio_eq, if_neg (not_le.mpr htotal)]
  · rw [Traffic.dropRatio_eq, Traffic.deliveryRatio_eq, if_pos htotal, if_pos htotal]
    exact ⟨rfl, rfl⟩
  · rw [Traffic.dropRatio_eq, (hsteady n).dropped_eq_zero hlimit hserved, zero_div]
    simp

/-- Twice what is served, for ten milliseconds, with room for what two of them leave: some of it
still waits at the end. At less than what is served nothing is dropped. -/
theorem traffic_conserved_overload :
    let q : Queue ℚ := Queue.new 8 64 50 (some 100)
    let traffic (k : ℕ) := q.run 100 k .none
    3 ≤ 10 ∧ (traffic 3).processed + (traffic 3).dropped + (traffic 3).pending =
      (traffic 3).total ∧ (traffic 3).pending ≤ q.limit ∧
    (traffic 10).dropRatio = 2 / 5 ∧
    (traffic 10).dropRatio + (traffic 10).deliveryRatio ≠ 1 ∧
    40 ≤ q.capacityPerMs ∧ (q.run 40 10 .none).dropRatio = 0 := by
  intro q traffic
  obtain ⟨-, -, htraffic, -, -, hshares, -, -, -, -, hone, -⟩ :=
    traffic_conserved 8 64 50 (some 100) 100 10
  obtain ⟨hsum, -, -, hroom⟩ := htraffic 3 (by norm_num)
  have hwaiting : (traffic 10).pending = 100 := by decide +kernel
  have hserved : 40 ≤ q.capacityPerMs := by decide +kernel
  have htotal : (traffic 10).total = 1000 ∧ (traffic 10).dropped = 400 := by decide +kernel
  refine ⟨by norm_num, hsum, hroom, ?_, fun heq => ?_, hserved, ?_⟩
  · rw [(hshares (by rw [htotal.1]; norm_num)).1, htotal.1, htotal.2]
    norm_num
  · have hempty := (hone.mp heq).2
    rw [hwaiting] at hempty
    norm_num at hempty
  · obtain ⟨-, -, -, -, -, -, -, -, -, -, -, hnone⟩ := traffic_conserved 8 64 50 (some 100) 40 10
    exact hnone hserved

end Conformance.Replay
