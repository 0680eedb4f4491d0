import Conformance.Proofs.ClientToken.History

/-!
# Single use and the clock

A nonce is forgotten when a call that passes finds the token that used it too
old. A token is accepted a second time only after that, hence only under a clock
that was set back in between; and whenever a clock is set back like this, some
nonce is accepted twice.
-/
namespace Conformance.ClientToken.History
open Conformance

variable (h : History)

/-- The call `k` passes the tag and the clock, and the token of the call `i` is by then too old. -/
def Forgets (k i : Fin h.calls.length) : Prop :=
  h.Passes k ∧ h.maxSkew < (h.call k).now.toNat - (h.call i).timestamp.toNat

theorem not_live_iff {n : ℕ} {i : Fin h.calls.length} (hi : h.Accepted i) :
    ¬ h.Live n i ↔ ∃ k, i < k ∧ k.val < n ∧ h.Forgets k i := by
  constructor
  · intro hlive
    by_contra hnone
    refine hlive ⟨hi, fun k hik hk hp => ?_⟩
    by_contra hold
    exact hnone ⟨k, hik, hk, hp, not_le.mp hold⟩
  · rintro ⟨k, hik, hk, hp, hold⟩ hlive
    exact absurd (hlive.2 k hik hk hp) (not_le.mpr hold)

/-- A nonce is accepted again only after it was forgotten. -/
theorem forgotten_of_accepted_again {i j : Fin h.calls.length} (hij : i < j) (hi : h.Accepted i)
    (hj : h.Accepted j) (hkey : (h.call i).key = (h.call j).key) :
    ∃ k, i < k ∧ k ≤ j ∧ h.Forgets k i := by
  have hdead : ¬ h.Live (j + 1) i := fun hlive =>
    ((h.accepted_iff j).mp hj).2 ⟨i, hij, hlive, hkey⟩
  obtain ⟨k, hik, hk, hf⟩ := (h.not_live_iff hi).mp hdead
  exact ⟨k, hik, Nat.lt_succ_iff.mp hk, hf⟩

/-- When a forgotten nonce is presented at a time at which it passes, either it is accepted again
or it was accepted in between. -/
theorem accepted_twice_of_forgotten {i k j : Fin h.calls.length} (hik : i < k) (hkj : k ≤ j)
    (hi : h.Accepted i) (hf : h.Forgets k i) (hj : h.Passes j)
    (hkey : (h.call i).key = (h.call j).key) :
    ∃ l m, l < m ∧ h.Accepted l ∧ h.Accepted m ∧ (h.call l).key = (h.call i).key ∧
      (h.call m).key = (h.call i).key := by
  by_cases hja : h.Accepted j
  · exact ⟨i, j, hik.trans_le hkj, hi, hja, rfl, hkey.symm⟩
  · have hrepeat : ∃ l < j, h.Live (j + 1) l ∧ (h.call l).key = (h.call j).key := by
      by_contra hnone
      exact hja ((h.accepted_iff j).mpr ⟨hj, hnone⟩)
    obtain ⟨l, -, hlive, hl⟩ := hrepeat
    have hdead : ¬ h.Live (j + 1) i := (h.not_live_iff hi).mpr ⟨k, hik, Nat.lt_succ_iff.mpr hkj, hf⟩
    rcases lt_trichotomy i l with hil | rfl | hli
    · exact ⟨i, l, hil, hi, hlive.1, rfl, hl.trans hkey.symm⟩
    · exact absurd hlive hdead
    · exact ⟨l, i, hli, hlive.1, hi, hl.trans hkey.symm, rfl⟩

theorem nonce_accepted_twice_iff (key : String × Bytes) :
    (∃ i j, i < j ∧ h.Accepted i ∧ h.Accepted j ∧ (h.call i).key = key ∧ (h.call j).key = key) ↔
      ∃ i k j, i < k ∧ k ≤ j ∧ h.Accepted i ∧ h.Forgets k i ∧ h.Passes j ∧
        (h.call i).key = key ∧ (h.call j).key = key := by
  constructor
  · rintro ⟨i, j, hij, hi, hj, hki, hkj⟩
    obtain ⟨k, hik, hkj', hf⟩ := h.forgotten_of_accepted_again hij hi hj (hki.trans hkj.symm)
    exact ⟨i, k, j, hik, hkj', hi, hf, ((h.accepted_iff j).mp hj).1, hki, hkj⟩
  · rintro ⟨i, k, j, hik, hkj, hi, hf, hj, rfl, hkey⟩
    exact h.accepted_twice_of_forgotten hik hkj hi hf hj hkey.symm

/-- The clock stands at the call `j` where the token of the call `i` passes, although a call in
between passed at a reading at which that token was too old. -/
def SetBack (i j : Fin h.calls.length) : Prop :=
  ∃ k, i < k ∧ k < j ∧ h.Forgets k i ∧ (h.call j).now < (h.call k).now

/-- The same token passes at `j`, so it is not `j` that finds it too old. -/
theorem setBack_of_accepted_again {i j : Fin h.calls.length} (hij : i < j)
    (htoken : (h.call i).token = (h.call j).token) (hi : h.Accepted i) (hj : h.Accepted j) :
    h.SetBack i j := by
  have hkey : (h.call i).key = (h.call j).key := by unfold Call.key; rw [htoken]
  have htime : (h.call i).timestamp = (h.call j).timestamp := by unfold Call.timestamp; rw [htoken]
  obtain ⟨k, hik, hkj, hp, hold⟩ := h.forgotten_of_accepted_again hij hi hj hkey
  have hskew : (h.call j).distance ≤ h.maxSkew := ((h.accepted_iff j).mp hj).1.2
  unfold Call.distance at hskew
  rw [htime] at hold
  have hnow : (h.call j).now.toNat < (h.call k).now.toNat := by omega
  have hne : k ≠ j := fun heq => absurd hnow (heq ▸ lt_irrefl _)
  exact ⟨k, hik, lt_of_le_of_ne hkj hne, ⟨hp, htime ▸ hold⟩, UInt64.lt_iff_toNat_lt.mpr hnow⟩

/-- A token, another client's token when the first is too old, and the first again under a clock
that was set back to its own time. -/
def clockSetBack : History :=
  let token := Claim.sign [1, 2, 3] ⟨"call", "alice", 10000, [1]⟩
  let other := Claim.sign [1, 2, 3] ⟨"call", "bob", 11001, [2]⟩
  ⟨[1, 2, 3], 1000, [⟨token, 10000⟩, ⟨other, 11001⟩, ⟨token, 10000⟩]⟩

namespace ClockSetBack

def first : Fin clockSetBack.calls.length := ⟨0, by decide⟩
def other : Fin clockSetBack.calls.length := ⟨1, by decide⟩
def again : Fin clockSetBack.calls.length := ⟨2, by decide⟩

theorem passes (i : Fin clockSetBack.calls.length) : clockSetBack.Passes i := by
  fin_cases i <;> exact ⟨rfl, by decide⟩

theorem forgets_first : clockSetBack.Forgets other first :=
  ⟨passes other, by decide⟩

theorem accepted_first : clockSetBack.Accepted first := by
  refine (clockSetBack.accepted_iff first).mpr ⟨passes first, ?_⟩
  rintro ⟨j, hj, -⟩
  exact absurd hj (Nat.not_lt_zero _)

theorem accepted_again : clockSetBack.Accepted again := by
  refine (clockSetBack.accepted_iff again).mpr ⟨passes again, ?_⟩
  rintro ⟨j, hj, hlive, hkey⟩
  have hearlier : ∀ j < again, j = first ∨ j = other := by decide
  rcases hearlier j hj with rfl | rfl
  · have hdead := (clockSetBack.not_live_iff (n := again + 1) accepted_first).mpr
      ⟨other, by decide, by decide, forgets_first⟩
    exact hdead hlive
  · exact absurd hkey (by decide)

end ClockSetBack
open ClockSetBack

/-- So a token is not used once under every clock. -/
theorem token_accepted_twice : ∃ i j, i < j ∧
    (clockSetBack.call i).token = (clockSetBack.call j).token ∧
    clockSetBack.Accepted i ∧ clockSetBack.Accepted j :=
  ⟨first, again, by decide, rfl, accepted_first, accepted_again⟩

/-- A token is accepted once unless the clock is set back, and a nonce is accepted twice exactly
when it is forgotten and then presented at a time at which it passes. -/
theorem single_use_unless_set_back (h : History) :
    (∀ i j, i < j → (h.call i).token = (h.call j).token → h.Accepted i → ¬ h.SetBack i j →
      ¬ h.Accepted j) ∧
    ∀ key, (∃ i j, i < j ∧ h.Accepted i ∧ h.Accepted j ∧
        (h.call i).key = key ∧ (h.call j).key = key) ↔
      ∃ i k j, i < k ∧ k ≤ j ∧ h.Accepted i ∧ h.Forgets k i ∧ h.Passes j ∧
        (h.call i).key = key ∧ (h.call j).key = key := by
  refine ⟨fun i j hij htoken hi hback hj => ?_, h.nonce_accepted_twice_iff⟩
  exact hback (h.setBack_of_accepted_again hij htoken hi hj)

theorem set_back_before_second_use : clockSetBack.SetBack first again ∧
    ∃ i j, i < j ∧ clockSetBack.Accepted i ∧ clockSetBack.Accepted j ∧
      (clockSetBack.call i).key = ("alice", [1]) ∧ (clockSetBack.call j).key = ("alice", [1]) := by
  obtain ⟨huse, hnonce⟩ := single_use_unless_set_back clockSetBack
  constructor
  · by_contra hback
    exact huse first again (by decide) rfl accepted_first hback accepted_again
  · exact (hnonce ("alice", [1])).mpr ⟨first, other, again, by decide, by decide, accepted_first,
      forgets_first, passes again, rfl, rfl⟩

end Conformance.ClientToken.History
