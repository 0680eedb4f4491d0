import Conformance.Word
import Mathlib

/-!
# What signed words keep of a number

A number that is moved to the nearest signed word compares with what lies within
their range as it did before, apart from the two ends of the range. A number that is
wrapped is kept where it fits, and it does not matter whether the parts of a sum
were wrapped before.
-/
namespace Conformance.Word
variable {n l : ℤ}

theorem fitsSigned_iff (n : ℤ) :
    fitsSigned n = true ↔ leastSigned ≤ n ∧ n ≤ greatestSigned := by
  simp only [fitsSigned, Bool.and_eq_true, decide_eq_true_eq]

theorem saturate_le_iff (h : leastSigned ≤ l) : saturate n ≤ l ↔ n ≤ l ∨ greatestSigned ≤ l := by
  unfold saturate
  split_ifs <;> omega

theorem le_saturate_iff (h : l ≤ greatestSigned) : l ≤ saturate n ↔ l ≤ n ∨ l ≤ leastSigned := by
  unfold saturate
  split_ifs <;> omega

theorem natAbs_saturate_lt (n : ℤ) : (saturate n).natAbs < 2 ^ 64 := by
  unfold saturate leastSigned greatestSigned
  split_ifs <;> omega

theorem wrap_eq_self (h : fitsSigned n = true) : wrap n = n := by
  rw [fitsSigned_iff, leastSigned, greatestSigned] at h
  apply Int.bmod_eq_of_le_mul_two
  · omega
  · omega

theorem wrap_wrap_add (m n : ℤ) : wrap (wrap m + n) = wrap (m + n) :=
  Int.bmod_add_bmod

theorem wrap_wrap_sub (m n : ℤ) : wrap (wrap m - n) = wrap (m - n) :=
  Int.bmod_sub_bmod

theorem wrap_sub_wrap (m n : ℤ) : wrap (m - wrap n) = wrap (m - n) :=
  Int.sub_bmod_bmod

end Conformance.Word
