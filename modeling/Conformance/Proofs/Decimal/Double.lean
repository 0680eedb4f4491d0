import Conformance.Decimal.Nearest
import Mathlib

/-!
# The number that a double stands for

A finite double is a signed significand times a power of two. Its bits hold the
significand in full, so that to compare exponents before significands is to
compare the numbers themselves.
-/
namespace Conformance.Decimal
open Float.Model Float.Model.UnpackedFloat

/-- A significand and an exponent as the bits of a double hold them: the significand has all of its
places, except at the least exponent. -/
structure Full (m : Nat) (e : Int) : Prop where
  lt : m < 2 ^ 53
  least_le : -1074 ≤ e
  le_or_least : 2 ^ 52 ≤ m ∨ e = -1074

section Order

variable {m m' : Nat} {e e' : Int}

theorem Full.lt_of_exponent_lt (h : Full m e) (h' : Full m' e') (he : e < e') :
    (m * 2 ^ e : ℚ) < m' * 2 ^ e' := by
  have hm : (m : ℚ) < 2 ^ 53 := by exact_mod_cast h.lt
  have hm' : (2 : ℚ) ^ 52 ≤ m' := by
    have := h.least_le
    exact_mod_cast h'.le_or_least.resolve_right (by omega)
  calc (m * 2 ^ e : ℚ) < 2 ^ 53 * 2 ^ e := by gcongr
    _ = 2 ^ 52 * 2 ^ (e + 1) := by rw [zpow_add₀ two_ne_zero]; ring
    _ ≤ m' * 2 ^ e' := by
      gcongr
      · norm_num
      · omega

/-- Of two significands in full, the one with the greater exponent makes the greater number. -/
theorem Full.compare_eq (h : Full m e) (h' : Full m' e') :
    (compare e e').then (compare m m') = compare (m * 2 ^ e : ℚ) (m' * 2 ^ e') := by
  rcases lt_trichotomy e e' with he | rfl | he
  · rw [compare_lt_iff_lt.mpr he, compare_lt_iff_lt.mpr (h.lt_of_exponent_lt h' he)]
    rfl
  · have hmono : StrictMono fun k : Nat => (k * 2 ^ e : ℚ) := by
      intro k k' hk
      dsimp only
      gcongr
    rw [compare_eq_iff_eq.mpr rfl, Ordering.eq_then, ← cmp_eq_compare, ← cmp_eq_compare]
    exact (hmono.cmp_map_eq m m').symm
  · rw [compare_gt_iff_gt.mpr he, compare_gt_iff_gt.mpr (h'.lt_of_exponent_lt h he)]
    rfl

end Order

/-- The number that an unpacked double stands for, if it is finite. -/
def unpackedValue? : UnpackedFloat → Option ℚ
  | .zero _ => some 0
  | .finite .positive m e _ => some (m * 2 ^ e)
  | .finite .negative m e _ => some (-(m * 2 ^ e))
  | _ => none

def IsFull : UnpackedFloat → Prop
  | .finite _ m e _ => Full m e
  | _ => True

theorem unpacked_compare {u v : UnpackedFloat} {a b : ℚ} (hu : IsFull u) (hv : IsFull v)
    (ha : unpackedValue? u = some a) (hb : unpackedValue? v = some b) :
    u.compare v = some (compare a b) := by
  have hpositive {m : Nat} (hm : 0 < m) (e : Int) : (0 : ℚ) < m * 2 ^ e := by positivity
  rcases u with _ | _ | _ | ⟨_ | _, m, e, hm⟩ <;>
    rcases v with _ | _ | _ | ⟨_ | _, m', e', hm'⟩ <;> cases ha <;> cases hb <;>
    simp only [UnpackedFloat.compare, Option.some.injEq] <;> symm
  case zero.zero => simp
  case zero.finite.negative => exact compare_gt_iff_gt.mpr (neg_neg_of_pos (hpositive hm' e'))
  case zero.finite.positive => exact compare_lt_iff_lt.mpr (hpositive hm' e')
  case finite.negative.zero => exact compare_lt_iff_lt.mpr (neg_neg_of_pos (hpositive hm e))
  case finite.negative.finite.negative =>
    rw [hu.compare_eq hv, ← Std.OrientedCmp.eq_swap, ← cmp_eq_compare, ← cmp_eq_compare]
    exact StrictAnti.cmp_map_eq (fun _ _ => neg_lt_neg) _ _
  case finite.negative.finite.positive =>
    exact compare_lt_iff_lt.mpr ((neg_neg_of_pos (hpositive hm e)).trans (hpositive hm' e'))
  case finite.positive.zero => exact compare_gt_iff_gt.mpr (hpositive hm e)
  case finite.positive.finite.negative =>
    exact compare_gt_iff_gt.mpr ((neg_neg_of_pos (hpositive hm' e')).trans (hpositive hm e))
  case finite.positive.finite.positive => exact (hu.compare_eq hv).symm

/-- The leading place of a significand is not kept in the bits. -/
theorem toNat_one_append (fraction : BitVec 52) :
    (1#1 ++ fraction).toNat = 2 ^ 52 + fraction.toNat := by
  rw [BitVec.toNat_append, ← Nat.shiftLeft_add_eq_or_of_lt fraction.isLt]
  rfl

/-- The bits of a double hold its significand in full. -/
theorem isFull_unpack (x : Float.Model) : IsFull x.unpack := by
  have hfraction : (@unpackMantissa .binary64 x.toBits.toBitVec).toNat < 2 ^ 52 := BitVec.isLt _
  have hbias : (Format.exponentBias .binary64 : Int) = 1023 := rfl
  simp only [Float.Model.unpack, UnpackedFloat.unpack, hbias]
  split_ifs with _ _ hleast _
  · trivial
  · trivial
  · trivial
  · simp only [IsFull, hleast, BitVec.toNat_zero]
    constructor <;> omega
  · have hpositive : 0 < (@unpackExponent .binary64 x.toBits.toBitVec).toNat := by
      rwa [BitVec.toNat_pos, BitVec.pos_iff_ne_zero]
    simp only [IsFull, toNat_one_append]
    constructor <;> omega

/-- The number that a double stands for, if it is finite. -/
def value? (x : Float) : Option ℚ :=
  unpackedValue? x.toModel.unpack

/-- Finite doubles compare as the numbers that they stand for. -/
theorem le_iff_value_le {x y : Float} {a b : ℚ} (ha : value? x = some a) (hb : value? y = some b) :
    x ≤ y ↔ a ≤ b := by
  have hcompare := unpacked_compare (isFull_unpack _) (isFull_unpack _) ha hb
  calc x ≤ y ↔ Float.le x y = true := Iff.rfl
    _ ↔ x.toModel.unpack.le y.toModel.unpack = true := by
      simp only [Float.le, decide_eq_true_eq]
      rfl
    _ ↔ a ≤ b := by
      rw [UnpackedFloat.le, hcompare, Option.any_some, ← Ordering.ne_gt_iff_isLE]
      exact compare_le_iff_le

end Conformance.Decimal
