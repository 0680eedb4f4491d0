import Conformance.Proofs.Decimal.Double

/-!
# Whole numbers as doubles

Rounding cuts a significand down to its leading places and may then raise it by
one. What fits into the places of a double is therefore kept exactly, and nothing
is rounded below a power of two that it reaches. This is all that a comparison with
a whole number below `2 ^ 53` can see of the rounding.
-/
namespace Conformance.Decimal
open Float.Model Float.Model.UnpackedFloat

theorem shiftRight_succ (em : ExtendedMantissa) (k : Nat) :
    em >>> (k + 1) = (em >>> k).shiftRightOne := rfl

theorem shiftRight_mantissa (em : ExtendedMantissa) (k : Nat) :
    (em >>> k).mantissa = em.mantissa / 2 ^ k := by
  induction k with
  | zero => exact (Nat.div_one _).symm
  | succ k ih =>
    rw [shiftRight_succ, pow_succ, ← Nat.div_div_eq_div_mul, ← ih]
    rfl

/-- Places that hold zeros are given up without a trace. -/
theorem shiftRight_mul_two_pow (m k : Nat) :
    (⟨m * 2 ^ k, false, false⟩ : ExtendedMantissa) >>> k = ⟨m, false, false⟩ := by
  induction k generalizing m with
  | zero =>
    rw [pow_zero, mul_one]
    rfl
  | succ k ih =>
    rw [shiftRight_succ, pow_succ', ← mul_assoc, ih]
    simp [ExtendedMantissa.shiftRightOne]

theorem roundedMantissa_bounds (em : ExtendedMantissa) :
    em.mantissa ≤ em.roundedMantissa ∧ em.roundedMantissa ≤ em.mantissa + 1 := by
  obtain ⟨m, _ | _, _ | _⟩ := em <;>
    simp only [ExtendedMantissa.roundedMantissa, ExtendedMantissa.accuracy,
      Accuracy.roundToNearestEven] <;> omega

theorem log2_mul_two_pow {n : Nat} (hn : n ≠ 0) (k : Nat) : (n * 2 ^ k).log2 = n.log2 + k := by
  induction k with
  | zero => simp
  | succ k ih =>
    have hscaled : n * 2 ^ k ≠ 0 := by positivity
    rw [pow_succ', Nat.mul_left_comm, Nat.log2_two_mul hscaled, ih, add_assoc]

variable {m : Nat} {e : Int} {t : Nat}

theorem shiftToTargetExponent_eq (hm : m.log2 = 52 + t) (he : -1074 ≤ e + t) :
    shiftToTargetExponent .binary64 m e .exact =
      ((⟨m, false, false⟩ : ExtendedMantissa) >>> t, e + t) := by
  have htarget : Format.targetExponent .binary64 (totalExponent m e) = e + t := by
    simp only [Format.targetExponent, totalExponent, Format.mantissaBits, Format.minExponent, hm]
    omega
  have ht : (e + t - e).toNat = t := by omega
  rw [shiftToTargetExponent, htarget, shiftToExponent, ht]
  rfl

/-- A significand with all of its places, at an exponent in the range of doubles. -/
structure Normal (m : Nat) (e : Int) : Prop where
  log2_eq : m.log2 = 52
  least_le : -1074 ≤ e
  le_greatest : e ≤ 971

theorem Normal.bounds (h : Normal m e) : 2 ^ 52 ≤ m ∧ m < 2 ^ 53 := by
  have hm : m ≠ 0 := by
    rintro rfl
    exact absurd h.log2_eq (by simp)
  exact (Nat.log2_eq_iff hm).mp h.log2_eq

theorem Normal.pos (h : Normal m e) : 0 < m :=
  lt_of_lt_of_le (Nat.two_pow_pos 52) h.bounds.1

/-- The second shift makes room when rounding up has carried over every place. -/
theorem roundWithAccuracy_eq (s : Sign) (hm : m.log2 = 52 + t) (he : -1074 ≤ e + t) {r k u : Nat}
    (hr : ((⟨m, false, false⟩ : ExtendedMantissa) >>> t).roundedMantissa = r)
    (hlog : r.log2 = 52 + u) (hk : r / 2 ^ u = k) (hpositive : 0 < k) :
    roundWithAccuracy .binary64 s m e .exact = .finite s k (e + t + u) hpositive := by
  have hsecond := @shiftToTargetExponent_eq r (e + t) u hlog (by omega)
  simp only [roundWithAccuracy, shiftToTargetExponent_eq hm he, hr, hsecond, shiftRight_mantissa,
    hk]
  rw [dif_neg hpositive.ne']

/-- What fits into the places of a double is not rounded. -/
theorem roundWithAccuracy_exact (s : Sign) (h : Normal m e) (t : Nat) :
    roundWithAccuracy .binary64 s (m * 2 ^ t) (e - t) .exact = .finite s m e h.pos := by
  have hlog : (m * 2 ^ t).log2 = 52 + t := by rw [log2_mul_two_pow h.pos.ne', h.log2_eq]
  have hleast := h.least_le
  have hkept : ((⟨m * 2 ^ t, false, false⟩ : ExtendedMantissa) >>> t).roundedMantissa = m := by
    rw [shiftRight_mul_two_pow]
    rfl
  rw [roundWithAccuracy_eq s hlog (by omega) (u := 0) hkept h.log2_eq (Nat.div_one m) h.pos]
  simp

theorem div_bounds_of_log2 (hm : m.log2 = 52 + t) : 2 ^ 52 ≤ m / 2 ^ t ∧ m / 2 ^ t < 2 ^ 53 := by
  have hne : m ≠ 0 := by
    rintro rfl
    simp at hm
    omega
  rw [Nat.log2_eq_iff hne, add_right_comm, pow_add, pow_add] at hm
  rw [Nat.le_div_iff_mul_le (Nat.two_pow_pos t), Nat.div_lt_iff_lt_mul (Nat.two_pow_pos t)]
  exact hm

/-- Rounding never goes below the leading place. -/
theorem exists_roundWithAccuracy (s : Sign) (hm : m.log2 = 52 + t) (he : -1074 ≤ e + t)
    (hgreatest : e + t < 971) : ∃ k e', ∃ h : Normal k e',
      roundWithAccuracy .binary64 s m e .exact = .finite s k e' h.pos ∧ e + t ≤ e' := by
  obtain ⟨hlow, hhigh⟩ := div_bounds_of_log2 hm
  have hbounds := roundedMantissa_bounds ((⟨m, false, false⟩ : ExtendedMantissa) >>> t)
  rw [shiftRight_mantissa] at hbounds
  generalize hr : ((⟨m, false, false⟩ : ExtendedMantissa) >>> t).roundedMantissa = r at hbounds
  simp only at hbounds
  by_cases hcarry : r = 2 ^ 53
  · have hnormal : Normal (2 ^ 52) (e + t + 1) := by
      constructor
      · exact Nat.log2_two_pow
      · omega
      · omega
    have hround := roundWithAccuracy_eq s hm he (hr.trans hcarry) (u := 1) Nat.log2_two_pow
      (by norm_num) hnormal.pos
    exact ⟨_, _, hnormal, hround, by omega⟩
  · have hnormal : Normal r (e + t) := by
      constructor
      · rw [Nat.log2_eq_iff (by omega)]
        omega
      · exact he
      · exact hgreatest.le
    have hround := roundWithAccuracy_eq s hm he hr (u := 0) hnormal.log2_eq (Nat.div_one r)
      hnormal.pos
    exact ⟨_, _, hnormal, by simpa using hround, le_rfl⟩

/-- The double that an unpacked one is packed into. -/
def ofUnpacked (u : UnpackedFloat) : Float :=
  .ofModel (.pack u)

theorem unpack_zero (s : Sign) : (ofUnpacked (.zero s)).toModel.unpack = .zero s := by
  cases s <;> rfl

theorem unpackSign_packComponents (s : Sign) (exponent : BitVec 11) (fraction : BitVec 52) :
    @unpackSign .binary64 (packComponents .binary64 s exponent fraction) = s.toBitVec := by
  change BitVec.extractLsb' 63 1 (s.toBitVec ++ exponent ++ fraction) = s.toBitVec
  rw [BitVec.extractLsb'_append_eq_of_le (by decide)]
  exact BitVec.extractLsb'_append_eq_left

theorem ofBitVec_toBitVec (s : Sign) : Sign.ofBitVec s.toBitVec = s := by
  cases s <;> rfl

theorem unpack_packComponents (s : Sign) {exponent : BitVec 11} {fraction : BitVec 52}
    (hlow : exponent ≠ 0#11) (hhigh : exponent ≠ -1#11) :
    UnpackedFloat.unpack .binary64 (packComponents .binary64 s exponent fraction) =
      .finite s (2 ^ 52 + fraction.toNat) (exponent.toNat - 1075)
        (Nat.add_pos_left (Nat.two_pow_pos 52) _) := by
  simp only [UnpackedFloat.unpack, unpackExponent_packComponents, unpackMantissa_packComponents,
    unpackSign_packComponents, ofBitVec_toBitVec]
  rw [if_neg hhigh, if_neg hlow]
  simp only [toNat_one_append]
  rfl

theorem pack_normal (s : Sign) (h : Normal m e) :
    UnpackedFloat.pack .binary64 (.finite s m e h.pos) =
      packComponents .binary64 s (BitVec.ofNat 11 (e + 1075).toNat) (BitVec.ofNat 52 m) := by
  have hbias : (Format.exponentBias .binary64 : Int) = 1023 := rfl
  have hplaces : Format.mantissaBits .binary64 = 53 := rfl
  have hgreatest := h.le_greatest
  simp only [UnpackedFloat.pack, h.log2_eq, hbias, hplaces, add_assoc]
  rw [if_neg (by omega), if_pos trivial]
  rfl

theorem unpack_normal (s : Sign) (h : Normal m e) :
    (ofUnpacked (.finite s m e h.pos)).toModel.unpack = .finite s m e h.pos := by
  obtain ⟨hlow, hhigh⟩ := h.bounds
  have hleast := h.least_le
  have hgreatest := h.le_greatest
  have he : (BitVec.ofNat 11 (e + 1075).toNat).toNat = (e + 1075).toNat := by
    rw [BitVec.toNat_ofNat]
    omega
  change UnpackedFloat.unpack .binary64 (UnpackedFloat.pack .binary64 _) = _
  rw [pack_normal s h, unpack_packComponents]
  · simp only [UnpackedFloat.finite.injEq, true_and, BitVec.toNat_ofNat, he]
    omega
  · rw [Ne, ← BitVec.toNat_inj, he]
    change _ ≠ 0
    omega
  · rw [Ne, ← BitVec.toNat_inj, he]
    change _ ≠ 2047
    omega

theorem mul_eq (x y : Float) :
    x * y = ofUnpacked (UnpackedFloat.mul .binary64 x.toModel.unpack y.toModel.unpack) := rfl

theorem neg_eq (x : Float) : -x = ofUnpacked x.toModel.unpack.neg := rfl

theorem unpack_one : (Float.ofBits 0x3FF0000000000000).toModel.unpack =
    .finite .positive (2 ^ 52) (-52) (Nat.two_pow_pos 52) := rfl

theorem ofScientific_zero : Float.ofScientific 0 false 0 = ofUnpacked (.zero .positive) := rfl

/-- A number of few places, shifted until it has all the places of a double. -/
theorem exists_normal {n : Nat} (hpositive : 0 < n) (hn : n < 2 ^ 53) :
    ∃ k, n.log2 + k = 52 ∧ Normal (n * 2 ^ k) (-k) := by
  have hlog : n.log2 < 53 := (Nat.log2_lt hpositive.ne').mpr hn
  obtain ⟨k, hk⟩ : ∃ k, n.log2 + k = 52 := ⟨52 - n.log2, by omega⟩
  refine ⟨k, hk, ?_, by omega, by omega⟩
  rw [log2_mul_two_pow hpositive.ne', hk]

theorem toFloat_eq {n k : Nat} (hn : n < 2 ^ 53) (hk : n.log2 + k = 52)
    (h : Normal (n * 2 ^ k) (-k)) :
    n.toUInt64.toFloat = ofUnpacked (.finite .positive (n * 2 ^ k) (-k) h.pos) := by
  have hpositive : 0 < n := Nat.pos_of_mul_pos_right h.pos
  have hword : n.toUInt64.toNat = n := UInt64.toNat_ofNat_of_lt' (hn.trans (by decide))
  have htarget : Format.targetExponent .binary64 (totalExponent n 0) = -k := by
    simp only [Format.targetExponent, totalExponent, Format.mantissaBits, Format.minExponent]
    omega
  have hshift : decreaseExponent n 0 (-k) = (n * 2 ^ k, -(k : Int)) := by
    simp [decreaseExponent, Nat.shiftLeft_eq]
  have hround : UnpackedFloat.round .binary64 .positive n 0 =
      .finite .positive (n * 2 ^ k) (-k) h.pos := by
    simp only [UnpackedFloat.round, htarget, hshift]
    simpa using roundWithAccuracy_exact .positive h 0
  change ofUnpacked (UnpackedFloat.normalize .binary64 n.toUInt64.toNat 0 .positive) = _
  rw [hword, UnpackedFloat.normalize, compare_gt_iff_gt.mpr (by omega)]
  simp only [Int.toNat_natCast, hround]

theorem ofScientific_of_lt {n k : Nat} (hn : n < 2 ^ 53) (hk : n.log2 + k = 52)
    (h : Normal (n * 2 ^ k) (-k)) :
    Float.ofScientific n false 0 = ofUnpacked (.finite .positive (n * 2 ^ k) (-k) h.pos) := by
  calc Float.ofScientific n false 0
      = n.toUInt64.toFloat * Float.ofBits 0x3FF0000000000000 := by
        rw [Float.ofScientific, dif_pos ⟨hn, by omega⟩]
        rfl
    _ = ofUnpacked (.finite .positive (n * 2 ^ k) (-k) h.pos) := by
        rw [mul_eq, toFloat_eq hn hk h, unpack_normal _ h, unpack_one]
        exact congrArg ofUnpacked (roundWithAccuracy_exact .positive h 52)

theorem ofScientific_of_le {n : Nat} (hn : 2 ^ 53 ≤ n) :
    Float.ofScientific n false 0 =
      ofUnpacked (roundWithAccuracy .binary64 .positive (n * 2 ^ 53) (-53) .exact) := by
  have hmul : UnpackedFloat.ofScientific .binary64 n 0 =
      roundWithAccuracy .binary64 .positive (n * 2 ^ 53) (-53) .exact := by
    rw [UnpackedFloat.ofScientific, dif_neg (by omega), if_neg (by simp), if_neg (by simp),
      if_pos le_rfl]
    simp only [UnpackedFloat.mul, Format.mantissaBits, Nat.shiftLeft_eq]
    rw [Int.toNat_zero, pow_zero, mul_one]
    rfl
  rw [Float.ofScientific, dif_neg (by omega), ← hmul]
  rfl

/-- A natural number becomes the double of exactly that value, or one of at least `2 ^ 53`. -/
theorem exists_ofScientific {n : Nat} (hpositive : 0 < n) (hn : n < 2 ^ 64) :
    ∃ m e, ∃ h : Normal m e,
      Float.ofScientific n false 0 = ofUnpacked (.finite .positive m e h.pos) ∧
      (n < 2 ^ 53 → (m * 2 ^ e : ℚ) = n) ∧ (2 ^ 53 ≤ n → (2 ^ 53 : ℚ) ≤ m * 2 ^ e) := by
  by_cases hsmall : n < 2 ^ 53
  · obtain ⟨k, hk, h⟩ := exists_normal hpositive hsmall
    refine ⟨_, _, h, ofScientific_of_lt hsmall hk h, fun _ => ?_, fun hlarge => by omega⟩
    push_cast
    rw [mul_assoc, zpow_neg, zpow_natCast, mul_inv_cancel₀ (by positivity), mul_one]
  · have hlow : 53 ≤ n.log2 := (Nat.le_log2 hpositive.ne').mpr (by omega)
    have hhigh : n.log2 < 64 := (Nat.log2_lt hpositive.ne').mpr hn
    have hlog : (n * 2 ^ 53).log2 = 52 + (n.log2 + 1) := by
      rw [log2_mul_two_pow hpositive.ne']
      omega
    obtain ⟨m, e, h, hround, he⟩ :=
      @exists_roundWithAccuracy _ (-53) _ .positive hlog (by omega) (by omega)
    refine ⟨m, e, h, ?_, fun hn => by omega, fun _ => ?_⟩
    · rw [ofScientific_of_le (by omega), hround]
    · have hm : (2 : ℚ) ^ 52 ≤ m := by exact_mod_cast h.bounds.1
      calc (2 ^ 53 : ℚ) = 2 ^ 52 * 2 ^ (1 : Int) := by norm_num
        _ ≤ m * 2 ^ e := by
          gcongr
          · norm_num
          · omega

/-- A whole number becomes the double of exactly that value, or one at least as far from zero as
`2 ^ 53`. -/
theorem exists_value?_nearest {n : Int} (hn : n.natAbs < 2 ^ 64) :
    ∃ a, value? (nearest n) = some a ∧ (n.natAbs < 2 ^ 53 → a = n) ∧
      (2 ^ 53 ≤ n → 2 ^ 53 ≤ a) ∧ (n ≤ -2 ^ 53 → a ≤ -2 ^ 53) := by
  rcases eq_or_ne n 0 with rfl | hne
  · refine ⟨0, ?_, by simp, by simp, by simp⟩
    rw [value?, nearest, if_neg (lt_irrefl 0), Int.natAbs_zero, ofScientific_zero, unpack_zero]
    rfl
  · obtain ⟨m, e, h, hmagnitude, hexact, hlarge⟩ := exists_ofScientific (by omega) hn
    rcases lt_or_gt_of_ne hne with hnegative | hpositive
    · have habs : (n.natAbs : ℚ) = -n := by
        rw [Nat.cast_natAbs, abs_of_neg hnegative, Int.cast_neg]
      refine ⟨-(m * 2 ^ e), ?_, ?_, by omega, ?_⟩
      · rw [value?, nearest, if_pos hnegative, hmagnitude, neg_eq, unpack_normal _ h]
        exact congrArg unpackedValue? (unpack_normal .negative h)
      · intro hsmall
        rw [hexact hsmall, habs, neg_neg]
      · intro hlow
        exact neg_le_neg (hlarge (by omega))
    · have habs : (n.natAbs : ℚ) = n := by
        rw [Nat.cast_natAbs, abs_of_pos hpositive]
      refine ⟨m * 2 ^ e, ?_, ?_, ?_, by omega⟩
      · rw [value?, nearest, if_neg hpositive.not_gt, hmagnitude, unpack_normal _ h]
        rfl
      · intro hsmall
        rw [hexact hsmall, habs]
      · intro hhigh
        exact hlarge (by omega)

theorem value?_nearest {n : Int} (hn : n.natAbs < 2 ^ 53) : value? (nearest n) = some (n : ℚ) := by
  obtain ⟨a, ha, hexact, -⟩ := exists_value?_nearest (n := n) (by omega)
  rw [ha, hexact hn]

/-- Rounding a whole number does not change how it compares with a whole number below `2 ^ 53`. -/
theorem nearest_le_iff {n l : Int} {limit : Float} (hn : n.natAbs < 2 ^ 64)
    (hlimit : value? limit = some (l : ℚ)) (hl : l.natAbs < 2 ^ 53) :
    nearest n ≤ limit ↔ n ≤ l := by
  obtain ⟨a, ha, hexact, habove, hbelow⟩ := exists_value?_nearest hn
  rw [le_iff_value_le ha hlimit]
  rcases lt_or_ge n.natAbs (2 ^ 53) with hsmall | hlarge
  · rw [hexact hsmall, Int.cast_le]
  · rcases le_total 0 n with hn | hn
    · have hlt : (l : ℚ) < 2 ^ 53 := by
        have : l < 2 ^ 53 := by omega
        exact_mod_cast this
      have ha := habove (by omega)
      constructor
      · intro hle
        linarith
      · omega
    · have hlt : (-2 ^ 53 : ℚ) ≤ l := by
        have : -2 ^ 53 ≤ l := by omega
        exact_mod_cast this
      have ha := hbelow (by omega)
      constructor
      · omega
      · intro hle
        linarith

end Conformance.Decimal
