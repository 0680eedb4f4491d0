import Conformance.Text.Utf8
import Mathlib.Tactic

/-!
# Octets read back

Numbers written big end first and strings written in UTF-8 are recovered from
their octets, and nothing else is. The order of byte strings is a linear order. What
is cut into pieces is put together from them, and what is masked twice is unmasked.
-/
namespace Conformance.Bytes

@[simp] theorem toNat_append_singleton (bytes : Bytes) (b : UInt8) :
    toNat (bytes ++ [b]) = toNat bytes * 256 + b.toNat := by
  simp [toNat, List.foldl_append]

theorem toNat_lt (bytes : Bytes) : toNat bytes < 256 ^ bytes.length := by
  induction bytes using List.reverseRecOn with
  | nil => simp [toNat]
  | append_singleton bytes b ih =>
    have hb := b.toNat_lt
    rw [toNat_append_singleton, List.length_append, List.length_singleton, pow_succ]
    omega

theorem toNat_ofNat {width n : ℕ} (hn : n < 256 ^ width) : toNat (ofNat width n) = n := by
  induction width generalizing n with
  | zero =>
    have hz : n = 0 := by simpa using hn
    subst n
    rfl
  | succ width ih =>
    have hq : n / 256 < 256 ^ width := by
      rw [pow_succ] at hn
      omega
    rw [ofNat, toNat_append_singleton, ih hq, UInt8.toNat_ofNat']
    omega

theorem ofNat_toNat (bytes : Bytes) : ofNat bytes.length (toNat bytes) = bytes := by
  induction bytes using List.reverseRecOn with
  | nil => rfl
  | append_singleton bytes b ih =>
    have hb := b.toNat_lt
    have hq : (toNat bytes * 256 + b.toNat) / 256 = toNat bytes := by omega
    have hr : UInt8.ofNat (toNat bytes * 256 + b.toNat) = b := by
      apply UInt8.toNat_inj.mp
      rw [UInt8.toNat_ofNat']
      omega
    rw [List.length_append, List.length_singleton, ofNat, toNat_append_singleton, hq, ih, hr]

/-- A number that needs fewer octets begins with a zero. -/
theorem ofNat_succ_of_lt {width n : ℕ} (hn : n < 256 ^ width) :
    ofNat (width + 1) n = 0 :: ofNat width n := by
  induction width generalizing n with
  | zero =>
    have hz : n = 0 := by simpa using hn
    subst n
    rfl
  | succ width ih =>
    have hq : n / 256 < 256 ^ width := by
      rw [pow_succ] at hn
      omega
    rw [ofNat, ih hq, List.cons_append]
    rfl

theorem toByteArray_ofString (text : String) : (ofString text).toByteArray = text.toUTF8 := rfl

theorem compare_eq_compareLex (a b : Bytes) :
    Bytes.compare a b = List.compareLex Ord.compare a b := by
  induction a generalizing b with
  | nil => cases b <;> rfl
  | cons x a ih =>
    cases b with
    | nil => rfl
    | cons y b => rw [Bytes.compare, ih, List.compareLex_cons_cons]

theorem length_flatten_of_forall {size : ℕ} {pieces : List Bytes}
    (h : ∀ piece ∈ pieces, piece.length = size) : pieces.flatten.length = pieces.length * size := by
  rw [List.length_flatten, List.map_congr_left h, List.map_const', List.sum_replicate, smul_eq_mul]

theorem flatten_chunks {size : ℕ} (hsize : size ≠ 0) (bytes : Bytes) :
    (chunks size bytes).flatten = bytes := by
  fun_induction chunks size bytes with
  | case1 bytes h =>
    rcases h with h | rfl
    · exact absurd h hsize
    · rfl
  | case2 bytes h ih => rw [List.flatten_cons, ih, List.take_append_drop]

/-- No piece is shorter if the size divides the length. -/
theorem length_of_mem_chunks {size : ℕ} {bytes : Bytes} (h : size ∣ bytes.length) :
    ∀ piece ∈ chunks size bytes, piece.length = size := by
  fun_induction chunks size bytes with
  | case1 bytes _ => exact nofun
  | case2 bytes hmore ih =>
    have hpos : bytes.length ≠ 0 := fun hzero => hmore (.inr (List.length_eq_zero_iff.mp hzero))
    have hfirst : size ≤ bytes.length := Nat.le_of_dvd (Nat.pos_of_ne_zero hpos) h
    intro piece hpiece
    rcases List.mem_cons.mp hpiece with rfl | hrest
    · exact List.length_take_of_le hfirst
    · refine ih ?_ piece hrest
      rw [List.length_drop]
      exact Nat.dvd_sub h (dvd_refl size)

theorem xor_xor_cancel {a b : Bytes} (h : a.length ≤ b.length) : xor (xor a b) b = a := by
  refine List.ext_getElem (by simp [h]) fun i _ _ => ?_
  simp only [xor, List.getElem_zipWith, UInt8.xor_assoc, UInt8.xor_self, UInt8.xor_zero]

end Conformance.Bytes

namespace Conformance.Text.Utf8

theorem decode_ofString (text : String) : decode (Bytes.ofString text) = .ok text := by
  have h : String.fromUTF8? text.toUTF8 = some text := by
    rw [String.fromUTF8?, String.toUTF8_eq_toByteArray, dif_pos text.isValidUTF8]
    rfl
  rw [decode, Bytes.toByteArray_ofString, h]

theorem ofString_of_decode {bytes : Bytes} {text : String} (h : decode bytes = .ok text) :
    Bytes.ofString text = bytes := by
  unfold decode at h
  split at h
  · rename_i found hfound
    cases h
    have hbytes : text.toUTF8 = bytes.toByteArray := by
      unfold String.fromUTF8? at hfound
      split at hfound
      · cases hfound
        rfl
      · cases hfound
    rw [Bytes.ofString, hbytes]
    rfl
  · cases h

end Conformance.Text.Utf8

namespace Conformance.Bytes

theorem ofString_append (s t : String) : ofString (s ++ t) = ofString s ++ ofString t := by
  simp [ofString]

theorem ofString_ofList (chars : List Char) :
    ofString (String.ofList chars) = chars.flatMap String.utf8EncodeChar := by
  rw [ofString, String.toUTF8_eq_toByteArray, String.toByteArray_ofList, List.utf8Encode]
  simp

theorem ofString_injective : Function.Injective ofString := by
  intro s t h
  have hs := Text.Utf8.decode_ofString s
  rw [h, Text.Utf8.decode_ofString t] at hs
  exact (Except.ok.inj hs).symm

theorem ofUInt64_injective : Function.Injective ofUInt64 := by
  intro m n h
  have hm : m.toNat < 256 ^ 8 := m.toNat_lt
  have hn : n.toNat < 256 ^ 8 := n.toNat_lt
  apply UInt64.toNat_inj.mp
  rw [← toNat_ofNat hm, ← toNat_ofNat hn]
  exact congrArg toNat h

/-- A text before a number of fixed width ends where the number begins. -/
theorem ofString_append_ofUInt64_inj {s t : String} {m n : UInt64} :
    ofString s ++ ofUInt64 m = ofString t ++ ofUInt64 n ↔ s = t ∧ m = n := by
  constructor
  · intro h
    have hwidth : (ofUInt64 m).length = (ofUInt64 n).length := by simp [ofUInt64]
    obtain ⟨htext, hnumber⟩ := List.append_inj' h hwidth
    exact ⟨ofString_injective htext, ofUInt64_injective hnumber⟩
  · rintro ⟨rfl, rfl⟩
    rfl

end Conformance.Bytes
