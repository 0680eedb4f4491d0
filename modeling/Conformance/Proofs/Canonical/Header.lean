import Conformance.Canonical.Header
import Conformance.Proofs.Bytes

/-!
# Headers read back

Below `2 ^ 64` a written header is read back with whatever follows it, and a
header that is read was written: its width is the least that holds its number.
-/
namespace Conformance.Canonical
open Conformance

theorem Major.code_lt (major : Major) : major.code < 8 := by
  cases major <;> decide

theorem Major.ofInitial_ofNat (major : Major) {info : ℕ} (h : info < 32) :
    Major.ofInitial (UInt8.ofNat (major.code * 32 + info)) = major := by
  have hq : (UInt8.ofNat (major.code * 32 + info)).toNat / 32 = major.code := by
    have hm := major.code_lt
    rw [UInt8.toNat_ofNat']
    omega
  rw [ofInitial, hq]
  cases major <;> rfl

theorem Major.code_ofInitial (b : UInt8) : (Major.ofInitial b).code = b.toNat / 32 := by
  have hb : b.toNat / 32 < 8 := by
    have := b.toNat_lt
    omega
  rw [ofInitial]
  interval_cases b.toNat / 32 <;> rfl

namespace Header

/-- The low five bits of the initial byte: the number itself, or the announced width. -/
def info (n : ℕ) : ℕ :=
  if n < 24 then n else widthInfo (width n)

theorem width_small {n : ℕ} (h : n < 24) : width n = 0 := by
  rw [width, if_pos h]

theorem info_lt (n : ℕ) : info n < 32 := by
  unfold info widthInfo
  split
  · omega
  · split <;> decide

theorem write_eq (major : Major) (n : ℕ) :
    write major n = UInt8.ofNat (major.code * 32 + info n) :: Bytes.ofNat (width n) n := by
  unfold write info
  by_cases h : n < 24
  · rw [if_pos h, if_pos h, width_small h]
    rfl
  · rw [if_neg h, if_neg h]

/-- The announced width is one of four, and the low bits tell which. -/
theorem announced?_info {n : ℕ} (h : ¬ n < 24) : announced? (info n) = some (width n) := by
  unfold info width
  simp only [if_neg h]
  split_ifs <;> rfl

theorem lt_pow_width {n : ℕ} (h : ¬ n < 24) (hn : n < UInt64.size) : n < 256 ^ width n := by
  unfold width
  simp only [if_neg h]
  split_ifs <;> simp_all

theorem width_le (n : ℕ) : width n ≤ 8 := by
  unfold width
  split_ifs <;> decide

theorem eq_info_of_announced {low announced n : ℕ} (ha : announced? low = some announced)
    (hw : width n = announced) : low = info n := by
  have hn : ¬ n < 24 := by
    intro hn
    rw [← hw, width_small hn] at ha
    unfold announced? at ha
    split at ha <;> simp at ha
  rw [info, if_neg hn, hw]
  unfold announced? at ha
  split at ha <;> cases ha <;> rfl

@[simp] theorem take_append (total : ℕ) (front rest : Bytes) :
    take total front.length (front ++ rest) = .ok (front, rest) := by
  rw [take, if_neg (by simp), List.take_left, List.drop_left]

theorem eq_append_of_take {total n : ℕ} {bytes front rest : Bytes}
    (h : take total n bytes = .ok (front, rest)) : bytes = front ++ rest ∧ front.length = n := by
  unfold take at h
  split at h
  · cases h
  · cases h
    exact ⟨(List.take_append_drop n bytes).symm, by simp; omega⟩

theorem argument_append (total : ℕ) {n : ℕ} (hn : n < UInt64.size) (rest : Bytes) :
    argument total (info n) (Bytes.ofNat (width n) n ++ rest) = .ok (n, rest) := by
  unfold argument
  by_cases h : n < 24
  · have hi : info n = n := if_pos h
    rw [hi, if_pos h, width_small h]
    rfl
  · have hi : ¬ info n < 24 := by
      rw [info, if_neg h]
      unfold widthInfo
      split <;> decide
    have ht : take total (width n) (Bytes.ofNat (width n) n ++ rest) =
        .ok (Bytes.ofNat (width n) n, rest) := by
      simpa only [Bytes.length_ofNat] using take_append total (Bytes.ofNat (width n) n) rest
    rw [if_neg hi, announced?_info h]
    change (take total (width n) (Bytes.ofNat (width n) n ++ rest) >>= _) = _
    rw [ht]
    change (if width (Bytes.toNat (Bytes.ofNat (width n) n)) = width n then _ else _) = _
    rw [Bytes.toNat_ofNat (lt_pow_width h hn), if_pos rfl]

theorem eq_append_of_argument {total low n : ℕ} {rest left : Bytes}
    (h : argument total low rest = .ok (n, left)) :
    low = info n ∧ n < UInt64.size ∧ rest = Bytes.ofNat (width n) n ++ left := by
  unfold argument at h
  split at h
  · rename_i hlow
    cases h
    refine ⟨(if_pos hlow).symm, hlow.trans (by decide), ?_⟩
    rw [width_small hlow]
    rfl
  · rename_i hlow
    split at h
    · cases h
    · rename_i announced ha
      cases ht : take total announced rest with
      | error r =>
        rw [ht] at h
        cases h
      | ok p =>
        obtain ⟨digits, tail⟩ := p
        rw [ht] at h
        change (if width (Bytes.toNat digits) = announced then _ else _) = _ at h
        split at h
        · rename_i hw
          cases h
          obtain ⟨hrest, hlen⟩ := eq_append_of_take ht
          have hinfo := eq_info_of_announced ha hw
          have hdigits : Bytes.ofNat (width (Bytes.toNat digits)) (Bytes.toNat digits) = digits := by
            rw [hw, ← hlen, Bytes.ofNat_toNat]
          have hbound : Bytes.toNat digits < UInt64.size := by
            have hlt := Bytes.toNat_lt digits
            have hle : digits.length ≤ 8 := by
              rw [hlen, ← hw]
              exact width_le _
            exact hlt.trans_le (Nat.pow_le_pow_right (by decide) hle)
          exact ⟨hinfo, hbound, by rw [hdigits, hrest]⟩
        · cases h

theorem initial_mod (major : Major) (n : ℕ) :
    (UInt8.ofNat (major.code * 32 + info n)).toNat % 32 = info n := by
  have hi := info_lt n
  have hm := major.code_lt
  rw [UInt8.toNat_ofNat']
  omega

/-- A written header is read back, whatever follows it. -/
theorem read_write_append (total : ℕ) (major : Major) {n : ℕ} (hn : n < UInt64.size)
    (rest : Bytes) : read total (write major n ++ rest) = .ok (major, n, rest) := by
  rw [write_eq, List.cons_append]
  change (argument total _ _ >>= _) = _
  rw [initial_mod, argument_append total hn rest]
  change Except.ok (Major.ofInitial _, n, rest) = _
  rw [Major.ofInitial_ofNat major (info_lt n)]

/-- A header that is read is the written form of what was read. -/
theorem eq_write_append_of_read {total n : ℕ} {bytes rest : Bytes} {major : Major}
    (h : read total bytes = .ok (major, n, rest)) :
    n < UInt64.size ∧ bytes = write major n ++ rest := by
  cases bytes with
  | nil => cases h
  | cons initial tail =>
    cases ha : argument total (initial.toNat % 32) tail with
    | error r =>
      change (argument total _ _ >>= _) = _ at h
      rw [ha] at h
      cases h
    | ok p =>
      obtain ⟨m, left⟩ := p
      change (argument total _ _ >>= _) = _ at h
      rw [ha] at h
      cases h
      obtain ⟨hinfo, hbound, htail⟩ := eq_append_of_argument ha
      refine ⟨hbound, ?_⟩
      have hinitial : UInt8.ofNat ((Major.ofInitial initial).code * 32 + info n) = initial := by
        rw [Major.code_ofInitial, ← hinfo]
        apply UInt8.toNat_inj.mp
        have hb := initial.toNat_lt
        rw [UInt8.toNat_ofNat']
        omega
      rw [write_eq, hinitial, htail, List.cons_append]

/-- A written header ends where what follows it begins. -/
theorem write_append_inj {major other : Major} {m n : ℕ} (hm : m < UInt64.size)
    (hn : n < UInt64.size) {a b : Bytes} (h : write major m ++ a = write other n ++ b) :
    major = other ∧ m = n ∧ a = b := by
  have hread := read_write_append 0 major hm a
  rw [h, read_write_append 0 other hn, Except.ok.injEq, Prod.mk.injEq, Prod.mk.injEq] at hread
  obtain ⟨hmajor, hnumber, hrest⟩ := hread
  exact ⟨hmajor.symm, hnumber.symm, hrest.symm⟩

end Header
end Conformance.Canonical
