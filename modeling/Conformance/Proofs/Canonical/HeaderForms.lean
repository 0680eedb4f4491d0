import Conformance.Proofs.Canonical.Header

/-!
# The forms of a header

A number may follow a major type in several widths, and a number below 24 may also
stand in the initial byte. The header that is written is the shortest of these forms,
no other is as short, and it is the only one that is read.
-/
namespace Conformance.Canonical

/-- The major types are those of three bits. -/
theorem Major.bijOn_code : Set.BijOn Major.code Set.univ (Set.Iio 8) := by
  have hinitial (major : Major) : Major.ofInitial (UInt8.ofNat (major.code * 32)) = major :=
    major.ofInitial_ofNat (by decide : 0 < 32)
  refine ⟨fun major _ => major.code_lt, ?_, ?_⟩
  · intro major _ other _ h
    rw [← hinitial major, h, hinitial other]
  · intro code hcode
    have hcode : code < 8 := hcode
    refine ⟨.ofInitial (UInt8.ofNat (code * 32)), trivial, ?_⟩
    rw [code_ofInitial, UInt8.toNat_ofNat']
    omega

namespace Header

/-- The low five bits of an initial byte and the bytes that follow it hold a number: the bits by
themselves, or one, two, four or eight bytes that they announce. -/
inductive Holds : (low : ℕ) → (digits : Bytes) → ℕ → Prop
  | itself {n : ℕ} (h : n < 24) : Holds n [] n
  | announced {k : ℕ} {digits : Bytes} (hk : k < 4) (h : digits.length = 2 ^ k) :
    Holds (24 + k) digits (Bytes.toNat digits)

/-- The bytes give a major type and a number, in any form. -/
def Gives (code : Bytes) (major : Major) (n : ℕ) : Prop :=
  ∃ initial digits, code = initial :: digits ∧ Major.ofInitial initial = major ∧
    Holds (initial.toNat % 32) digits n

theorem announced?_add {k : ℕ} (hk : k < 4) : announced? (24 + k) = some (2 ^ k) := by
  interval_cases k <;> rfl

theorem exists_width_eq {n : ℕ} (h : ¬ n < 24) : ∃ k < 4, width n = 2 ^ k ∧ info n = 24 + k := by
  unfold info width
  simp only [if_neg h]
  split_ifs
  exacts [⟨0, by decide, rfl, rfl⟩, ⟨1, by decide, rfl, rfl⟩, ⟨2, by decide, rfl, rfl⟩,
    ⟨3, by decide, rfl, rfl⟩]

/-- No width that holds the number is less than the one it is written in. -/
theorem width_le_pow {n k : ℕ} (hk : k < 4) (hn : n < 256 ^ 2 ^ k) : width n ≤ 2 ^ k := by
  unfold width
  interval_cases k <;> split_ifs <;> simp_all

theorem gives_write (major : Major) {n : ℕ} (hn : n < UInt64.size) :
    Gives (write major n) major n := by
  refine ⟨_, _, write_eq major n, major.ofInitial_ofNat (info_lt n), ?_⟩
  rw [initial_mod]
  by_cases h : n < 24
  · rw [info, if_pos h, width_small h]
    exact .itself h
  · obtain ⟨k, hk, hwidth, hinfo⟩ := exists_width_eq h
    have hholds : Holds (24 + k) (Bytes.ofNat (width n) n) (Bytes.toNat (Bytes.ofNat (width n) n)) :=
      .announced hk (by rw [Bytes.length_ofNat, hwidth])
    rwa [Bytes.toNat_ofNat (lt_pow_width h hn), ← hinfo] at hholds

theorem argument_announced (total : ℕ) {k : ℕ} (hk : k < 4) {digits : Bytes}
    (hlength : digits.length = 2 ^ k) (rest : Bytes) :
    argument total (24 + k) (digits ++ rest) =
      if width (Bytes.toNat digits) = 2 ^ k then .ok (Bytes.toNat digits, rest)
      else .error (.notShortest (offset total (digits ++ rest))) := by
  rw [argument, if_neg (by omega), announced?_add hk, ← hlength]
  change (take total digits.length (digits ++ rest) >>= _) = _
  rw [take_append]
  rfl

theorem read_cons (total : ℕ) (initial : UInt8) (rest : Bytes) :
    read total (initial :: rest) = (do
      let (n, left) ← argument total (initial.toNat % 32) rest
      return (Major.ofInitial initial, n, left)) := rfl

/-- Every form but the written one is longer, and is refused for that. -/
theorem Gives.eq_write_or {code : Bytes} {major : Major} {n : ℕ} (h : Gives code major n) :
    code = write major n ∨ ((write major n).length < code.length ∧ ∀ total rest,
      read total (code ++ rest) = .error (.notShortest (total - (code ++ rest).length))) := by
  obtain ⟨initial, digits, rfl, rfl, hholds⟩ := h
  generalize hlow : initial.toNat % 32 = low at hholds
  have hwritten (h : argument 0 low digits = .ok (n, [])) :
      initial :: digits = write (Major.ofInitial initial) n := by
    have hread : read 0 (initial :: digits) = .ok (Major.ofInitial initial, n, []) := by
      rw [read_cons, hlow, h]
      rfl
    simpa using (eq_write_append_of_read hread).2
  cases hholds with
  | itself hsmall => exact .inl (hwritten (if_pos hsmall))
  | @announced k _ hk hlength =>
    by_cases hleast : width (Bytes.toNat digits) = 2 ^ k
    · left
      apply hwritten
      have hread := argument_announced 0 hk hlength []
      rwa [List.append_nil, if_pos hleast] at hread
    · right
      have hbound := Bytes.toNat_lt digits
      rw [hlength] at hbound
      have hwidth := width_le_pow hk hbound
      constructor
      · rw [write_eq, List.length_cons, List.length_cons, Bytes.length_ofNat, hlength]
        omega
      · intro total rest
        rw [List.cons_append, read_cons, hlow, argument_announced total hk hlength, if_neg hleast]
        rfl

/-- A header is written so that it is read back at any place of an input, up to its last byte and no
further. What is read at any place was written, byte for byte; of all forms of a number it is the
shortest, and the others are refused. -/
theorem written_shortest_and_read :
    Set.BijOn Major.code Set.univ (Set.Iio 8) ∧
    (∀ (before : Bytes) (major : Major) (n : UInt64) (after : Bytes),
      let input := before ++ write major n.toNat ++ after
      read input.length (input.drop before.length) = .ok (major, n.toNat, after)) ∧
    (∀ (input : Bytes) (place : ℕ) (major : Major) (n : ℕ) (left : Bytes),
      read input.length (input.drop place) = .ok (major, n, left) →
      n < UInt64.size ∧ left = input.drop (place + (write major n).length) ∧
        (input.drop place).take (write major n).length = write major n) ∧
    (∀ (major : Major) (n : UInt64), Gives (write major n.toNat) major n.toNat) ∧
    ∀ (code : Bytes) (major : Major) (n : ℕ), Gives code major n → code ≠ write major n →
      (write major n).length < code.length ∧ ∀ total rest,
        read total (code ++ rest) = .error (.notShortest (total - (code ++ rest).length)) := by
  refine ⟨Major.bijOn_code, fun before major n after => ?_, fun input place major n left hread => ?_,
    fun major n => gives_write major n.toNat_lt, fun code major n hgives hother => ?_⟩
  · intro input
    have hdrop : input.drop before.length = write major n.toNat ++ after := by
      change (before ++ write major n.toNat ++ after).drop _ = _
      rw [List.append_assoc, List.drop_left]
    rw [hdrop]
    exact read_write_append _ major n.toNat_lt after
  · obtain ⟨hn, hinput⟩ := eq_write_append_of_read hread
    rw [← List.drop_drop, hinput, List.drop_left, List.take_left]
    exact ⟨hn, rfl, rfl⟩
  · exact hgives.eq_write_or.resolve_left hother

/-- Between other bytes 256 is read up to its last byte, and 23 may not follow its initial byte. -/
theorem written_shortest_and_read_at_bounds :
    let input : Bytes := [0xff, 0x19, 0x01, 0x00, 0x07]
    read 5 (input.drop 1) = .ok (.unsigned, 256, [0x07]) ∧
    (input.drop 1).take (write .unsigned 256).length = write .unsigned 256 ∧
    Gives [0x18, 0x17] .unsigned 23 ∧ [0x18, 0x17] ≠ write .unsigned 23 ∧
    read 2 [0x18, 0x17] = .error (.notShortest 0) := by
  intro input
  obtain ⟨-, -, hread, -, hother⟩ := written_shortest_and_read
  have hok : read 5 (input.drop 1) = .ok (.unsigned, 256, [0x07]) := rfl
  have hlong : Gives [0x18, 0x17] .unsigned 23 :=
    ⟨0x18, [0x17], rfl, rfl, .announced (k := 0) (by decide) rfl⟩
  exact ⟨hok, (hread input 1 _ _ _ hok).2.2, hlong, by decide,
    (hother _ _ _ hlong (by decide)).2 2 []⟩

end Header
end Conformance.Canonical
