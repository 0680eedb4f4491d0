import Conformance.Proofs.Canonical.Reading
import Mathlib

/-!
# Encodings and values determine each other

Decoding recovers an encoded value up to the order of map entries, exactly when
the value keeps within the depth that the decoder allows. Only encodings are
decoded, and two values have one encoding exactly when they agree.
-/
namespace Conformance.Canonical
open Conformance

/-- Byte strings are counted by machine words, hence the bound on the length. -/
theorem decode_of_encode {v : Value} {bytes : Bytes} (h : encode v = .ok bytes)
    (hlen : bytes.length < UInt64.size) :
    ((∀ n w, Value.Lies n w v → n ≤ 64) →
      ∃ w, decode bytes = .ok w ∧ (w == v) = true ∧ encode w = .ok bytes) ∧
    ((∃ n w, Value.Lies n w v ∧ 64 < n) →
      decode bytes = .error .tooDeep ∧
        DecodeRefusal.tooDeep.fault = ⟨.decode, "nesting too deep"⟩) := by
  constructor
  · intro hlies
    have hdepth : v.depth < maxDepth + 1 := Nat.lt_succ_of_le ((v.depth_le_iff 64).mpr hlies)
    obtain ⟨w, hw, hagree⟩ := decodeValue_reads bytes.length h hlen hdepth
    have hread := hw []
    rw [List.append_nil] at hread
    have hdecode := (decode_eq_ok_iff bytes w).mpr hread
    exact ⟨w, hdecode, (Value.beq_iff w v).mpr hagree, (decode_sound hdecode).1⟩
  · rintro ⟨n, w, hw, hn⟩
    have hdepth : maxDepth + 1 ≤ v.depth := hn.trans_le hw.le_depth
    have hrefuse := decodeValue_refuses bytes.length h hlen hdepth []
    rw [List.append_nil] at hrefuse
    refine ⟨?_, rfl⟩
    rw [decode, hrefuse, error_bind]

/-- A map whose second key is shorter than its first, which is a map out of order itself. -/
def nestedMap : Value :=
  .map [(.map [(.unsigned 2, .unsigned 0), (.unsigned 1, .text "ü")], .array [.bytes [255]]),
    (.unsigned 24, .unsigned 300)]

def nestedMapBytes : Bytes :=
  [0xa2, 0x18, 0x18, 0x19, 0x01, 0x2c,
    0xa2, 0x01, 0x62, 0xc3, 0xbc, 0x02, 0x00, 0x81, 0x41, 0xff]

/-- So many arrays, each the only item of the one around it. -/
def tower : ℕ → Value
  | 0 => .unsigned 0
  | n + 1 => .array [tower n]

theorem lies_tower (n : ℕ) : Value.Lies n (.unsigned 0) (tower n) := by
  induction n with
  | zero => exact .root _
  | succ n ih => exact .item List.mem_cons_self ih

set_option maxRecDepth 4000 in
theorem decode_of_encode_nested_and_tower :
    (encode nestedMap = .ok nestedMapBytes ∧ ∃ w, decode nestedMapBytes = .ok w ∧
      (w == nestedMap) = true ∧ encode w = .ok nestedMapBytes) ∧
    encode (tower 65) = .ok (List.replicate 65 0x81 ++ [0]) ∧
      decode (List.replicate 65 0x81 ++ [0]) = .error .tooDeep := by
  have hnested : encode nestedMap = .ok nestedMapBytes := by cbv
  have htower : encode (tower 65) = .ok (List.replicate 65 0x81 ++ [0]) := rfl
  have hlies := (nestedMap.depth_le_iff 64).mp (by decide)
  refine ⟨⟨hnested, (decode_of_encode hnested (by decide)).1 hlies⟩, htower, ?_⟩
  exact ((decode_of_encode htower (by decide)).2 ⟨65, .unsigned 0, lies_tower 65, by decide⟩).1

/-- The whole of an accepted byte string is the encoding of what it is decoded to, so that no other
byte string is decoded to a value that agrees with it. -/
theorem encode_of_decode {bytes : Bytes} {v : Value} (h : decode bytes = .ok v) :
    encode v = .ok bytes ∧ WellFormed bytes ∧
      ∀ other w, decode other = .ok w → (w == v) = true → other = bytes := by
  obtain ⟨hencodes, hform⟩ := decode_sound h
  refine ⟨hencodes, hform, fun other w hother hagree => ?_⟩
  exact ((encodes_congr hagree other).mp (decode_sound hother).1).unique hencodes

theorem encode_of_decode_nested : ∃ v, decode nestedMapBytes = .ok v ∧
    encode v = .ok nestedMapBytes ∧ WellFormed nestedMapBytes ∧
      ∀ other w, decode other = .ok w → (w == v) = true → other = nestedMapBytes := by
  have h : decode nestedMapBytes = .ok (.map [(.unsigned 24, .unsigned 300),
      (.map [(.unsigned 1, .text "ü"), (.unsigned 2, .unsigned 0)], .array [.bytes [255]])]) := by
    cbv
  exact ⟨_, h, encode_of_decode h⟩

theorem Encodes.beq {v w : Value} {bytes : Bytes} (hv : Encodes v bytes) (hw : Encodes w bytes)
    (hlen : bytes.length < UInt64.size) : (v == w) = true := by
  let room := max v.depth w.depth + 1
  have hroomv : v.depth < room := Nat.lt_succ_of_le (le_max_left _ _)
  have hroomw : w.depth < room := Nat.lt_succ_of_le (le_max_right _ _)
  obtain ⟨a, ha, hav⟩ := decodeValue_reads bytes.length hv hlen hroomv
  obtain ⟨b, hb, hbw⟩ := decodeValue_reads bytes.length hw hlen hroomw
  have hab : a = b := by
    have heq := (ha []).symm.trans (hb [])
    cases heq
    rfl
  rw [Value.beq_iff, ← hav, ← hbw, hab]

/-- Agreement is equality of encodings, and a rearrangement of entries anywhere is not seen. -/
theorem encode_eq_iff_beq (v w : Value) :
    ((v == w) = true → ((∃ a, encode v = .ok a) ↔ ∃ b, encode w = .ok b)) ∧
    (∀ a b, encode v = .ok a → encode w = .ok b →
      ((v == w) = true → a = b) ∧ (a.length < UInt64.size → a = b → (v == w) = true)) ∧
    (Relation.ReflTransGen Value.Rearranges v w →
      ∀ bytes, encode v = .ok bytes ↔ encode w = .ok bytes) := by
  refine ⟨fun h => exists_congr (encodes_congr h), fun a b ha hb => ⟨fun h => ?_, ?_⟩, fun h => ?_⟩
  · exact ((encodes_congr h a).mp ha).unique hb
  · rintro hlen rfl
    exact Encodes.beq ha hb hlen
  · exact encodes_congr (Value.beq_of_rearranges h)

/-- A map with a map among its keys. -/
def seating : Value :=
  .map [(.text "a", .unsigned 1),
    (.map [(.unsigned 2, .bytes [7]), (.unsigned 1, .text "")], .array [])]

/-- The entries of both maps stand in another order. -/
def reseated : Value :=
  .map [(.map [(.unsigned 1, .text ""), (.unsigned 2, .bytes [7])], .array []),
    (.text "a", .unsigned 1)]

theorem encode_reseated :
    Relation.ReflTransGen Value.Rearranges seating reseated ∧
    ∃ bytes, encode seating = .ok bytes ∧ encode reseated = .ok bytes ∧
      bytes.length < UInt64.size ∧ (seating == reseated) = true := by
  have hkey : Value.Rearranges seating (.map [(.text "a", .unsigned 1),
      (.map [(.unsigned 1, .text ""), (.unsigned 2, .bytes [7])], .array [])]) :=
    .key [_] [] _ (.here (List.Perm.swap _ _ _))
  have hmoved : Relation.ReflTransGen Value.Rearranges seating reseated :=
    (Relation.ReflTransGen.single hkey).tail (.here (List.Perm.swap _ _ _))
  obtain ⟨bytes, hbytes, hlength⟩ : ∃ bytes, encode seating = .ok bytes ∧
      bytes.length < UInt64.size := ⟨_, by cbv, by decide⟩
  obtain ⟨-, hencoded, hrearranged⟩ := encode_eq_iff_beq seating reseated
  have hother := (hrearranged hmoved bytes).mp hbytes
  exact ⟨hmoved, bytes, hbytes, hother, hlength, (hencoded bytes bytes hbytes hother).2 hlength rfl⟩

end Conformance.Canonical
