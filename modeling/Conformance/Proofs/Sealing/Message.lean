import Conformance.Proofs.Canonical.RoundTrip
import Conformance.Proofs.Cipher.Gcm
import Conformance.Proofs.KeySchedule.SessionKeys
import Conformance.Sealing.Message
import Mathlib

/-!
# Sealed messages open

A message opens under the key, nonce and associated data it was sealed with, and
under these nothing else is opened to it. The keys of a session have the sizes that
the cipher takes, and the associated data of a room message tells its sender, room
and sequence number.
-/
namespace Conformance.Sealing
open Conformance

/-- The answer is a refusal of this kind. -/
def Fails (answer : Except Refusal Bytes) (kind : Fault.Kind) : Prop :=
  ∃ refusal, answer = .error refusal ∧ refusal.fault.kind = kind

namespace Key
variable (k : Key)

/-- The key has 32 bytes and the nonce 12. -/
def Sized : Prop := Gcm.Sized k.key k.nonce

theorem decrypt_of_short {ciphertext : Bytes} (h : ciphertext.length < Gcm.tagSize) (aad : Bytes) :
    k.decrypt aad ciphertext = .error (.malformed ciphertext.length) :=
  if_pos h

theorem decrypt_of_long {ciphertext : Bytes} (h : Gcm.tagSize ≤ ciphertext.length) (aad : Bytes) :
    k.decrypt aad ciphertext = match Gcm.decrypt? k.key k.nonce aad ciphertext with
      | some text => .ok text
      | none => .error .integrity :=
  if_neg (Nat.not_lt.mpr h)

theorem decrypt_eq_ok_iff (aad ciphertext text : Bytes) :
    k.decrypt aad ciphertext = .ok text ↔
      Gcm.tagSize ≤ ciphertext.length ∧ Gcm.decrypt? k.key k.nonce aad ciphertext = some text := by
  rcases Nat.lt_or_ge ciphertext.length Gcm.tagSize with h | h
  · simp [k.decrypt_of_short h, Nat.not_le.mpr h]
  · rw [k.decrypt_of_long h]
    cases Gcm.decrypt? k.key k.nonce aad ciphertext <;> simp [h]

theorem fails_malformed_iff (aad ciphertext : Bytes) :
    Fails (k.decrypt aad ciphertext) .malformed ↔ ciphertext.length < Gcm.tagSize := by
  rcases Nat.lt_or_ge ciphertext.length Gcm.tagSize with h | h
  · exact iff_of_true ⟨_, k.decrypt_of_short h aad, rfl⟩ h
  · refine iff_of_false ?_ (Nat.not_lt.mpr h)
    rw [k.decrypt_of_long h]
    rintro ⟨refusal, heq, hkind⟩
    cases hopen : Gcm.decrypt? k.key k.nonce aad ciphertext with
    | some text => simp [hopen] at heq
    | none =>
      rw [hopen] at heq
      cases heq
      cases hkind

theorem opens_or_fails_integrity {ciphertext : Bytes} (h : Gcm.tagSize ≤ ciphertext.length)
    (aad : Bytes) :
    (∃ text, k.decrypt aad ciphertext = .ok text) ∨
      Fails (k.decrypt aad ciphertext) .integrity := by
  rw [k.decrypt_of_long h]
  cases Gcm.decrypt? k.key k.nonce aad ciphertext with
  | some text => exact .inl ⟨text, rfl⟩
  | none => exact .inr ⟨.integrity, rfl, rfl⟩

variable {k}

/-- What opens is what was sealed. -/
theorem Sized.decrypt_eq_ok_iff (h : k.Sized) (aad ciphertext text : Bytes) :
    k.decrypt aad ciphertext = .ok text ↔ ciphertext = k.encrypt aad text := by
  rw [k.decrypt_eq_ok_iff, Gcm.Sized.decrypt?_eq_some_iff h]
  refine and_iff_right_of_imp ?_
  rintro rfl
  rw [Gcm.Sized.length_encrypt h]
  exact Nat.le_add_left _ _

theorem Sized.existsUnique_tag (h : k.Sized) (aad body : Bytes) :
    ∃! tag : Bytes, tag.length = Gcm.tagSize ∧ ∃ text, k.decrypt aad (body ++ tag) = .ok text := by
  have hiff (tag : Bytes) :
      (tag.length = Gcm.tagSize ∧ ∃ text, k.decrypt aad (body ++ tag) = .ok text) ↔
        tag.length = Gcm.tagSize ∧
          ∃ text, Gcm.decrypt? k.key k.nonce aad (body ++ tag) = some text := by
    refine and_congr_right fun hlength => exists_congr fun text => ?_
    rw [k.decrypt_eq_ok_iff, List.length_append, hlength]
    exact and_iff_right (Nat.le_add_left _ _)
  simp only [hiff]
  exact Gcm.Sized.existsUnique_tag h aad body

/-- A tag after a body opens it, and every other one is told to be wrong. -/
theorem Sized.exists_tag (h : k.Sized) (aad body : Bytes) :
    ∃ tag : Bytes, tag.length = Gcm.tagSize ∧ (∃ text, k.decrypt aad (body ++ tag) = .ok text) ∧
      ∀ other : Bytes, other.length = Gcm.tagSize → other ≠ tag →
        Fails (k.decrypt aad (body ++ other)) .integrity := by
  obtain ⟨tag, ⟨hlength, hopens⟩, hunique⟩ := h.existsUnique_tag aad body
  refine ⟨tag, hlength, hopens, fun other hother hne => ?_⟩
  have hlong : Gcm.tagSize ≤ (body ++ other).length := by
    rw [List.length_append, hother]
    exact Nat.le_add_left _ _
  rcases k.opens_or_fails_integrity hlong aad with hopened | hfails
  · exact absurd (hunique other ⟨hother, hopened⟩) hne
  · exact hfails

theorem sized_ofSession (secret sessionId : Bytes) :
    (ofSession (KeySchedule.sessionKeys secret sessionId)).Sized :=
  ⟨KeySchedule.length_encryption secret sessionId, KeySchedule.length_nonce secret sessionId⟩

end Key

namespace Address

theorem exists_aad (a : Address) : ∃ bytes, a.aad = .ok bytes := by
  have hcodes : List.Forall₂ Canonical.Encodes
      [.bytes a.senderId, .text a.roomId, .unsigned a.sequence] [_, _, _] :=
    .cons rfl (.cons rfl (.cons rfl .nil))
  exact ⟨_, (Canonical.encodes_array _ _).mpr ⟨_, hcodes, rfl⟩⟩

theorem value_beq_iff (a b : Address) : (a.value == b.value) = true ↔ a = b := by
  cases a
  cases b
  rw [Canonical.Value.beq_iff]
  simp [value, Canonical.Value.arranged, Canonical.Value.arrangedItems]

/-- Byte strings are counted by machine words, hence the bound on the length. -/
theorem eq_of_aad_eq {a b : Address} {bytes : Bytes} (ha : a.aad = .ok bytes)
    (hb : b.aad = .ok bytes) (hlen : bytes.length < UInt64.size) : a = b :=
  (value_beq_iff a b).mp (Canonical.Encodes.beq ha hb hlen)

end Address

/-- Sealing and opening are inverse, a text that does not open is told apart from one that is cut
off, and of all tags after a body one opens it and the others are refused. Between the members of a
session this holds without a condition, and no two addresses share their associated data. -/
theorem opens_as_sealed :
    (∀ k : Key, k.key.length = 32 → k.nonce.length = 12 → ∀ aad : Bytes,
      (∀ text, (k.encrypt aad text).length = text.length + 16 ∧
        k.decrypt aad (k.encrypt aad text) = .ok text) ∧
      (∀ body, ∃! tag : Bytes, tag.length = 16 ∧ ∃ text, k.decrypt aad (body ++ tag) = .ok text) ∧
      ∀ body, ∃ tag : Bytes, tag.length = 16 ∧ (∃ text, k.decrypt aad (body ++ tag) = .ok text) ∧
        ∀ other : Bytes, other.length = 16 → other ≠ tag →
          Fails (k.decrypt aad (body ++ other)) .integrity) ∧
    (∀ (k : Key) (aad ciphertext : Bytes),
      (Fails (k.decrypt aad ciphertext) .malformed ↔ ciphertext.length < 16) ∧
      (16 ≤ ciphertext.length → (∃ text, k.decrypt aad ciphertext = .ok text) ∨
        Fails (k.decrypt aad ciphertext) .integrity)) ∧
    (∀ secret sessionId : Bytes,
      let keys := KeySchedule.sessionKeys secret sessionId
      (KeySchedule.derive secret (some sessionId) (.ofString "FoxWhisper-SessionKeys") 76
        >>= KeySchedule.SessionKeys.ofBlock) = .ok keys ∧
      ∀ (a : Address) (text : Bytes), ∃ aad, a.aad = .ok aad ∧
        ((Key.ofSession keys).encrypt aad text).length = text.length + 16 ∧
        (Key.ofSession keys).decrypt aad ((Key.ofSession keys).encrypt aad text) = .ok text) ∧
    (∀ (a b : Address) (x y : Bytes), a.aad = .ok x → b.aad = .ok y → x.length < UInt64.size →
      a ≠ b → x ≠ y) := by
  have hopens {k : Key} (hk : k.Sized) (aad text : Bytes) :
      (k.encrypt aad text).length = text.length + 16 ∧
        k.decrypt aad (k.encrypt aad text) = .ok text :=
    ⟨Gcm.Sized.length_encrypt hk aad text, (hk.decrypt_eq_ok_iff aad _ text).mpr rfl⟩
  refine ⟨fun k hkey hnonce aad => ?_, fun k aad ciphertext => ?_, fun secret sessionId => ?_, ?_⟩
  · have hk : k.Sized := ⟨hkey, hnonce⟩
    exact ⟨hopens hk aad, hk.existsUnique_tag aad, hk.exists_tag aad⟩
  · exact ⟨k.fails_malformed_iff aad ciphertext, fun h => k.opens_or_fails_integrity h aad⟩
  · refine ⟨KeySchedule.ofBlock_derive secret sessionId, fun a text => ?_⟩
    obtain ⟨aad, haad⟩ := a.exists_aad
    exact ⟨aad, haad, hopens (Key.sized_ofSession secret sessionId) aad text⟩
  · rintro a b x _ hx hy hlen hne rfl
    exact hne (Address.eq_of_aad_eq hx hy hlen)

/-- A sender and a room that run into each other. -/
def left : Address := ⟨[97, 98], "c", 7⟩

def right : Address := ⟨[97], "bc", 7⟩

theorem opens_as_sealed_left_and_right :
    let k : Key := ⟨Bytes.zeros 32, Bytes.zeros 12⟩
    k.decrypt [] (k.encrypt [] [1, 2, 3]) = .ok [1, 2, 3] ∧
    (∃! tag : Bytes, tag.length = 16 ∧ ∃ text, k.decrypt [9] ([4, 5] ++ tag) = .ok text) ∧
    (∃ other : Bytes, other.length = 16 ∧ Fails (k.decrypt [9] ([4, 5] ++ other)) .integrity) ∧
    Fails (k.decrypt [] (Bytes.zeros 15)) .malformed ∧
    ∃ x y, left.aad = .ok x ∧ right.aad = .ok y ∧ x ≠ y := by
  intro k
  obtain ⟨hsealed, hclasses, -, haad⟩ := opens_as_sealed
  have hkey : k.key.length = 32 := Bytes.length_zeros 32
  have hnonce : k.nonce.length = 12 := Bytes.length_zeros 12
  have hleft : left.aad = .ok [0x83, 0x42, 97, 98, 0x61, 99, 7] := by cbv
  have hright : right.aad = .ok [0x83, 0x41, 97, 0x62, 98, 99, 7] := by cbv
  obtain ⟨-, hunique, htags⟩ := hsealed k hkey hnonce [9]
  obtain ⟨tag, -, -, hothers⟩ := htags [4, 5]
  have hrefused : ∃ other : Bytes, other.length = 16 ∧
      Fails (k.decrypt [9] ([4, 5] ++ other)) .integrity := by
    by_cases hzeros : Bytes.zeros 16 = tag
    · exact ⟨_, rfl, hothers (1 :: Bytes.zeros 15) rfl (hzeros ▸ by decide)⟩
    · exact ⟨_, rfl, hothers (Bytes.zeros 16) rfl hzeros⟩
  refine ⟨((hsealed k hkey hnonce []).1 [1, 2, 3]).2, hunique [4, 5], hrefused, ?_,
    _, _, hleft, hright, haad left right _ _ hleft hright (by decide) (by decide)⟩
  exact (hclasses k [] (Bytes.zeros 15)).1.mpr (by decide)

end Conformance.Sealing
