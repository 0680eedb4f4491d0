import Conformance.Cipher.Gcm
import Conformance.Proofs.Cipher.Aes

/-!
# What opens

The key stream is at least as long as the text, so that it masks every byte of it and
masking twice gives the text back. Hence a byte string opens to a text exactly when
it is what the text is sealed to.
-/
namespace Conformance.Gcm
open Conformance

/-- A key and a nonce of the sizes that the cipher takes. -/
structure Sized (key nonce : Bytes) : Prop where
  key : key.length = keySize
  nonce : nonce.length = nonceSize

variable {key nonce : Bytes}

theorem Sized.length_block (h : Sized key nonce) {block : Bytes} (hblock : block.length = 16) :
    (Aes.encryptWith (Aes.roundKeys key) block).length = 16 :=
  Aes.length_encryptWith (Aes.length_of_mem_roundKeys h.key) hblock

theorem Sized.length_counterBlock (h : Sized key nonce) (counter : ℕ) :
    (counterBlock nonce counter).length = 16 := by
  rw [counterBlock, List.length_append, h.nonce, Bytes.length_ofNat]
  rfl

theorem Sized.length_keyStream (h : Sized key nonce) (blocks : ℕ) :
    (keyStream (Aes.roundKeys key) nonce blocks).length = blocks * 16 := by
  have hblocks : ∀ block ∈ (List.range blocks).map fun i =>
      Aes.encryptWith (Aes.roundKeys key) (counterBlock nonce (i + 2)), block.length = 16 := by
    intro block hblock
    obtain ⟨i, -, rfl⟩ := List.mem_map.mp hblock
    exact h.length_block (h.length_counterBlock _)
  rw [keyStream, List.flatMap_def, Bytes.length_flatten_of_forall hblocks, List.length_map,
    List.length_range]

theorem Sized.length_le_keyStream (h : Sized key nonce) (text : Bytes) :
    text.length ≤ (keyStream (Aes.roundKeys key) nonce ((text.length + 15) / 16)).length := by
  rw [h.length_keyStream]
  omega

theorem Sized.length_crypt (h : Sized key nonce) (text : Bytes) :
    (crypt (Aes.roundKeys key) nonce text).length = text.length := by
  rw [crypt, Bytes.length_xor, Nat.min_eq_left (h.length_le_keyStream text)]

theorem Sized.crypt_crypt (h : Sized key nonce) (text : Bytes) :
    crypt (Aes.roundKeys key) nonce (crypt (Aes.roundKeys key) nonce text) = text := by
  have hlength := h.length_crypt text
  rw [crypt, hlength]
  exact Bytes.xor_xor_cancel (h.length_le_keyStream text)

theorem Sized.length_tag (h : Sized key nonce) (aad body : Bytes) :
    (tag (Aes.roundKeys key) nonce aad body).length = tagSize := by
  rw [tag, Bytes.length_xor, Bytes.length_ofNat, h.length_block (h.length_counterBlock 1)]
  rfl

theorem Sized.length_encrypt (h : Sized key nonce) (aad text : Bytes) :
    (encrypt key nonce aad text).length = text.length + tagSize := by
  rw [encrypt, List.length_append, h.length_crypt, h.length_tag]

/-- Only the sealing of a text opens, and to that text. -/
theorem Sized.decrypt?_eq_some_iff (h : Sized key nonce) (aad sealed text : Bytes) :
    decrypt? key nonce aad sealed = some text ↔ sealed = encrypt key nonce aad text := by
  simp only [decrypt?, Option.ite_none_right_eq_some, Option.some.injEq]
  constructor
  · rintro ⟨htag, rfl⟩
    rw [encrypt, h.crypt_crypt, ← htag, List.take_append_drop]
  · rintro rfl
    have hbody : (encrypt key nonce aad text).length - tagSize =
        (crypt (Aes.roundKeys key) nonce text).length := by
      rw [h.length_encrypt, h.length_crypt, Nat.add_sub_cancel]
    rw [hbody, encrypt, List.drop_left, List.take_left]
    exact ⟨rfl, h.crypt_crypt text⟩

/-- After any body exactly one tag opens. -/
theorem Sized.existsUnique_tag (h : Sized key nonce) (aad body : Bytes) :
    ∃! t : Bytes, t.length = tagSize ∧ ∃ text, decrypt? key nonce aad (body ++ t) = some text := by
  refine ⟨tag (Aes.roundKeys key) nonce aad body, ⟨h.length_tag aad body, ?_⟩, ?_⟩
  · refine ⟨crypt (Aes.roundKeys key) nonce body, (h.decrypt?_eq_some_iff aad _ _).mpr ?_⟩
    rw [encrypt, h.crypt_crypt]
  · rintro t ⟨hlength, text, hopens⟩
    have happend := (h.decrypt?_eq_some_iff aad _ _).mp hopens
    rw [encrypt] at happend
    obtain ⟨rfl, ht⟩ := List.append_inj' happend (by rw [hlength, h.length_tag])
    exact ht

end Conformance.Gcm
