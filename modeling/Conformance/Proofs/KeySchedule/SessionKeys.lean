import Conformance.KeySchedule.Derivation
import Conformance.Proofs.Sequencing

/-!
# Session keys

Expansion gives as many bytes as it is asked for. The block of a session is therefore
never refused and is cut into keys of the sizes that the cipher takes.
-/
namespace Conformance

namespace Hkdf

theorem length_blocks (key info : Bytes) (count index : ℕ) (previous : Bytes) :
    (blocks key info count index previous).length = count * 32 := by
  induction count generalizing index previous with
  | zero => simp [blocks]
  | succ count ih =>
    rw [blocks, List.length_append, ih, Hmac.length_digest, Nat.succ_mul, Nat.add_comm]

theorem length_expand (key info : Bytes) (length : ℕ) :
    (expand key info length).length = length := by
  rw [expand, List.length_take, length_blocks]
  omega

end Hkdf

namespace KeySchedule

theorem derive_eq_ok {length : ℕ} (hpos : length ≠ 0) (hmax : length ≤ Hkdf.maxLength)
    (ikm : Bytes) (salt : Option Bytes) (label : Bytes) :
    derive ikm salt label length = .ok (Hkdf.expand (Hkdf.extract salt ikm) label length) := by
  rw [derive, Hkdf.derive?, if_neg (by omega)]

variable (secret sessionId : Bytes)

theorem length_sessionBlock : (sessionBlock secret sessionId).length = sessionKeysLength :=
  Hkdf.length_expand _ _ _

/-- Neither the derivation nor the cut into keys is refused. -/
theorem ofBlock_derive :
    (derive secret (some sessionId) (.ofString "FoxWhisper-SessionKeys") sessionKeysLength
      >>= SessionKeys.ofBlock) = .ok (sessionKeys secret sessionId) := by
  rw [derive_eq_ok (by decide) (by decide), ok_bind]
  exact if_pos (length_sessionBlock secret sessionId)

theorem length_encryption : (sessionKeys secret sessionId).encryption.length = 32 := by
  rw [sessionKeys, SessionKeys.split, List.length_take, length_sessionBlock]
  rfl

theorem length_nonce : (sessionKeys secret sessionId).nonce.length = 12 := by
  rw [sessionKeys, SessionKeys.split, List.length_drop, length_sessionBlock]
  rfl

end KeySchedule
end Conformance
