import Conformance.Canonical.Encoding
import Conformance.Cipher.Gcm
import Conformance.KeySchedule.Derivation
/-!
# Sealed messages

Messages are sealed with AES-256-GCM. A text shorter than a tag is malformed and
never authenticated; any other text that does not open has no integrity. The
associated data of a room message is the canonical array of its sender, room and
sequence number.
-/
namespace Conformance.Sealing
open Conformance

inductive Refusal
  | malformed (length : Nat)
  | integrity
  deriving DecidableEq

def Refusal.fault : Refusal → Fault
  | .malformed length =>
    ⟨.malformed, s!"ciphertext of {length} bytes is shorter than the {Gcm.tagSize}-byte tag"⟩
  | .integrity => ⟨.integrity, "AES-256-GCM authentication failed"⟩

/-- A key of 32 bytes with a nonce of 12 bytes. -/
structure Key where
  key : Bytes
  nonce : Bytes
  deriving DecidableEq

def Key.encrypt (k : Key) (aad text : Bytes) : Bytes :=
  Gcm.encrypt k.key k.nonce aad text

def Key.decrypt (k : Key) (aad ciphertext : Bytes) : Except Refusal Bytes :=
  if ciphertext.length < Gcm.tagSize then .error (.malformed ciphertext.length)
  else match Gcm.decrypt? k.key k.nonce aad ciphertext with
    | some text => .ok text
    | none => .error .integrity

def Key.ofSession (keys : KeySchedule.SessionKeys) : Key :=
  ⟨keys.encryption, keys.nonce⟩

/-- Where a room message belongs. -/
structure Address where
  senderId : Bytes
  roomId : String
  sequence : UInt64
  deriving DecidableEq

def Address.value (a : Address) : Canonical.Value :=
  .array [.bytes a.senderId, .text a.roomId, .unsigned a.sequence]

def Address.aad (a : Address) : Except Canonical.EncodeRefusal Bytes :=
  Canonical.encode a.value

end Conformance.Sealing
