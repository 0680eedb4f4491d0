import Conformance.Corpus
import Conformance.KeySchedule.Vectors
import Conformance.Report
import Conformance.Sealing.Message
/-!
# Sealing vectors

A vector states a message with its sealed form, a sealed form that must be
refused, or the associated data of a message. All bytes are in hexadecimal.
-/
namespace Conformance.Sealing
open Conformance

/-- The way in which a sealed form must be refused. -/
inductive FailureClass
  | integrity
  | malformed
  deriving DecidableEq

def FailureClass.name : FailureClass → String
  | .integrity => "Integrity"
  | .malformed => "Malformed"

def Refusal.failure : Refusal → FailureClass
  | .malformed _ => .malformed
  | .integrity => .integrity

inductive Case
  | encrypt (key nonce aad plaintext ciphertext : String)
  | reject (key nonce aad ciphertext : String) (expected : FailureClass)
  | messageAad (senderId roomId : String) (sequence : UInt64) (aad : String)
  | sessionMessage (handshakeSecret sessionId senderId roomId : String) (sequence : UInt64)
      (plaintext ciphertext : String)

def Case.kind : Case → String
  | .encrypt .. => "encrypt"
  | .reject .. => "reject"
  | .messageAad .. => "message_aad"
  | .sessionMessage .. => "session_message"

def checkBytes (report : Report) (what expected : String) (actual : Bytes) : Report :=
  let comparison := KeySchedule.Comparison.ofBytes what expected actual
  report.check comparison.agrees comparison.mismatch

/-- A fault that ends the checks of a vector fails it; what was found before stays. -/
def orFail {α : Type} (report : Report) (result : Except Fault α) (next : α → Report) : Report :=
  match result with
  | .ok a => next a
  | .error fault => report.fail fault.message

open Text.Hex in
/-- Seals the text, compares, and opens the expected sealed form again. -/
def checkRoundTrip (report : Report) (key : Key) (aad : Bytes) (plaintext ciphertext : String) :
    Report :=
  orFail report (read plaintext) fun text =>
    let report := checkBytes report "ciphertext" ciphertext (key.encrypt aad text)
    let opened := do
      let sealed ← read ciphertext
      (key.decrypt aad sealed).mapError Refusal.fault
    orFail report opened fun text => checkBytes report "plaintext" plaintext text

open Text.Hex in
def readKey (key nonce : String) : Except Fault Key := do
  let key ← readExact Gcm.keySize key
  let nonce ← readExact Gcm.nonceSize nonce
  return ⟨key, nonce⟩

open Text.Hex in
def readAad (senderId roomId : String) (sequence : UInt64) : Except Fault Bytes := do
  let address : Address := ⟨← read senderId, roomId, sequence⟩
  address.aad.mapError Canonical.EncodeRefusal.fault

def checkRefusal (report : Report) (expected : FailureClass) (result : Except Refusal Bytes) :
    Report :=
  match result with
  | .ok _ => report.fail "decrypt returned data for a tampered input"
  | .error refusal =>
    if refusal.failure = expected then report.withErrors [refusal.fault.message]
    else report.fail ("expected " ++ expected.name ++ " failure, got: " ++ refusal.fault.message)

open Text.Hex in
def Case.check (report : Report) : Case → Report
  | .encrypt key nonce aad plaintext ciphertext =>
    let inputs := do
      let key ← readKey key nonce
      return (key, ← read aad)
    orFail report inputs fun (key, aad) => checkRoundTrip report key aad plaintext ciphertext
  | .reject key nonce aad ciphertext expected =>
    let inputs := do
      let key ← readKey key nonce
      let sealed ← read ciphertext
      return (key, sealed, ← read aad)
    orFail report inputs fun (key, sealed, aad) =>
      checkRefusal report expected (key.decrypt aad sealed)
  | .messageAad senderId roomId sequence aad =>
    orFail report (readAad senderId roomId sequence) fun actual =>
      checkBytes report "aad" aad actual
  | .sessionMessage handshakeSecret sessionId senderId roomId sequence plaintext ciphertext =>
    let inputs := do
      let secret ← read handshakeSecret
      let keys := KeySchedule.sessionKeys secret (← read sessionId)
      return (Key.ofSession keys, ← readAad senderId roomId sequence)
    orFail report inputs fun (key, aad) => checkRoundTrip report key aad plaintext ciphertext

abbrev Vector := String × Case

def Vector.report : Vector → Report
  | (id, case) => case.check ((Report.new id).setMetric "kind" (.text case.kind))

structure VectorSet where
  description : String
  vectors : List Vector

def VectorSet.run (set : VectorSet) : Except Fault Summary :=
  (Summary.own "aead").recordAll (set.vectors.map Vector.report)

open Json.Reader KeySchedule in
/-- The four cases in the order of their positions. -/
def Case.readers : List (Json.Reader.Case Case) :=
  [⟨"encrypt", ["key_hex", "nonce_hex", "aad_hex", "plaintext_hex", "ciphertext_hex"], fun f => do
      return .encrypt (← hex f "key_hex") (← hex f "nonce_hex") (← f.orDefault "aad_hex" text "")
        (← hex f "plaintext_hex") (← hex f "ciphertext_hex")⟩,
    ⟨"reject", ["key_hex", "nonce_hex", "aad_hex", "ciphertext_hex", "error"], fun f => do
      let classes := [("integrity", .integrity), ("malformed", .malformed)]
      return .reject (← hex f "key_hex") (← hex f "nonce_hex") (← f.orDefault "aad_hex" text "")
        (← hex f "ciphertext_hex")
        (← f.required "error" (choice Json.Literal.isNullOrEmpty classes))⟩,
    ⟨"message_aad", ["sender_id_hex", "room_id", "sequence", "aad_hex"], fun f => do
      return .messageAad (← hex f "sender_id_hex") (← hex f "room_id") (← word f "sequence")
        (← hex f "aad_hex")⟩,
    ⟨"session_message",
      ["handshake_secret_hex", "session_id_hex", "sender_id_hex", "room_id", "sequence",
        "plaintext_hex", "ciphertext_hex"],
      fun f => do
        return .sessionMessage (← hex f "handshake_secret_hex") (← hex f "session_id_hex")
          (← hex f "sender_id_hex") (← hex f "room_id") (← word f "sequence")
          (← hex f "plaintext_hex") (← hex f "ciphertext_hex")⟩]

open Json.Reader in
def VectorSet.corpus : Corpus VectorSet where
  reader := record ["description", "vectors"] fun fields => do
    return {
      description := ← fields.orDefault "description" text ""
      vectors := ← fields.required "vectors" (list (identified Case.readers)) }
  scenarioCount := fun set => set.vectors.length

end Conformance.Sealing
