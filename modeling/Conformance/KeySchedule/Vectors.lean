import Conformance.ClientToken
import Conformance.Corpus
import Conformance.KeySchedule.Derivation
import Conformance.Report
/-!
# Key derivation vectors

A vector states the inputs of one derivation and its expected outputs, all as
hexadecimal text. It passes when every output, recomputed, is the expected one.
-/
namespace Conformance.KeySchedule
open Conformance

/-- What a vector derives; byte strings are in hexadecimal. -/
inductive Case
  | derive (ikm : String) (salt : Option String) (label : String) (length : Nat) (okm : String)
  | x25519 (privateKey peerPublicKey publicKey sharedSecret : String)
  | handshakeSecret (classical postQuantum secret : String)
  | sessionKeys (handshakeSecret sessionId encryption authentication nonce : String)
  | sessionId (handshakeHash sessionId : String)
  | ratchet (chainKey messageKey nextChainKey : String)
  | mediaEpochKey (mediaSecret : String) (epochId : UInt64) (epochKey : String)
  | frameKey (epochKey : String) (frameSequence : UInt64) (frameKey : String)
  | mediaIv (frame : Frame) (iv : String)
  | clientTag (secret clientId callId : String) (timestamp : UInt64) (nonce key tag : String)
  | invalidLength (length : Nat)

def Case.kind : Case → String
  | .derive .. => "derive"
  | .x25519 .. => "x25519"
  | .handshakeSecret .. => "handshake_secret"
  | .sessionKeys .. => "session_keys"
  | .sessionId .. => "session_id"
  | .ratchet .. => "ratchet"
  | .mediaEpochKey .. => "media_epoch_key"
  | .frameKey .. => "frame_key"
  | .mediaIv .. => "media_iv"
  | .clientTag .. => "client_auth_tag"
  | .invalidLength .. => "invalid_length"

/-- An expected output beside the recomputed one. -/
structure Comparison where
  output : String
  expected : String
  actual : String

namespace Comparison

/-- Expected bytes may be written in digits of either case. -/
def ofBytes (output expected : String) (actual : Bytes) : Comparison :=
  ⟨output, expected.toLower, Text.Hex.encode actual⟩

def agrees (c : Comparison) : Bool :=
  c.expected == c.actual

def mismatch (c : Comparison) : String :=
  s!"{c.output} mismatch: expected {c.expected}, got {c.actual}"

end Comparison

open Comparison Text.Hex in
/-- The comparisons of a vector, or the fault that keeps its outputs from being recomputed. -/
def Case.compare : Case → Except Fault (List Comparison)
  | .derive ikm salt label length okm => do
    let salt ← salt.mapM read
    let ikm ← read ikm
    let actual ← (KeySchedule.derive ikm salt (.ofString label) length).mapError Refusal.fault
    return [ofBytes "okm" okm actual]
  | .x25519 privateKey peerPublicKey publicKey sharedSecret => do
    let privateKey ← readExact 32 privateKey
    let peer ← readExact 32 peerPublicKey
    let shared ← (KeySchedule.sharedSecret privateKey peer).mapError Refusal.fault
    return [ofBytes "public_key" publicKey (X25519.publicKey privateKey),
      ofBytes "shared_secret" sharedSecret shared]
  | .handshakeSecret classical postQuantum secret => do
    let classical ← read classical
    let postQuantum ← read postQuantum
    let actual ← (KeySchedule.handshakeSecret classical postQuantum).mapError Refusal.fault
    return [ofBytes "handshake_secret" secret actual]
  | .sessionKeys secret session encryption authentication nonce => do
    let secret ← read secret
    let keys := KeySchedule.sessionKeys secret (← read session)
    return [ofBytes "enc_key" encryption keys.encryption,
      ofBytes "auth_key" authentication keys.authentication, ofBytes "nonce" nonce keys.nonce]
  | .sessionId handshakeHash session => do
    return [ofBytes "session_id" session (KeySchedule.sessionId (← read handshakeHash))]
  | .ratchet chainKey messageKey nextChainKey => do
    let step := KeySchedule.ratchet (← read chainKey)
    return [ofBytes "message_key" messageKey step.messageKey,
      ofBytes "next_chain_key" nextChainKey step.chainKey]
  | .mediaEpochKey mediaSecret epochId epochKey => do
    return [ofBytes "epoch_key" epochKey (KeySchedule.mediaEpochKey (← read mediaSecret) epochId)]
  | .frameKey epochKey sequence expected => do
    return [ofBytes "frame_key" expected (KeySchedule.frameKey (← read epochKey) sequence)]
  | .mediaIv frame iv => .ok [ofBytes "iv" iv frame.iv]
  | .clientTag secret clientId callId timestamp nonce key tag => do
    let clientKey := ClientToken.clientKey (← read secret) clientId
    let claim : ClientToken.Claim := ⟨callId, clientId, timestamp, ← read nonce⟩
    return [ofBytes "key" key clientKey, ofBytes "tag" tag (claim.tag clientKey)]
  | .invalidLength length =>
    match KeySchedule.derive (.ofString "ikm") none (.ofString "label") length with
    | .error _ => .ok []
    | .ok _ => .ok [⟨"rejection", "Derivation error", "accepted"⟩]

abbrev Vector := String × Case

def Vector.report : Vector → Report
  | (id, case) =>
    let report := (Report.new id).setMetric "kind" (.text case.kind)
    match case.compare with
    | .ok comparisons =>
      comparisons.foldl (fun report c => report.check c.agrees c.mismatch) report
    | .error fault => report.fail fault.message

structure VectorSet where
  description : String
  vectors : List Vector

def VectorSet.run (set : VectorSet) : Except Fault Summary :=
  (Summary.own "kdf").recordAll (set.vectors.map Vector.report)

open Json.Reader

/-- A 64-bit number of a case. -/
def word (fields : Json.Fields) (name : String) : Option UInt64 :=
  (fields.required name unsigned).map UInt64.ofNat

def hex (fields : Json.Fields) (name : String) : Option String :=
  fields.required name text

/-- The eleven cases in the order of their positions. -/
def Case.readers : List (Json.Reader.Case Case) :=
  [⟨"derive", ["ikm_hex", "salt_hex", "label", "length", "okm_hex"], fun f => do
      return .derive (← hex f "ikm_hex") (← f.optionalOrDefault "salt_hex" text)
        (← hex f "label") (← f.required "length" unsigned) (← hex f "okm_hex")⟩,
    ⟨"x25519", ["private_key_hex", "peer_public_key_hex", "public_key_hex", "shared_secret_hex"],
      fun f => do
        return .x25519 (← hex f "private_key_hex") (← hex f "peer_public_key_hex")
          (← hex f "public_key_hex") (← hex f "shared_secret_hex")⟩,
    ⟨"handshake_secret", ["classical_hex", "post_quantum_hex", "handshake_secret_hex"], fun f => do
      return .handshakeSecret (← hex f "classical_hex") (← hex f "post_quantum_hex")
        (← hex f "handshake_secret_hex")⟩,
    ⟨"session_keys",
      ["handshake_secret_hex", "session_id_hex", "enc_key_hex", "auth_key_hex", "nonce_hex"],
      fun f => do
        return .sessionKeys (← hex f "handshake_secret_hex") (← hex f "session_id_hex")
          (← hex f "enc_key_hex") (← hex f "auth_key_hex") (← hex f "nonce_hex")⟩,
    ⟨"session_id", ["handshake_hash_hex", "session_id_hex"], fun f => do
      return .sessionId (← hex f "handshake_hash_hex") (← hex f "session_id_hex")⟩,
    ⟨"ratchet", ["chain_key_hex", "message_key_hex", "next_chain_key_hex"], fun f => do
      return .ratchet (← hex f "chain_key_hex") (← hex f "message_key_hex")
        (← hex f "next_chain_key_hex")⟩,
    ⟨"media_epoch_key", ["media_secret_hex", "epoch_id", "epoch_key_hex"], fun f => do
      return .mediaEpochKey (← hex f "media_secret_hex") (← word f "epoch_id")
        (← hex f "epoch_key_hex")⟩,
    ⟨"frame_key", ["epoch_key_hex", "frame_sequence", "frame_key_hex"], fun f => do
      return .frameKey (← hex f "epoch_key_hex") (← word f "frame_sequence")
        (← hex f "frame_key_hex")⟩,
    ⟨"media_iv", ["call_id", "participant_id", "stream_id", "frame_sequence", "iv_hex"], fun f => do
      return .mediaIv ⟨← hex f "call_id", ← hex f "participant_id", ← hex f "stream_id",
        ← word f "frame_sequence"⟩ (← hex f "iv_hex")⟩,
    ⟨"client_auth_tag",
      ["sfu_secret_hex", "client_id", "call_id", "timestamp", "nonce_hex", "key_hex", "tag_hex"],
      fun f => do
        return .clientTag (← hex f "sfu_secret_hex") (← hex f "client_id") (← hex f "call_id")
          (← word f "timestamp") (← hex f "nonce_hex") (← hex f "key_hex") (← hex f "tag_hex")⟩,
    ⟨"invalid_length", ["length"], fun f => do
      return .invalidLength (← f.required "length" unsigned)⟩]

def VectorSet.corpus : Corpus VectorSet where
  reader := record ["description", "vectors"] fun fields => do
    return {
      description := ← fields.orDefault "description" text ""
      vectors := ← fields.required "vectors" (list (identified Case.readers)) }
  scenarioCount := fun set => set.vectors.length

end Conformance.KeySchedule
