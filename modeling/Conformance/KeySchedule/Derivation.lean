import Conformance.Digest.Hmac
import Conformance.Fault
import Conformance.Text.Hex
import Conformance.X25519
/-!
# Key schedule

Every key is expanded from a secret under a label of its own. What tells two
keys of one kind apart (session, media epoch, frame) goes into the salt, and the
initialization vector of a media frame is a digest of what identifies the frame.
-/
namespace Conformance.KeySchedule
open Conformance

inductive Refusal
  | outputLength (length : Nat)
  | nonContributory
  | shareLength (share : String) (actual : Nat)
  | blockLength (actual : Nat)
  deriving DecidableEq

/-- Keys for sealing and authenticating, with the nonce: 76 bytes. -/
structure SessionKeys where
  encryption : Bytes
  authentication : Bytes
  nonce : Bytes
  deriving DecidableEq

def sessionKeysLength : Nat := 32 + 32 + 12

def Refusal.detail : Refusal → String
  | .outputLength length => s!"output length {length} outside 1..={Hkdf.maxLength}"
  | .nonContributory => "non-contributory x25519 exchange"
  | .shareLength share actual => s!"{share} shared secret must be 32 bytes, got {actual}"
  | .blockLength actual => s!"session key block must be {sessionKeysLength} bytes, got {actual}"

def Refusal.fault (r : Refusal) : Fault :=
  ⟨.derivation, r.detail⟩

/-- Extracts from a secret and expands under a label to a length from 1 to 8160. -/
def derive (ikm : Bytes) (salt : Option Bytes) (label : Bytes) (length : Nat) :
    Except Refusal Bytes :=
  match Hkdf.derive? ikm salt label length with
  | some okm => .ok okm
  | none => .error (.outputLength length)

/-- A key of 32 bytes, a length that is never refused. -/
def deriveKey (ikm : Bytes) (salt : Option Bytes) (label : Bytes) : Bytes :=
  Hkdf.expand (Hkdf.extract salt ikm) label 32

def sharedSecret (privateKey peerKey : Bytes) : Except Refusal Bytes :=
  match X25519.shared? privateKey peerKey with
  | some secret => .ok secret
  | none => .error .nonContributory

/-- The secret of a hybrid handshake, from one share of 32 bytes of each exchange. -/
def handshakeSecret (classical postQuantum : Bytes) : Except Refusal Bytes :=
  if classical.length ≠ 32 then .error (.shareLength "classical" classical.length)
  else if postQuantum.length ≠ 32 then .error (.shareLength "post-quantum" postQuantum.length)
  else .ok (deriveKey (classical ++ postQuantum) none (.ofString "FoxWhisper-Handshake-Root"))

def SessionKeys.split (block : Bytes) : SessionKeys :=
  ⟨block.take 32, (block.drop 32).take 32, block.drop 64⟩

def SessionKeys.ofBlock (block : Bytes) : Except Refusal SessionKeys :=
  if block.length = sessionKeysLength then .ok (.split block)
  else .error (.blockLength block.length)

/-- The block of session keys, bound to the session by its salt. -/
def sessionBlock (handshakeSecret sessionId : Bytes) : Bytes :=
  Hkdf.expand (Hkdf.extract (some sessionId) handshakeSecret) (.ofString "FoxWhisper-SessionKeys")
    sessionKeysLength

def sessionKeys (handshakeSecret sessionId : Bytes) : SessionKeys :=
  .split (sessionBlock handshakeSecret sessionId)

/-- Secrets are shown by their fingerprints only. -/
def SessionKeys.describe (keys : SessionKeys) : String :=
  "SessionKeys \x7b enc_key: \"" ++ Sha256.fingerprint keys.encryption
    ++ "\", auth_key: \"" ++ Sha256.fingerprint keys.authentication
    ++ "\", nonce: \"" ++ Text.Hex.encode keys.nonce ++ "\" \x7d"

def sessionId (handshakeHash : Bytes) : Bytes :=
  deriveKey handshakeHash none (.ofString "FoxWhisper-SessionId")

/-- The two keys that one step of the ratchet derives from a chain key. -/
structure RatchetStep where
  messageKey : Bytes
  chainKey : Bytes

def ratchet (chainKey : Bytes) : RatchetStep :=
  ⟨deriveKey chainKey none (.ofString "FoxWhisper-Message"),
    deriveKey chainKey none (.ofString "FoxWhisper-Chain")⟩

/-- The first steps of the ratchet, each on the chain key of the one before it. -/
def ratchetSteps : (count : Nat) → (chainKey : Bytes) → List RatchetStep
  | 0, _ => []
  | count + 1, chainKey =>
    let step := ratchet chainKey
    step :: ratchetSteps count step.chainKey

def mediaEpochKey (mediaSecret : Bytes) (epochId : UInt64) : Bytes :=
  deriveKey mediaSecret (some (.ofUInt64 epochId)) (.ofString "FW-MediaEpochKey")

def frameSalt (frameSequence : UInt64) : Bytes :=
  .ofUInt64 frameSequence

/-- What a key is derived from. -/
structure KeyInput where
  secret : Bytes
  salt : Bytes
  label : Bytes
  deriving DecidableEq

def frameKeyInput (epochKey : Bytes) (frameSequence : UInt64) : KeyInput :=
  ⟨epochKey, frameSalt frameSequence, .ofString "FW-FrameKey"⟩

def frameKey (epochKey : Bytes) (frameSequence : UInt64) : Bytes :=
  let input := frameKeyInput epochKey frameSequence
  deriveKey input.secret (some input.salt) input.label

/-- What identifies a media frame; its sequence number is unique within a stream only. -/
structure Frame where
  callId : String
  participantId : String
  streamId : String
  sequence : UInt64
  deriving DecidableEq

def Frame.keyInput (epochKey : Bytes) (frame : Frame) : KeyInput :=
  frameKeyInput epochKey frame.sequence

def Frame.identifier (frame : Frame) : Bytes :=
  .ofString frame.callId ++ .ofString frame.participantId ++ .ofString frame.streamId
    ++ .ofUInt64 frame.sequence

def Frame.iv (frame : Frame) : Bytes :=
  (Sha256.digest frame.identifier).take 12

end Conformance.KeySchedule
