import Conformance.KeySchedule.Derivation
/-!
# Client tokens

A client signs a token with a key of its own, derived from the secret that the
server holds. A verifier checks the tag, then the clock, then that the nonce is
new; only a token that passes all three uses up its nonce.
-/
namespace Conformance.ClientToken
open Conformance

def clientKey (secret : Bytes) (clientId : String) : Bytes :=
  KeySchedule.deriveKey secret none (.ofString "FW-SFU-ClientAuth" ++ .ofString clientId)

/-- What a client claims; times are in milliseconds. -/
structure Claim where
  callId : String
  clientId : String
  timestamp : UInt64
  nonce : Bytes
  deriving DecidableEq

def Claim.content (claim : Claim) : Bytes :=
  .ofString claim.callId ++ .ofString claim.clientId ++ .ofUInt64 claim.timestamp ++ claim.nonce

def Claim.tag (key : Bytes) (claim : Claim) : Bytes :=
  Hmac.digest key claim.content

structure Token where
  claim : Claim
  tag : Bytes
  deriving DecidableEq

def Claim.sign (secret : Bytes) (claim : Claim) : Token :=
  ⟨claim, claim.tag (clientKey secret claim.clientId)⟩

inductive Refusal
  | badTag
  | expired (skew : Nat)
  | replay
  deriving DecidableEq

def Refusal.name : Refusal → String
  | .badTag => "BadTag"
  | .expired _ => "Expired"
  | .replay => "Replay"

def Refusal.message : Refusal → String
  | .badTag => "client auth tag mismatch"
  | .expired skew => s!"client auth timestamp {skew} ms outside skew bound"
  | .replay => "client auth nonce already used"

def Refusal.fault (r : Refusal) : Fault :=
  ⟨.integrity, r.message⟩

def defaultMaxSkew : Nat := 30000

/-- A used nonce of a client, with the timestamp of the token that used it. -/
structure UsedNonce where
  clientId : String
  nonce : Bytes
  timestamp : UInt64
  deriving DecidableEq

structure Verifier where
  secret : Bytes
  maxSkew : Nat
  used : List UsedNonce
  deriving DecidableEq

def Verifier.new (secret : Bytes) (maxSkew : Nat) : Verifier :=
  ⟨secret, maxSkew, []⟩

def skew (now timestamp : UInt64) : Nat :=
  (now.toNat - timestamp.toNat) + (timestamp.toNat - now.toNat)

namespace Verifier

def authentic (v : Verifier) (token : Token) : Bool :=
  token.tag == token.claim.tag (clientKey v.secret token.claim.clientId)

/-- Forgets the nonces of tokens that are by now too old to pass the clock check. -/
def evict (v : Verifier) (now : UInt64) : Verifier :=
  { v with used := v.used.filter fun u => now.toNat - u.timestamp.toNat ≤ v.maxSkew }

def holds (v : Verifier) (claim : Claim) : Bool :=
  v.used.any fun u => u.clientId == claim.clientId && u.nonce == claim.nonce

def remember (v : Verifier) (claim : Claim) : Verifier :=
  { v with used := ⟨claim.clientId, claim.nonce, claim.timestamp⟩ :: v.used }

/-- The outcome for a token presented at a time, and the verifier after it. -/
def verify (v : Verifier) (token : Token) (now : UInt64) : Except Refusal Unit × Verifier :=
  let claim := token.claim
  if !v.authentic token then (.error .badTag, v)
  else if v.maxSkew < skew now claim.timestamp then
    (.error (.expired (skew now claim.timestamp)), v)
  else
    let v := v.evict now
    if v.holds claim then (.error .replay, v) else (.ok (), v.remember claim)

end Verifier
end Conformance.ClientToken
