import Conformance.Digest.Sha256
/-!
# Keyed digests and key expansion

HMAC over SHA-256, and the extract-and-expand derivation built on it. Expansion
chains numbered blocks of 32 bytes, of which there are at most 255.
-/
namespace Conformance
open Conformance

namespace Hmac

def blockSize : Nat := 64

/-- A key fills one block; a longer one is digested first. -/
def blockKey (key : Bytes) : Bytes :=
  let short := if blockSize < key.length then Sha256.digest key else key
  short ++ Bytes.zeros (blockSize - short.length)

def digest (key message : Bytes) : Bytes :=
  let key := blockKey key
  let inner := key.map (· ^^^ 0x36)
  let outer := key.map (· ^^^ 0x5c)
  Sha256.digest (outer ++ Sha256.digest (inner ++ message))

@[simp]
theorem length_digest (key message : Bytes) : (digest key message).length = 32 := rfl

end Hmac

namespace Hkdf

def maxLength : Nat := 255 * 32

/-- An absent salt is a block of zeros, as is an empty one. -/
def extract (salt : Option Bytes) (ikm : Bytes) : Bytes :=
  Hmac.digest (salt.getD (Bytes.zeros 32)) ikm

/-- `count` blocks, numbered from `index` on, each computed from the one before it. -/
def blocks (key info : Bytes) : (count index : Nat) → (previous : Bytes) → Bytes
  | 0, _, _ => []
  | count + 1, index, previous =>
    let block := Hmac.digest key (previous ++ info ++ [UInt8.ofNat index])
    block ++ blocks key info count (index + 1) block

def expand (key info : Bytes) (length : Nat) : Bytes :=
  (blocks key info ((length + 31) / 32) 1 []).take length

/-- Output keying material of a length from 1 to `maxLength`. -/
def derive? (ikm : Bytes) (salt : Option Bytes) (info : Bytes) (length : Nat) : Option Bytes :=
  if length = 0 ∨ maxLength < length then none
  else some (expand (extract salt ikm) info length)

end Hkdf
end Conformance
