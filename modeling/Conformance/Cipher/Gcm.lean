import Conformance.Cipher.Aes
/-!
# Authenticated encryption AES-256-GCM

The body is the text combined with the key stream of a counter, and the tag
authenticates the body together with the associated data. A sealed text is the
body followed by the tag.
-/
namespace Conformance.Gcm
open Conformance

def keySize : Nat := 32
def nonceSize : Nat := 12
def tagSize : Nat := 16

/-- The product in the field of `2 ^ 128` elements, whose first bit is the constant term. -/
def fieldMul (x y : Nat) : Nat :=
  let step (state : Nat × Nat) (i : Nat) : Nat × Nat :=
    let (z, v) := state
    let z := if x.testBit (127 - i) then z ^^^ v else z
    (z, if v % 2 = 1 then (v / 2) ^^^ (0xe1 <<< 120) else v / 2)
  ((List.range 128).foldl step (0, y)).1

/-- Blocks of sixteen bytes, the last one filled up with zeros. -/
def paddedBlocks (bytes : Bytes) : List Nat :=
  (Bytes.chunks 16 bytes).map fun block =>
    Bytes.toNat (block ++ Bytes.zeros (16 - block.length))

/-- What the tag authenticates: associated data, body, and the lengths of both in bits. -/
def authenticatedBlocks (aad body : Bytes) : List Nat :=
  paddedBlocks aad ++ paddedBlocks body ++ [(8 * aad.length) <<< 64 + 8 * body.length]

def hash (h : Nat) (blocks : List Nat) : Nat :=
  blocks.foldl (fun y block => fieldMul (y ^^^ block) h) 0

def counterBlock (nonce : Bytes) (counter : Nat) : Bytes :=
  nonce ++ Bytes.ofNat 4 counter

/-- `blocks` blocks of key stream; the counter of the first block of text is 2. -/
def keyStream (keys : List Bytes) (nonce : Bytes) (blocks : Nat) : Bytes :=
  (List.range blocks).flatMap fun i => Aes.encryptWith keys (counterBlock nonce (i + 2))

/-- Combines a text with the key stream; doing so twice gives the text back. -/
def crypt (keys : List Bytes) (nonce text : Bytes) : Bytes :=
  Bytes.xor text (keyStream keys nonce ((text.length + 15) / 16))

def tag (keys : List Bytes) (nonce aad body : Bytes) : Bytes :=
  let h := Bytes.toNat (Aes.encryptWith keys (Bytes.zeros 16))
  let mask := Aes.encryptWith keys (counterBlock nonce 1)
  Bytes.xor (Bytes.ofNat 16 (hash h (authenticatedBlocks aad body))) mask

def encrypt (key nonce aad text : Bytes) : Bytes :=
  let keys := Aes.roundKeys key
  let body := crypt keys nonce text
  body ++ tag keys nonce aad body

/-- The text, provided that the tag is the one the body and the associated data have. -/
def decrypt? (key nonce aad sealed : Bytes) : Option Bytes :=
  let keys := Aes.roundKeys key
  let body := sealed.take (sealed.length - tagSize)
  if sealed.drop (sealed.length - tagSize) = tag keys nonce aad body then
    some (crypt keys nonce body)
  else none

end Conformance.Gcm
