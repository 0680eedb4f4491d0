import Conformance.Bytes
/-!
# The block cipher AES-256

A block is a column-major square of sixteen bytes. The substitution is the
inverse in the field of 256 elements followed by an affine map.
-/
namespace Conformance.Aes
open Conformance

/-- Multiplication by the polynomial `x` modulo `x ^ 8 + x ^ 4 + x ^ 3 + x + 1`. -/
def timesX (b : UInt8) : UInt8 :=
  if b < 0x80 then b <<< 1 else (b <<< 1) ^^^ 0x1b

/-- The product in the field of 256 elements, by the `bits` low bits of the second factor. -/
def fieldMul (bits : Nat) (a b : UInt8) : UInt8 :=
  match bits with
  | 0 => 0
  | bits + 1 => (if b &&& 1 == 1 then a else 0) ^^^ fieldMul bits (timesX a) (b >>> 1)

def fieldSquare (a : UInt8) : UInt8 := fieldMul 8 a a

/-- The power 254, which inverts every element but zero. -/
def fieldInverse (a : UInt8) : UInt8 :=
  let a2 := fieldSquare a
  let a3 := fieldMul 8 a2 a
  let a12 := fieldSquare (fieldSquare a3)
  let a15 := fieldMul 8 a12 a3
  let a240 := fieldSquare (fieldSquare (fieldSquare (fieldSquare a15)))
  fieldMul 8 a240 (fieldMul 8 a12 a2)

def rotateLeft (b n : UInt8) : UInt8 :=
  (b <<< n) ||| (b >>> (8 - n))

def substitute (b : UInt8) : UInt8 :=
  let i := fieldInverse b
  i ^^^ rotateLeft i 1 ^^^ rotateLeft i 2 ^^^ rotateLeft i 3 ^^^ rotateLeft i 4 ^^^ 0x63

/-- The substitution of every byte, computed once. -/
def substitutionTable : Array UInt8 :=
  ((List.range 256).map fun n => substitute (UInt8.ofNat n)).toArray

def subByte (b : UInt8) : UInt8 :=
  substitutionTable.getD b.toNat 0

abbrev Word := Bytes

def subWord (w : Word) : Word := w.map subByte

def rotateWord : Word → Word
  | [] => []
  | b :: rest => rest ++ [b]

/-- The words that follow eight words of the expanded key; `constant` belongs to the first. -/
def nextKeyWords (constant : UInt8) : List Word → List Word
  | [w0, w1, w2, w3, w4, w5, w6, w7] =>
    let v0 := Bytes.xor (Bytes.xor w0 (subWord (rotateWord w7))) [constant, 0, 0, 0]
    let v1 := Bytes.xor w1 v0
    let v2 := Bytes.xor w2 v1
    let v3 := Bytes.xor w3 v2
    let v4 := Bytes.xor w4 (subWord v3)
    let v5 := Bytes.xor w5 v4
    let v6 := Bytes.xor w6 v5
    let v7 := Bytes.xor w7 v6
    [v0, v1, v2, v3, v4, v5, v6, v7]
  | words => words

def keyWords (constant : UInt8) : (count : Nat) → List Word → List Word
  | 0, _ => []
  | count + 1, words => words ++ keyWords (timesX constant) count (nextKeyWords constant words)

/-- Fifteen round keys of sixteen bytes. -/
def roundKeys (key : Bytes) : List Bytes :=
  (Bytes.chunks 16 (keyWords 1 8 (Bytes.chunks 4 key)).flatten).take 15

def shiftRows (block : Bytes) : Bytes :=
  (List.range 16).map fun i => block.getD ((i + 4 * (i % 4)) % 16) 0

def mixColumn : Bytes → Bytes
  | [a, b, c, d] =>
    [timesX a ^^^ (timesX b ^^^ b) ^^^ c ^^^ d, a ^^^ timesX b ^^^ (timesX c ^^^ c) ^^^ d,
      a ^^^ b ^^^ timesX c ^^^ (timesX d ^^^ d), (timesX a ^^^ a) ^^^ b ^^^ c ^^^ timesX d]
  | column => column

def mixColumns (block : Bytes) : Bytes :=
  (Bytes.chunks 4 block).flatMap mixColumn

/-- All rounds but the first key addition; the last one mixes no columns. -/
def rounds (block : Bytes) : List Bytes → Bytes
  | [] => block
  | [key] => Bytes.xor (shiftRows (block.map subByte)) key
  | key :: keys => rounds (Bytes.xor (mixColumns (shiftRows (block.map subByte))) key) keys

def encryptWith (keys : List Bytes) (block : Bytes) : Bytes :=
  match keys with
  | [] => block
  | key :: keys => rounds (Bytes.xor block key) keys

end Conformance.Aes
