import Conformance.Bytes
/-!
# The X25519 function

Scalar multiplication on the Montgomery curve with coefficient 486662 over the
field of `2 ^ 255 - 19` elements, on the first coordinate only. Scalars and
coordinates are little-endian strings of 32 bytes.
-/
namespace Conformance.X25519
open Conformance

def modulus : Nat := 1 <<< 255 - 19

def ofLittleEndian (bytes : Bytes) : Nat :=
  bytes.foldr (fun b n => n * 256 + b.toNat) 0

def toLittleEndian : (width : Nat) → Nat → Bytes
  | 0, _ => []
  | width + 1, n => UInt8.ofNat (n % 256) :: toLittleEndian width (n / 256)

@[simp]
theorem length_toLittleEndian (width n : Nat) : (toLittleEndian width n).length = width := by
  induction width generalizing n with
  | zero => rfl
  | succ width ih => simp [toLittleEndian, ih]

def add (a b : Nat) : Nat := (a + b) % modulus
def sub (a b : Nat) : Nat := (a + (modulus - b % modulus)) % modulus
def mul (a b : Nat) : Nat := a * b % modulus

/-- Square and multiply along the `bits` low bits of the exponent. -/
def pow (a : Nat) : (bits exponent : Nat) → Nat
  | 0, _ => 1
  | bits + 1, exponent =>
    let half := pow (mul a a) bits (exponent / 2)
    if exponent % 2 = 1 then mul a half else half

/-- The inverse by the little theorem of Fermat; zero is its own inverse. -/
def inverse (a : Nat) : Nat := pow a 255 (modulus - 2)

/-- Clears the cofactor bits and fixes the position of the leading bit. -/
def clamp (scalar : Nat) : Nat :=
  scalar % (1 <<< 254) / 8 * 8 + 1 <<< 254

/-- Two points of the ladder, whose difference stays the base point. -/
structure Ladder where
  x2 : Nat
  z2 : Nat
  x3 : Nat
  z3 : Nat

def Ladder.swap (l : Ladder) : Ladder := ⟨l.x3, l.z3, l.x2, l.z2⟩

/-- Doubles the first point and adds the two. -/
def Ladder.step (base : Nat) (l : Ladder) : Ladder :=
  let a := add l.x2 l.z2
  let b := sub l.x2 l.z2
  let aa := mul a a
  let bb := mul b b
  let e := sub aa bb
  let da := mul (sub l.x3 l.z3) a
  let cb := mul (add l.x3 l.z3) b
  let sum := add da cb
  let difference := sub da cb
  ⟨mul aa bb, mul e (add aa (mul 121665 e)), mul sum sum, mul base (mul difference difference)⟩

/-- One bit of the scalar: the pair is swapped around the step where the bit is set. -/
def Ladder.bit (base scalar : Nat) (l : Ladder) (position : Nat) : Ladder :=
  if scalar.testBit position then (l.swap.step base).swap else l.step base

/-- The multiple of a coordinate, whose top bit is ignored. -/
def scalarMult (scalar coordinate : Bytes) : Bytes :=
  let k := clamp (ofLittleEndian scalar)
  let u := ofLittleEndian coordinate % (1 <<< 255) % modulus
  let final := (List.range 255).reverse.foldl (Ladder.bit u k) ⟨1, 0, u, 1⟩
  toLittleEndian 32 (mul final.x2 (inverse final.z2))

def basePoint : Bytes := 9 :: Bytes.zeros 31

def publicKey (privateKey : Bytes) : Bytes :=
  scalarMult privateKey basePoint

/-- The shared secret; a peer key of small order contributes nothing and is refused. -/
def shared? (privateKey peerKey : Bytes) : Option Bytes :=
  let secret := scalarMult privateKey peerKey
  if secret.all (· == 0) then none else some secret

end Conformance.X25519
