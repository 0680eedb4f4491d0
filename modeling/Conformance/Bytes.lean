/-!
# Byte strings

Byte strings are lists of octets. Numbers are written big end first, and a
string is measured and compared by its UTF-8 octets.
-/
namespace Conformance

abbrev Bytes := List UInt8

namespace Bytes

/-- The low `width` octets of a number, big end first. -/
def ofNat : (width : Nat) → Nat → Bytes
  | 0, _ => []
  | width + 1, n => ofNat width (n / 256) ++ [UInt8.ofNat n]

def toNat (bytes : Bytes) : Nat :=
  bytes.foldl (fun n b => n * 256 + b.toNat) 0

/-- The eight octets of a 64-bit number, big end first. -/
def ofUInt64 (n : UInt64) : Bytes :=
  ofNat 8 n.toNat

def ofString (text : String) : Bytes :=
  text.toUTF8.data.toList

def toByteArray (bytes : Bytes) : ByteArray :=
  ⟨bytes.toArray⟩

/-- Bytewise exclusive or, as long as the shorter argument. -/
def xor (a b : Bytes) : Bytes :=
  a.zipWith (· ^^^ ·) b

def zeros (n : Nat) : Bytes :=
  List.replicate n 0

/-- Order of byte strings by their first difference, a proper beginning first. -/
def compare : Bytes → Bytes → Ordering
  | [], [] => .eq
  | [], _ :: _ => .lt
  | _ :: _, [] => .gt
  | a :: as, b :: bs => (Ord.compare a b).then (compare as bs)

/-- Consecutive pieces of `size` octets; the last one may be shorter. -/
def chunks (size : Nat) (bytes : Bytes) : List Bytes :=
  if size = 0 ∨ bytes = [] then []
  else bytes.take size :: chunks size (bytes.drop size)
termination_by bytes.length
decreasing_by
  rename_i h
  have : bytes.length ≠ 0 := fun e => h (.inr (List.length_eq_zero_iff.1 e))
  simp only [List.length_drop]
  omega

@[simp]
theorem length_ofNat (width n : Nat) : (ofNat width n).length = width := by
  induction width generalizing n with
  | zero => rfl
  | succ width ih => simp [ofNat, ih]

@[simp]
theorem length_zeros (n : Nat) : (zeros n).length = n := List.length_replicate

@[simp]
theorem length_xor (a b : Bytes) : (xor a b).length = min a.length b.length :=
  List.length_zipWith

end Bytes
end Conformance
