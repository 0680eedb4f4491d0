import Conformance.Bytes
/-!
# Canonical values

The values that every implementation hashes: unsigned 64-bit numbers, byte
strings, texts, arrays and maps. A map keeps its entries in the order in which
they were given, but two maps agree when each entry of one can be paired with an
entry of the other.
-/
namespace Conformance.Canonical
open Conformance

inductive Value
  | unsigned (n : UInt64)
  | bytes (b : Bytes)
  | text (s : String)
  | array (items : List Value)
  | map (entries : List (Value × Value))
  deriving Inhabited

/-- The list without its first element that satisfies the test, if there is one. -/
def removeFirst? {α : Type} (p : α → Bool) : List α → Option (List α)
  | [] => none
  | a :: rest => if p a then some rest else (removeFirst? p rest).map (a :: ·)

namespace Value

mutual

/-- Agreement of values, which does not see the order of map entries at any depth. -/
def same : Value → Value → Bool
  | unsigned m, unsigned n => m == n
  | bytes a, bytes b => a == b
  | text a, text b => a == b
  | array as, array bs => sameItems as bs
  | map as, map bs => sameEntries as bs
  | _, _ => false

def sameItems : List Value → List Value → Bool
  | [], [] => true
  | a :: as, b :: bs => same a b && sameItems as bs
  | _, _ => false

/-- Pairs off the entries of two maps, repeated ones as often as they stand there. -/
def sameEntries : List (Value × Value) → List (Value × Value) → Bool
  | [], bs => bs.isEmpty
  | (k, v) :: as, bs =>
    match removeFirst? (fun (l, w) => same k l && same v w) bs with
    | some rest => sameEntries as rest
    | none => false

end

instance : BEq Value := ⟨same⟩

mutual

/-- How many levels lie below the root; an element, key or map value is one level below its
container. -/
def depth : Value → Nat
  | unsigned _ => 0
  | bytes _ => 0
  | text _ => 0
  | array items => depthItems items
  | map entries => depthEntries entries

/-- One more than the greatest depth of an item, and zero without items. -/
def depthItems : List Value → Nat
  | [] => 0
  | item :: rest => max (depth item + 1) (depthItems rest)

def depthEntries : List (Value × Value) → Nat
  | [] => 0
  | (key, value) :: rest => max (max (depth key + 1) (depth value + 1)) (depthEntries rest)

end

end Value

/-- Order of encoded map keys: shorter ones first, those of one length bytewise. -/
def keyOrder (a b : Bytes) : Ordering :=
  (compare a.length b.length).then (Bytes.compare a b)

end Conformance.Canonical
