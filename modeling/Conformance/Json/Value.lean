import Conformance.Word
/-!
# JSON values

A number is a whole number or a double, and the two kinds never agree. The
entries of an object stand in strictly increasing order of their keys, so the
order in which they were written cannot be seen.
-/
namespace Conformance

inductive Json.Number
  | whole (n : Int)
  | real (x : Float)

inductive Json
  | null
  | boolean (b : Bool)
  | number (n : Json.Number)
  | text (s : String)
  | array (items : List Json)
  | object (entries : List (String × Json))
  deriving Inhabited

namespace Json

abbrev Object := List (String × Json)

def ofNat (n : Nat) : Json := .number (.whole n)
def ofInt (n : Int) : Json := .number (.whole n)

/-- A double that is no number cannot be written and becomes null. -/
def ofFloat (x : Float) : Json :=
  if x.isNaN || x.isInf then .null else .number (.real x)

def ofTexts (texts : List String) : Json :=
  .array (texts.map .text)

namespace Object

def get? (key : String) (entries : Object) : Option Json :=
  entries.lookup key

/-- Puts an entry into its place; a present key takes the new value. -/
def insert (key : String) (value : Json) : Object → Object
  | [] => [(key, value)]
  | (k, v) :: rest =>
    if key < k then (key, value) :: (k, v) :: rest
    else if key = k then (key, value) :: rest
    else (k, v) :: insert key value rest

/-- Later entries win over earlier ones of the same key. -/
def ofEntries (entries : List (String × Json)) : Object :=
  entries.foldl (fun object (key, value) => object.insert key value) []

def extend (base additions : Object) : Object :=
  additions.foldl (fun object (key, value) => object.insert key value) base

end Object

def ofEntries (entries : List (String × Json)) : Json :=
  .object (Object.ofEntries entries)

def get? (key : String) : Json → Option Json
  | .object entries => Object.get? key entries
  | _ => none

def text? : Json → Option String
  | .text s => some s
  | _ => none

/-- A whole number in the range of unsigned 64-bit integers. -/
def unsigned? : Json → Option Nat
  | .number (.whole n) => if Word.fits n then some n.toNat else none
  | _ => none

/-- A whole number in the range of signed 64-bit integers. -/
def signed? : Json → Option Int
  | .number (.whole n) => if Word.fitsSigned n then some n else none
  | _ => none

def Number.same : Number → Number → Bool
  | .whole a, .whole b => a == b
  | .real a, .real b => a == b
  | _, _ => false

mutual

/-- Equality of JSON values: a whole number differs from a double, and the two zeros agree. -/
def same : Json → Json → Bool
  | .null, .null => true
  | .boolean a, .boolean b => a == b
  | .number a, .number b => a.same b
  | .text a, .text b => a == b
  | .array a, .array b => sameItems a b
  | .object a, .object b => sameEntries a b
  | _, _ => false

def sameItems : List Json → List Json → Bool
  | [], [] => true
  | a :: as, b :: bs => same a b && sameItems as bs
  | _, _ => false

def sameEntries : List (String × Json) → List (String × Json) → Bool
  | [], [] => true
  | (k, a) :: as, (l, b) :: bs => k == l && same a b && sameEntries as bs
  | _, _ => false

end

instance : BEq Json := ⟨same⟩

end Json
end Conformance
