import Conformance.Canonical.Encoding
/-!
# Canonical values of JSON messages

Objects become maps with text keys, and strings stay text. Of the numbers only
whole ones from 0 up to below `2 ^ 64` have a canonical value, written without a
fraction or an exponent.
-/
namespace Conformance.Canonical
open Conformance

/-- A double is told apart by whether it is whole, and then by where it lies. -/
def refuseReal (x : Float) : EncodeRefusal :=
  if x.floor == x then
    if x ≥ 18446744073709551616.0 then .tooLarge (.real x)
    else if x < 0.0 then .negativeInteger
    else .fractional (.real x)
  else .fractional (.real x)

def ofNumber : Json.Number → Except EncodeRefusal Value
  | .whole n =>
    if n < 0 then .error .negativeInteger
    else if Word.fits n then .ok (.unsigned (UInt64.ofNat n.toNat))
    else .error (.tooLarge (.whole n))
  | .real x => .error (refuseReal x)

mutual

def ofJson : Json → Except EncodeRefusal Value
  | .null => .error .null
  | .boolean _ => .error .boolean
  | .number n => ofNumber n
  | .text s => .ok (.text s)
  | .array items => do
    return .array (← ofItems items)
  | .object entries => do
    return .map (← ofEntries entries)

def ofItems : List Json → Except EncodeRefusal (List Value)
  | [] => .ok []
  | item :: rest => do
    let first ← ofJson item
    let others ← ofItems rest
    return first :: others

def ofEntries : List (String × Json) → Except EncodeRefusal (List (Value × Value))
  | [] => .ok []
  | (key, value) :: rest => do
    let value ← ofJson value
    let others ← ofEntries rest
    return (.text key, value) :: others

end

end Conformance.Canonical
