import Conformance.Canonical.Header
import Conformance.Canonical.Value
/-!
# Canonical decoding

Only canonical bytes are accepted: shortest headers, definite lengths, map keys
in strictly increasing order, well-formed text, and nothing after the value. The
depth of nesting is bounded, and a length that the input cannot hold is refused
before anything is read.
-/
namespace Conformance.Canonical
open Conformance

/-- How many levels may lie below the root. -/
def maxDepth : Nat := 64

/-- How one value is read from the front of some bytes, with the bytes that follow it. -/
abbrev Step := Bytes → Except DecodeRefusal (Value × Bytes)

/-- Refuses a count of items, of at least `least` bytes each, that the input cannot hold. -/
def checkCount (total count least : Nat) (bytes : Bytes) : Except DecodeRefusal Unit :=
  if count * least ≤ bytes.length then .ok ()
  else .error (.lengthExceedsInput count (total - bytes.length))

def decodeItems (one : Step) : (count : Nat) → Bytes → Except DecodeRefusal (List Value × Bytes)
  | 0, bytes => .ok ([], bytes)
  | count + 1, bytes => do
    let (item, bytes) ← one bytes
    let (items, bytes) ← decodeItems one count bytes
    return (item :: items, bytes)

/-- Whether an encoded key may follow the previous one. -/
def mayFollow (previous : Option Bytes) (key : Bytes) : Bool :=
  match previous with
  | none => true
  | some previous => keyOrder previous key == .lt

def decodeEntries (total : Nat) (one : Step) :
    (count : Nat) → (previous : Option Bytes) → Bytes →
      Except DecodeRefusal (List (Value × Value) × Bytes)
  | 0, _, bytes => .ok ([], bytes)
  | count + 1, previous, bytes => do
    let (key, afterKey) ← one bytes
    let keyBytes := bytes.take (bytes.length - afterKey.length)
    if mayFollow previous keyBytes then
      let (value, rest) ← one afterKey
      let (entries, rest) ← decodeEntries total one count (some keyBytes) rest
      return ((key, value) :: entries, rest)
    else .error (.keyOrder (total - bytes.length))

/-- The content after a header; nested values are read by `one`. -/
def decodeContent (total : Nat) (one : Step) (major : Major) (n : Nat)
    (bytes : Bytes) : Except DecodeRefusal (Value × Bytes) :=
  match major with
  | .unsigned => .ok (.unsigned (UInt64.ofNat n), bytes)
  | .bytes => do
    checkCount total n 1 bytes
    return (.bytes (bytes.take n), bytes.drop n)
  | .text => do
    checkCount total n 1 bytes
    match Text.Utf8.decode (bytes.take n) with
    | .ok text => return (.text text, bytes.drop n)
    | .error reason => .error (.notUtf8 reason)
  | .array => do
    checkCount total n 1 bytes
    let (items, rest) ← decodeItems one n bytes
    return (.array items, rest)
  | .map => do
    checkCount total n 2 bytes
    let (entries, rest) ← decodeEntries total one n none bytes
    return (.map entries, rest)
  | .negative => .error .negativeInteger
  | .tag => .error .nestedTag
  | .simple => .error (.unsupportedMajor major.code)

/-- Reads one value that may reach `room` levels deep, its own level included. -/
def decodeValue (total : Nat) : (room : Nat) → Bytes → Except DecodeRefusal (Value × Bytes)
  | 0, _ => .error .tooDeep
  | room + 1, bytes => do
    let (major, n, bytes) ← Header.read total bytes
    decodeContent total (decodeValue total room) major n bytes

def finish {α : Type} : α × Bytes → Except DecodeRefusal α
  | (a, []) => .ok a
  | (_, rest) => .error (.trailing rest.length)

def decode (bytes : Bytes) : Except DecodeRefusal Value := do
  finish (← decodeValue bytes.length (maxDepth + 1) bytes)

def decodeTagged (bytes : Bytes) : Except DecodeRefusal (UInt64 × Value) := do
  let (major, tag, rest) ← Header.read bytes.length bytes
  if major = .tag then
    let value ← finish (← decodeValue bytes.length (maxDepth + 1) rest)
    return (UInt64.ofNat tag, value)
  else .error (.untagged major.code)

end Conformance.Canonical
