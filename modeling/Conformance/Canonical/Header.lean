import Conformance.Bytes
import Conformance.Fault
import Conformance.Text.Utf8
/-!
# Headers

Every encoded value opens with a header: three bits of major type and a number
in the least of five widths that holds it. Reading refuses every other width.
-/
namespace Conformance.Canonical
open Conformance

inductive Major
  | unsigned
  | negative
  | bytes
  | text
  | array
  | map
  | tag
  | simple
  deriving DecidableEq

def Major.code : Major → Nat
  | .unsigned => 0
  | .negative => 1
  | .bytes => 2
  | .text => 3
  | .array => 4
  | .map => 5
  | .tag => 6
  | .simple => 7

/-- The major type in the upper three bits of an initial byte. -/
def Major.ofInitial (b : UInt8) : Major :=
  match b.toNat / 32 with
  | 0 => .unsigned
  | 1 => .negative
  | 2 => .bytes
  | 3 => .text
  | 4 => .array
  | 5 => .map
  | 6 => .tag
  | _ => .simple

/-- Why a byte string is not the canonical encoding of a value; offsets count from its start. -/
inductive DecodeRefusal
  | cutShort (offset : Nat)
  | trailing (count : Nat)
  | indefinite (offset : Nat)
  | reserved (info offset : Nat)
  | notShortest (offset : Nat)
  | lengthExceedsInput (length offset : Nat)
  | notUtf8 (reason : Text.Utf8.Refusal)
  | keyOrder (offset : Nat)
  | tooDeep
  | negativeInteger
  | nestedTag
  | unsupportedMajor (code : Nat)
  | untagged (code : Nat)
  deriving DecidableEq

def DecodeRefusal.detail : DecodeRefusal → String
  | .cutShort offset => s!"truncated input at offset {offset}"
  | .trailing count => s!"{count} trailing bytes after canonical value"
  | .indefinite offset => s!"indefinite length at offset {offset}"
  | .reserved info offset => s!"reserved additional info {info} at offset {offset}"
  | .notShortest offset => s!"non-shortest header at offset {offset}"
  | .lengthExceedsInput length offset => s!"length {length} exceeds input at offset {offset}"
  | .notUtf8 reason => "invalid utf-8 text: " ++ reason.detail
  | .keyOrder offset => s!"map key out of canonical order or duplicated at offset {offset}"
  | .tooDeep => "nesting too deep"
  | .negativeInteger => "negative integers are outside the canonical value space"
  | .nestedTag => "nested tags are outside the canonical value space"
  | .unsupportedMajor code => s!"unsupported major type {code}"
  | .untagged code => s!"expected tag header, found major type {code}"

def DecodeRefusal.fault (r : DecodeRefusal) : Fault :=
  ⟨.decode, r.detail⟩

namespace Header

/-- How many bytes follow the initial byte, by the number that they hold. -/
def width (n : Nat) : Nat :=
  if n < 24 then 0
  else if n < UInt8.size then 1
  else if n < UInt16.size then 2
  else if n < UInt32.size then 4
  else 8

/-- The low five bits of an initial byte that announce so many bytes. -/
def widthInfo : (width : Nat) → Nat
  | 1 => 24
  | 2 => 25
  | 4 => 26
  | _ => 27

def write (major : Major) (n : Nat) : Bytes :=
  if n < 24 then [UInt8.ofNat (major.code * 32 + n)]
  else UInt8.ofNat (major.code * 32 + widthInfo (width n)) :: Bytes.ofNat (width n) n

/-- How many bytes an initial byte announces. -/
def announced? : (info : Nat) → Option Nat
  | 24 => some 1
  | 25 => some 2
  | 26 => some 4
  | 27 => some 8
  | _ => none

/-- Takes `n` bytes; `total` is the length of the whole input and gives the offset. -/
def take (total n : Nat) (bytes : Bytes) : Except DecodeRefusal (Bytes × Bytes) :=
  if bytes.length < n then .error (.cutShort (total - bytes.length))
  else .ok (bytes.take n, bytes.drop n)

/-- Where the initial byte stands that `rest` follows. -/
def offset (total : Nat) (rest : Bytes) : Nat :=
  total - (rest.length + 1)

/-- The number after an initial byte; the width must be the least that holds it. -/
def argument (total info : Nat) (rest : Bytes) : Except DecodeRefusal (Nat × Bytes) :=
  if info < 24 then .ok (info, rest)
  else match announced? info with
    | none =>
      .error (if info = 31 then .indefinite (offset total rest)
        else .reserved info (offset total rest))
    | some announced => do
      let (digits, left) ← take total announced rest
      let n := Bytes.toNat digits
      if width n = announced then .ok (n, left) else .error (.notShortest (offset total rest))

/-- Reads the header at the front of `bytes`, the rest of an input of length `total`. -/
def read (total : Nat) : Bytes → Except DecodeRefusal (Major × Nat × Bytes)
  | [] => .error (.cutShort total)
  | initial :: rest => do
    let (n, left) ← argument total (initial.toNat % 32) rest
    return (Major.ofInitial initial, n, left)

end Header

end Conformance.Canonical
