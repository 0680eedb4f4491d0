import Conformance.Bytes
import Conformance.Fault
/-!
# Hexadecimal text

Bytes are written as two lowercase digits each. Reading takes the text pair by
pair, and each pair as an unsigned number in base sixteen: two digits of either
case, or a plus sign and one digit.
-/
namespace Conformance.Text.Hex
open Conformance

def digit (n : Nat) : Char :=
  if n < 10 then Char.ofNat (48 + n) else Char.ofNat (87 + n)

def digit? (c : Char) : Option Nat :=
  if '0' ≤ c ∧ c ≤ '9' then some (c.toNat - 48)
  else if 'a' ≤ c ∧ c ≤ 'f' then some (c.toNat - 87)
  else if 'A' ≤ c ∧ c ≤ 'F' then some (c.toNat - 55)
  else none

def ofByte (b : UInt8) : List Char :=
  [digit (b.toNat / 16), digit (b.toNat % 16)]

def encode (bytes : Bytes) : String :=
  String.ofList (bytes.flatMap ofByte)

inductive Refusal
  | nonAscii
  | oddLength
  | badPair (offset : Nat)
  | wrongLength (expected actual : Nat)
  deriving DecidableEq

def Refusal.detail : Refusal → String
  | .nonAscii => "non-ascii hex string"
  | .oddLength => "odd-length hex string"
  | .badPair offset => s!"invalid hex at offset {offset}: invalid digit found in string"
  | .wrongLength expected actual => s!"expected {expected} bytes, got {actual}"

def Refusal.fault (r : Refusal) : Fault :=
  ⟨.decode, r.detail⟩

/-- A plus sign stands for a leading digit zero. -/
def pair? (high low : Char) : Option UInt8 :=
  if high = '+' then (digit? low).map UInt8.ofNat
  else do
    let h ← digit? high
    let l ← digit? low
    return UInt8.ofNat (16 * h + l)

/-- Reads pairs from the given offset on. -/
def pairs (offset : Nat) : List Char → Except Refusal Bytes
  | high :: low :: rest =>
    match pair? high low with
    | none => .error (.badPair offset)
    | some b => (pairs (offset + 2) rest).map (b :: ·)
  | _ => .ok []

def decode (text : String) : Except Refusal Bytes :=
  let chars := text.toList
  if chars.any (127 < ·.toNat) then .error .nonAscii
  else if chars.length % 2 = 1 then .error .oddLength
  else pairs 0 chars

/-- Reads exactly `size` bytes. -/
def decodeExact (size : Nat) (text : String) : Except Refusal Bytes := do
  let bytes ← decode text
  if bytes.length = size then .ok bytes else .error (.wrongLength size bytes.length)

def read (text : String) : Except Fault Bytes :=
  (decode text).mapError Refusal.fault

def readExact (size : Nat) (text : String) : Except Fault Bytes :=
  (decodeExact size text).mapError Refusal.fault

end Conformance.Text.Hex
