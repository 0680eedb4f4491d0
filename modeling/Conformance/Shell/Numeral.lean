import Conformance.Shell.Octets
import Conformance.Word
/-!
# Numerals in scripts

The longest numeral at the front of a word: decimal, octal after a zero, or
hexadecimal after `0x`, with blanks and a sign before it.
-/
namespace Conformance.Shell

/-- The value of a hexadecimal digit. -/
def hexDigit? (c : Char) : Option Nat :=
  if c.isDigit then some (c.toNat - 48)
  else if 'a' ≤ c ∧ c ≤ 'f' then some (c.toNat - 87)
  else if 'A' ≤ c ∧ c ≤ 'F' then some (c.toNat - 55)
  else none

def isOctalDigit (c : Char) : Bool :=
  '0' ≤ c && c ≤ '7'

def isSpace (c : Char) : Bool :=
  c == ' ' || ('\t' ≤ c && c ≤ '\r')

/-- A number, what stands after it, and whether there is a numeral at all. -/
structure Numeral where
  value : Int
  rest : Octets
  found : Bool
  deriving DecidableEq

namespace Numeral

/-- A natural number without sign, and what stands after it. -/
def magnitude (word : Octets) : Nat × Octets :=
  match word with
  | '0' :: x :: d :: rest =>
    if (x = 'x' ∨ x = 'X') ∧ (hexDigit? d).isSome then
      let digits := (d :: rest).takeWhile fun c => (hexDigit? c).isSome
      (digits.foldl (fun n c => n * 16 + (hexDigit? c).getD 0) 0, (d :: rest).drop digits.length)
    else octal word
  | '0' :: _ => octal word
  | _ =>
    let digits := word.takeWhile Char.isDigit
    (digitsValue 10 digits, word.drop digits.length)
where
  octal (word : Octets) : Nat × Octets :=
    let digits := word.takeWhile isOctalDigit
    (digitsValue 8 digits, word.drop digits.length)

def sign (word : Octets) : Bool × Octets :=
  match word with
  | '-' :: rest => (true, rest)
  | '+' :: rest => (false, rest)
  | rest => (false, rest)

def front (word : Octets) : Numeral :=
  let (negative, body) := sign (word.dropWhile isSpace)
  let (n, rest) := magnitude body
  if rest.length < body.length then ⟨if negative then -n else n, rest, true⟩ else ⟨0, word, false⟩

/-- The longest decimal numeral at the front. -/
def decimal (word : Octets) : Numeral :=
  let (negative, body) := sign (word.dropWhile isSpace)
  let digits := body.takeWhile Char.isDigit
  let n := digitsValue 10 digits
  if digits = [] then ⟨0, word, false⟩
  else ⟨if negative then -n else n, body.drop digits.length, true⟩

end Numeral

/-- The residue of a number that fits 64 bits with a sign. -/
def wrapSigned (n : Int) : Int :=
  let residue := n % (Word.greatest + 1)
  if Word.greatestSigned < residue then residue - (Word.greatest + 1) else residue

/-- The residue of a number that fits 64 bits without a sign. -/
def wrapUnsigned (n : Int) : Nat :=
  (n % (Word.greatest + 1)).toNat

/-- The digits of a number in a base up to sixteen. -/
def digitsOf (base : Nat) (upper : Bool) (n : Nat) : Octets :=
  (Nat.toDigits base n).map fun c => if upper then c.toUpper else c

def decimalOf (n : Int) : Octets :=
  (toString n).toList

end Conformance.Shell
