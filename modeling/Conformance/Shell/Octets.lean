import Conformance.Bytes
import Conformance.Text.Utf8
/-!
# Octets as characters

Scripts work on octets, which are held as the characters below 256, so that they
can be matched and compared as text.
-/
namespace Conformance.Shell
open Conformance

abbrev Octets := List Char

namespace Octets

def ofBytes (bytes : Bytes) : Octets :=
  bytes.map fun b => Char.ofNat b.toNat

def toBytes (octets : Octets) : Bytes :=
  octets.map fun c => UInt8.ofNat c.toNat

def ofString (text : String) : Octets :=
  ofBytes (.ofString text)

/-- The text that UTF-8 gives to octets, as far as they are well formed. -/
def text (octets : Octets) : String :=
  String.ofList (Text.Utf8.decodeLossy (toBytes octets))

/-- Whether octets come no later than others, as words do in a dictionary. -/
def precedes : Octets → Octets → Bool
  | [], _ => true
  | _ :: _, [] => false
  | a :: as, b :: bs => a.toNat < b.toNat || (a == b && precedes as bs)

end Octets

def backquote : Char := Char.ofNat 96

def isNameStart (c : Char) : Bool :=
  c.isAlpha || c == '_'

def isNamePart (c : Char) : Bool :=
  c.isAlphanum || c == '_'

def isName : Octets → Bool
  | [] => false
  | c :: rest => isNameStart c && rest.all isNamePart

def isBlank (c : Char) : Bool :=
  c == ' ' || c == '\t'

/-- The number that digits write in a base up to ten. -/
def digitsValue (base : Nat) (digits : Octets) : Nat :=
  digits.foldl (fun n c => n * base + (c.toNat - 48)) 0

/-- A natural number written in decimal digits only. -/
def natural? (word : Octets) : Option Nat :=
  if word ≠ [] ∧ word.all Char.isDigit then some (digitsValue 10 word) else none

end Conformance.Shell
