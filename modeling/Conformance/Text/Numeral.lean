import Conformance.Text.Blank
import Conformance.Word
/-!
# Numerals

Signed decimal numbers of 64 bits as they stand in texts: an optional sign and
at least one digit, nothing else.
-/
namespace Conformance.Text

def signed64? (chars : List Char) : Option Int :=
  let (negative, digits) := match chars with
    | '-' :: rest => (true, rest)
    | '+' :: rest => (false, rest)
    | rest => (false, rest)
  if digits = [] ∨ ¬ digits.all Char.isDigit then none
  else
    let magnitude := digits.foldl (fun n c => n * 10 + ((c.toNat : Int) - 48)) 0
    let n := if negative then -magnitude else magnitude
    if Word.fitsSigned n then some n else none

end Conformance.Text
