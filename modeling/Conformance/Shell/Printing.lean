import Conformance.Decimal.Notation
import Conformance.Shell.Numeral
/-!
# Printing commands

What `echo` and `printf` write. Both replace escapes in their texts; a format has
directives besides, each of which takes words from those after the format.
-/
namespace Conformance.Shell
open Conformance

def simpleEscape? : Char → Option Char
  | 'a' => some '\x07'
  | 'b' => some '\x08'
  | 'e' => some '\x1b'
  | 'f' => some '\x0c'
  | 'n' => some '\n'
  | 'r' => some '\r'
  | 't' => some '\t'
  | 'v' => some '\x0b'
  | '\\' => some '\\'
  | _ => none

/-- The octet of an octal number, of which only the low bits count. -/
def octalOctet (digits : Octets) : Char :=
  Char.ofNat (digitsValue 8 digits % 256)

/-- What stands for the characters after a backslash, and how many of them it takes. -/
def escape (rest : Octets) : Char × Nat :=
  match rest with
  | [] => ('\\', 0)
  | c :: _ =>
    match simpleEscape? c with
    | some octet => (octet, 1)
    | none =>
      let digits := (rest.take 3).takeWhile isOctalDigit
      if digits = [] then ('\\', 0) else (octalOctet digits, digits.length)

/-- A word with its escapes replaced, and whether output goes on after it. An octal number may open
with a zero of its own, and one escape ends all output. -/
def unescape : (skip : Nat) → Octets → Octets × Bool
  | _, [] => ([], true)
  | skip + 1, _ :: rest => unescape skip rest
  | 0, '\\' :: 'c' :: _ => ([], false)
  | 0, '\\' :: rest =>
    let extra := match rest with
      | '0' :: d :: _ => if isOctalDigit d then 1 else 0
      | _ => 0
    let (octet, n) := escape (rest.drop extra)
    let (others, goesOn) := unescape (extra + n) rest
    (octet :: others, goesOn)
  | 0, c :: rest =>
    let (others, goesOn) := unescape 0 rest
    (c :: others, goesOn)

def echo (words : List Octets) : Octets :=
  let (newline, words) := match words with
    | ['-', 'n'] :: rest => (false, rest)
    | words => (true, words)
  let (written, goesOn) := unescape 0 ([' '].intercalate words)
  if newline && goesOn then written ++ ['\n'] else written

/-- A width or a precision: stated, or taken from the words. -/
inductive Measure
  | stated (n : Nat)
  | taken
  deriving DecidableEq

/-- A directive of a format, with the text that it was written as. -/
structure Spec where
  flags : Octets
  width : Option Measure
  precision : Option Measure
  conversion : Char
  source : Octets

inductive Directive
  | octet (c : Char)
  | convert (spec : Spec)
  | unfinished

def isFlag (c : Char) : Bool :=
  ['#', '-', '+', ' ', '0'].contains c

/-- A measure in front, and how many characters it takes. -/
def measureFront (rest : Octets) : Measure × Nat :=
  match rest with
  | '*' :: _ => (.taken, 1)
  | _ =>
    let digits := rest.takeWhile Char.isDigit
    (.stated (digitsValue 10 digits), digits.length)

/-- The directive after a percent sign, and how many characters it takes. -/
def specFront (rest : Octets) : Directive × Nat :=
  let flags := rest.takeWhile isFlag
  let (width, n) := measureFront (rest.drop flags.length)
  let n := flags.length + n
  let (precision, n) := match rest.drop n with
    | '.' :: after =>
      let (precision, k) := measureFront after
      (some precision, n + 1 + k)
    | _ => (none, n)
  match rest.drop n with
  | [] => (.unfinished, n)
  | c :: _ => (.convert ⟨flags, some width, precision, c, '%' :: rest.take (n + 1)⟩, n + 1)

def directives : (skip : Nat) → Octets → List Directive
  | _, [] => []
  | skip + 1, _ :: rest => directives skip rest
  | 0, '\\' :: rest =>
    let (octet, n) := escape rest
    .octet octet :: directives n rest
  | 0, '%' :: '%' :: rest => .octet '%' :: directives 1 ('%' :: rest)
  | 0, '%' :: rest =>
    let (directive, n) := specFront rest
    directive :: directives n rest
  | 0, c :: rest => .octet c :: directives 0 rest

/-- A text filled up with blanks to a width. -/
def padded (left : Bool) (width : Nat) (text : Octets) : Octets :=
  let blanks := List.replicate (width - text.length) ' '
  if left then text ++ blanks else blanks ++ text

/-- A number filled up to a width, between its sign and its digits if with zeros. -/
def paddedNumber (flags : Octets) (zeros : Bool) (width : Nat) (sign digits : Octets) : Octets :=
  if zeros ∧ ¬ flags.contains '-' then
    sign ++ List.replicate (width - sign.length - digits.length) '0' ++ digits
  else padded (flags.contains '-') width (sign ++ digits)

def signOf (flags : Octets) (negative : Bool) : Octets :=
  if negative then ['-']
  else if flags.contains '+' then ['+']
  else if flags.contains ' ' then [' ']
  else []

/-- Digits filled up with zeros to a precision; zero has none of its own. -/
def digitsWithin (precision : Option Nat) (n : Nat) (digits : Octets) : Octets :=
  if n = 0 ∧ precision = some 0 then []
  else List.replicate (precision.getD 1 - digits.length) '0' ++ digits

def signedField (flags : Octets) (width : Nat) (precision : Option Nat) (n : Int) : Octets :=
  let digits := digitsWithin precision n.natAbs (digitsOf 10 false n.natAbs)
  paddedNumber flags (flags.contains '0' && precision.isNone) width (signOf flags (n < 0)) digits

def unsignedField (flags : Octets) (width : Nat) (precision : Option Nat) (conversion : Char)
    (n : Nat) : Octets :=
  let upper := conversion = 'X'
  let base := if conversion = 'o' then 8 else if conversion = 'u' then 10 else 16
  let digits := digitsWithin precision n (digitsOf base upper n)
  let digits := if base = 8 ∧ flags.contains '#' ∧ digits.head? ≠ some '0' then '0' :: digits
    else digits
  let mark := if base = 16 ∧ flags.contains '#' ∧ n ≠ 0 then ['0', conversion] else []
  paddedNumber flags (flags.contains '0' && precision.isNone) width mark digits

/-- Two digits at least. -/
def exponentText (exponent : Int) : Octets :=
  let digits := digitsOf 10 false exponent.natAbs
  (if exponent < 0 then '-' else '+') :: List.replicate (2 - digits.length) '0' ++ digits

/-- The significant digits of a magnitude and the exponent of the first one. -/
def leadingDigits (magnitude : Decimal.Binary) (digits : Nat) : Octets × Int :=
  if magnitude.significand = 0 then (List.replicate digits '0', 0)
  else
    let e := magnitude.significant digits
    (digitsOf 10 false e.digits, e.exponent + digits - 1)

/-- Digits before and after a point, which is left out where nothing follows it. -/
def pointed (keepsPoint : Bool) (whole fraction : Octets) : Octets :=
  if fraction = [] ∧ ¬ keepsPoint then whole else whole ++ '.' :: fraction

def withoutZeros (fraction : Octets) : Octets :=
  (fraction.reverse.dropWhile (· = '0')).reverse

def scientificText (flags : Octets) (magnitude : Decimal.Binary) (precision : Nat) (trims : Bool) :
    Octets :=
  let (digits, exponent) := leadingDigits magnitude (precision + 1)
  let fraction := if trims then withoutZeros (digits.drop 1) else digits.drop 1
  pointed (flags.contains '#') (digits.take 1) fraction ++ 'e' :: exponentText exponent

def positionalText (flags : Octets) (magnitude : Decimal.Binary) (precision : Nat) (trims : Bool) :
    Octets :=
  let scaled := Decimal.roundHalfEven
    (magnitude.significand * Decimal.power 2 magnitude.exponent * Decimal.power 10 precision)
    (Decimal.power 2 (-magnitude.exponent))
  let digits := digitsOf 10 false scaled
  let digits := List.replicate (precision + 1 - digits.length) '0' ++ digits
  let fraction := digits.drop (digits.length - precision)
  pointed (flags.contains '#') (digits.take (digits.length - precision))
    (if trims then withoutZeros fraction else fraction)

/-- The notation that is shorter for an exponent, with so many significant digits. -/
def generalText (flags : Octets) (magnitude : Decimal.Binary) (precision : Nat) : Octets :=
  let digits := max precision 1
  let (_, exponent) := leadingDigits magnitude digits
  let trims := !flags.contains '#'
  if -4 ≤ exponent ∧ exponent < digits then
    positionalText flags magnitude (digits - 1 - exponent).toNat trims
  else scientificText flags magnitude (digits - 1) trims

def realField (flags : Octets) (width : Nat) (precision : Option Nat) (conversion : Char)
    (x : Float) : Octets :=
  let sign := signOf flags (Decimal.isNegative x)
  let upper (text : Octets) := if conversion.isUpper then text.map Char.toUpper else text
  if Decimal.isFinite x then
    let magnitude := Decimal.Binary.ofBits (x.toBits &&& 0x7FFFFFFFFFFFFFFF)
    let precision := precision.getD 6
    let text := match conversion.toLower with
      | 'e' => scientificText flags magnitude precision false
      | 'f' => positionalText flags magnitude precision false
      | _ => generalText flags magnitude precision
    paddedNumber flags (flags.contains '0') width sign (upper text)
  else
    padded (flags.contains '-') width (sign ++ upper (if x.isNaN then "nan" else "inf").toList)

/-- The longest real numeral at the front of a word, what stands after it, and whether there is
one. -/
def realFront (word : Octets) : Float × Octets × Bool :=
  let (negative, body) := Numeral.sign (word.dropWhile isSpace)
  let whole := body.takeWhile Char.isDigit
  let after := body.drop whole.length
  let (fraction, rest) := match after with
    | '.' :: digits =>
      let fraction := digits.takeWhile Char.isDigit
      if whole = [] ∧ fraction = [] then ([], after) else (fraction, digits.drop fraction.length)
    | _ => ([], after)
  if whole = [] ∧ fraction = [] then
    let lower := body.map Char.toLower
    let infinite := if negative then -(1.0 / 0.0) else 1.0 / 0.0
    if "infinity".toList.isPrefixOf lower then (infinite, body.drop 8, true)
    else if "inf".toList.isPrefixOf lower then (infinite, body.drop 3, true)
    else if "nan".toList.isPrefixOf lower then (0.0 / 0.0, body.drop 3, true)
    else (0.0, word, false)
  else
    let (exponent, rest) := match rest with
      | e :: more =>
        let (down, digits) := Numeral.sign more
        let stated := digits.takeWhile Char.isDigit
        if (e = 'e' ∨ e = 'E') ∧ stated ≠ [] then
          let n : Int := min (digitsValue 10 stated) 100000
          (if down then -n else n, digits.drop stated.length)
        else (0, rest)
      | [] => (0, rest)
    let exponent := exponent - (fraction.length : Int)
    let x := Float.ofScientific (digitsValue 10 (whole ++ fraction)) (exponent < 0) exponent.natAbs
    (if negative then -x else x, rest, true)

/-- What a format has written so far, and the words that are left for it. -/
structure Sheet where
  output : Octets
  complaints : List Octets
  words : List Octets
  status : Nat
  ended : Bool

namespace Sheet

def write (s : Sheet) (octets : Octets) : Sheet :=
  { s with output := s.output ++ octets }

def complain (s : Sheet) (status : Nat) (complaint : Octets) : Sheet :=
  { s with complaints := s.complaints ++ [complaint], status }

/-- The next word, an empty one where none is left. -/
def take (s : Sheet) : Octets × Sheet :=
  (s.words.head?.getD [], { s with words := s.words.tail })

/-- Complains about a word that is no numeral as a whole. -/
def checked (s : Sheet) (word rest : Octets) (found fits : Bool) : Sheet :=
  if rest ≠ [] then
    s.complain 1 (word ++ Octets.ofString
      (if found then ": not completely converted" else ": expected numeric value"))
  else if fits then s
  else s.complain 1 (word ++ Octets.ofString ": Numerical result out of range")

/-- The next word as a number between two bounds; a quote before a character asks for its code. -/
def takeNumber (s : Sheet) (low high : Int) : Int × Sheet :=
  let (word, s) := s.take
  match word with
  | '"' :: rest => ((rest.head?.map (·.toNat)).getD 0, s)
  | '\'' :: rest => ((rest.head?.map (·.toNat)).getD 0, s)
  | _ =>
    let n := Numeral.front word
    let value := if n.value < low then low else if high < n.value then high else n.value
    (value, s.checked word n.rest n.found (value == n.value))

def takeSigned (s : Sheet) : Int × Sheet :=
  s.takeNumber Word.leastSigned Word.greatestSigned

/-- A negative number counts from the other end, as far as there are numbers. -/
def takeUnsigned (s : Sheet) : Nat × Sheet :=
  let (n, after) := s.takeNumber (-Word.greatest) Word.greatest
  (wrapUnsigned n, after)

def takeReal (s : Sheet) : Float × Sheet :=
  let (word, s) := s.take
  match word with
  | '"' :: rest => (Float.ofNat ((rest.head?.map (·.toNat)).getD 0), s)
  | '\'' :: rest => (Float.ofNat ((rest.head?.map (·.toNat)).getD 0), s)
  | _ =>
    let (x, rest, found) := realFront word
    (x, s.checked word rest found true)

def measure (s : Sheet) : Option Measure → Option Int × Sheet
  | none => (none, s)
  | some (.stated n) => (some n, s)
  | some .taken =>
    let (n, s) := s.takeSigned
    (some n, s)

/-- Writes one directive with the words that it takes. -/
def convert (s : Sheet) (spec : Spec) : Sheet :=
  let (width, s) := s.measure spec.width
  let (precision, s) := s.measure spec.precision
  let width := width.getD 0
  let flags := if width < 0 then '-' :: spec.flags else spec.flags
  let width := width.natAbs
  let precision := precision.bind fun n => if n < 0 then none else some n.toNat
  let cut (text : Octets) := match precision with
    | some n => text.take n
    | none => text
  let left := flags.contains '-'
  match spec.conversion with
  | 's' =>
    let (word, s) := s.take
    s.write (padded left width (cut word))
  | 'b' =>
    let (word, s) := s.take
    let (text, goesOn) := unescape 0 word
    { s.write (padded left width (cut text)) with ended := !goesOn }
  | 'c' =>
    let (word, s) := s.take
    s.write (padded left width [word.head?.getD '\x00'])
  | 'd' | 'i' =>
    let (n, s) := s.takeSigned
    s.write (signedField flags width precision n)
  | 'o' | 'u' | 'x' | 'X' =>
    let (n, s) := s.takeUnsigned
    s.write (unsignedField flags width precision spec.conversion n)
  | 'e' | 'E' | 'f' | 'F' | 'g' | 'G' =>
    let (x, s) := s.takeReal
    s.write (realField flags width precision spec.conversion x)
  | _ =>
    { s.complain 2 (spec.source ++ Octets.ofString ": invalid directive") with ended := true }

def apply (s : Sheet) (d : Directive) : Sheet :=
  if s.ended then s
  else match d with
    | .octet c => s.write [c]
    | .convert spec => s.convert spec
    | .unfinished =>
      { s.complain 2 (Octets.ofString "missing format character") with ended := true }

/-- A format is used again as long as words are left and it takes some. -/
def fill (format : List Directive) : (passes : Nat) → Sheet → Sheet
  | 0, s => s
  | n + 1, s =>
    let after := format.foldl apply s
    if after.ended ∨ after.words = [] ∨ after.words.length = s.words.length then after
    else fill format n after

end Sheet

def printf (format : Octets) (words : List Octets) : Sheet :=
  Sheet.fill (directives 0 format) (words.length + 1) ⟨[], [], words, 0, false⟩

end Conformance.Shell
