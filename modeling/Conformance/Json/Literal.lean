import Conformance.Json.Value
/-!
# JSON texts

A text is cut into tokens, and the tokens are assembled on a stack of open
brackets into a literal: the text as written, with repeated keys in place. A
literal marks the leaves that no value can hold (a number too large, a string
with half of a surrogate pair), since a reader that skips such a leaf accepts it.
-/
namespace Conformance.Json

inductive Literal
  | null
  | boolean (b : Bool)
  | number (n : Option Number)
  | text (s : Option String)
  | array (items : List Literal)
  | object (entries : List (Option String × Literal))

inductive Token
  | leaf (value : Literal)
  | openArray
  | closeArray
  | openObject
  | closeObject
  | colon
  | comma

def digitsValue (digits : List Char) : Nat :=
  digits.foldl (fun n c => n * 10 + (c.toNat - 48)) 0

/-- The double nearest to `significand * 10 ^ exponent`, if it is finite. Far outside the
range of doubles the answer is known without computing the power. -/
def real? (negative : Bool) (significand : Nat) (exponent : Int) : Option Number :=
  let sign (x : Float) := Number.real (if negative then -x else x)
  let digits := ((toString significand).length : Int)
  if significand = 0 ∨ digits + exponent < -340 then some (sign 0)
  else if digits + exponent > 310 then none
  else
    let x := Float.ofScientific significand (exponent < 0) exponent.natAbs
    if x.isInf then none else some (sign x)

/-- A literal without fraction and exponent is whole if it fits 64 bits; minus zero is not. -/
def integer? (negative : Bool) (n : Nat) : Option Number :=
  if negative then
    if 0 < n ∧ Word.fitsSigned (-n) then some (.whole (-(n : Int))) else real? true n 0
  else if Word.fits n then some (.whole n)
  else real? false n 0

def signedDigits : List Char → Bool × List Char
  | '-' :: rest => (true, rest)
  | '+' :: rest => (false, rest)
  | rest => (false, rest)

/-- The exponent part of a number and nothing after it. -/
def exponentPart : List Char → Option Int
  | [] => some 0
  | c :: rest =>
    if c = 'e' ∨ c = 'E' then
      let (negative, digits) := signedDigits rest
      if digits ≠ [] ∧ digits.all Char.isDigit then
        let n := (digitsValue digits : Int)
        some (if negative then -n else n)
      else none
    else none

/-- Fraction digits and what follows them. -/
def fractionPart : List Char → Option (List Char × List Char)
  | '.' :: rest =>
    let digits := rest.takeWhile Char.isDigit
    if digits = [] then none else some (digits, rest.dropWhile Char.isDigit)
  | rest => some ([], rest)

/-- Reads a number; the inner option is empty when it is too large for a double. -/
def numberOf (chars : List Char) : Option (Option Number) := do
  let (negative, body) := match chars with
    | '-' :: rest => (true, rest)
    | rest => (false, rest)
  let whole := body.takeWhile Char.isDigit
  if whole = [] ∨ (whole.head? = some '0' ∧ whole.length ≠ 1) then none
  else
    let (fraction, rest) ← fractionPart (body.dropWhile Char.isDigit)
    let exponent ← exponentPart rest
    if fraction = [] ∧ rest = [] then return integer? negative (digitsValue whole)
    else return real? negative (digitsValue (whole ++ fraction)) (exponent - fraction.length)

def wordOf (chars : List Char) : Option Literal :=
  match String.ofList chars with
  | "null" => some .null
  | "true" => some (.boolean true)
  | "false" => some (.boolean false)
  | _ => (numberOf chars).map .number

/-- A piece of a string: a character, or one code unit of a surrogate pair. -/
inductive Piece
  | char (c : Char)
  | half (unit : Nat)

def pieceOfUnit (unit : Nat) : Piece :=
  if 0xD800 ≤ unit ∧ unit < 0xE000 then .half unit else .char (Char.ofNat unit)

/-- Joins each leading half with the trailing half right after it; no half may stand alone. -/
def joinPieces : List Piece → Option (List Char)
  | [] => some []
  | .char c :: rest => (joinPieces rest).map (c :: ·)
  | .half high :: .half low :: rest =>
    if high < 0xDC00 ∧ 0xDC00 ≤ low then
      (joinPieces rest).map (Char.ofNat (0x10000 + (high - 0xD800) * 0x400 + (low - 0xDC00)) :: ·)
    else none
  | .half _ :: _ => none

def hexDigit? (c : Char) : Option Nat :=
  if c.isDigit then some (c.toNat - 48)
  else if 'a' ≤ c ∧ c ≤ 'f' then some (c.toNat - 87)
  else if 'A' ≤ c ∧ c ≤ 'F' then some (c.toNat - 55)
  else none

def escaped? : Char → Option Char
  | '"' => some '"'
  | '\\' => some '\\'
  | '/' => some '/'
  | 'b' => some '\x08'
  | 'f' => some '\x0C'
  | 'n' => some '\n'
  | 'r' => some '\r'
  | 't' => some '\t'
  | _ => none

/-- Where the scanner stands; what it holds of the current token is in reverse. -/
inductive Scan
  | between
  | word (chars : List Char)
  | string (pieces : List Piece)
  | escape (pieces : List Piece)
  | unit (pieces : List Piece) (missing value : Nat)

def isJsonBlank (c : Char) : Bool :=
  c == ' ' || c == '\t' || c == '\n' || c == '\r'

def isWordChar (c : Char) : Bool :=
  c.isAlphanum || c == '-' || c == '+' || c == '.'

def bracket? : Char → Option Token
  | '[' => some .openArray
  | ']' => some .closeArray
  | '\x7b' => some .openObject
  | '\x7d' => some .closeObject
  | ':' => some .colon
  | ',' => some .comma
  | _ => none

/-- Outside of strings and words; `tokens` holds the earlier tokens in reverse. -/
def scanBetween (tokens : List Token) (c : Char) : Option (List Token × Scan) :=
  if isJsonBlank c then some (tokens, .between)
  else if c = '"' then some (tokens, .string [])
  else if isWordChar c then some (tokens, .word [c])
  else (bracket? c).map fun token => (token :: tokens, .between)

def closeWord (tokens : List Token) (chars : List Char) : Option (List Token) :=
  (wordOf chars.reverse).map fun literal => .leaf literal :: tokens

def scanChar (tokens : List Token) (c : Char) : Scan → Option (List Token × Scan)
  | .between => scanBetween tokens c
  | .word chars =>
    if isWordChar c then some (tokens, .word (c :: chars))
    else (closeWord tokens chars).bind fun tokens => scanBetween tokens c
  | .string pieces =>
    if c = '"' then
      let text := (joinPieces pieces.reverse).map String.ofList
      some (.leaf (.text text) :: tokens, .between)
    else if c = '\\' then some (tokens, .escape pieces)
    else if c.toNat < 0x20 then none
    else some (tokens, .string (.char c :: pieces))
  | .escape pieces =>
    if c = 'u' then some (tokens, .unit pieces 3 0)
    else (escaped? c).map fun e => (tokens, .string (.char e :: pieces))
  | .unit pieces missing value =>
    (hexDigit? c).map fun digit =>
      let value := value * 16 + digit
      match missing with
      | 0 => (tokens, .string (pieceOfUnit value :: pieces))
      | missing + 1 => (tokens, .unit pieces missing value)

def scan (tokens : List Token) (state : Scan) : List Char → Option (List Token)
  | [] =>
    match state with
    | .between => some tokens.reverse
    | .word chars => (closeWord tokens chars).map List.reverse
    | _ => none
  | c :: rest =>
    match scanChar tokens c state with
    | some (tokens, state) => scan tokens state rest
    | none => none

def tokens (text : String) : Option (List Token) :=
  scan [] .between text.toList

/-- An open bracket with what it holds so far in reverse; an object waits for the value of a key. -/
inductive Frame
  | array (items : List Literal)
  | object (entries : List (Option String × Literal)) (key : Option String)

/-- What the next token may be. -/
inductive Stage
  | value
  | firstItem
  | key (entries : List (Option String × Literal))
  | colon (entries : List (Option String × Literal)) (key : Option String)
  | after (value : Literal)

abbrev Assembly := Stage × List Frame

def Assembly.value (frames : List Frame) : Token → Option Assembly
  | .leaf literal => some (.after literal, frames)
  | .openArray => some (.firstItem, .array [] :: frames)
  | .openObject => some (.key [], frames)
  | _ => none

def Assembly.step : Assembly → Token → Option Assembly
  | (.value, frames), token => value frames token
  | (.firstItem, .array items :: frames), .closeArray =>
    some (.after (.array items.reverse), frames)
  | (.firstItem, frames), token => value frames token
  | (.key [], frames), .closeObject => some (.after (.object []), frames)
  | (.key entries, frames), .leaf (.text key) => some (.colon entries key, frames)
  | (.colon entries key, frames), .colon => some (.value, .object entries key :: frames)
  | (.after literal, .array items :: frames), .comma =>
    some (.value, .array (literal :: items) :: frames)
  | (.after literal, .array items :: frames), .closeArray =>
    some (.after (.array (literal :: items).reverse), frames)
  | (.after literal, .object entries key :: frames), .comma =>
    some (.key ((key, literal) :: entries), frames)
  | (.after literal, .object entries key :: frames), .closeObject =>
    some (.after (.object ((key, literal) :: entries).reverse), frames)
  | _, _ => none

def Literal.parse (text : String) : Option Literal := do
  match (← tokens text).foldlM Assembly.step (Stage.value, []) with
  | some (.after literal, []) => some literal
  | _ => none

/-- How many arrays and objects may stand inside one another. -/
def maxNesting : Nat := 127

mutual

/-- The value of a literal that has room for `room` further levels of nesting. -/
def Literal.value? (room : Nat) : Literal → Option Json
  | .null => some .null
  | .boolean b => some (.boolean b)
  | .number n => n.map .number
  | .text s => s.map .text
  | .array items => if room = 0 then none else (itemValues? (room - 1) items).map .array
  | .object entries =>
    if room = 0 then none else (entryValues? (room - 1) entries).map Json.ofEntries

def itemValues? (room : Nat) : List Literal → Option (List Json)
  | [] => some []
  | literal :: rest => do
    let value ← literal.value? room
    let values ← itemValues? room rest
    return value :: values

def entryValues? (room : Nat) : List (Option String × Literal) → Option (List (String × Json))
  | [] => some []
  | (key, literal) :: rest => do
    let key ← key
    let value ← literal.value? room
    let values ← entryValues? room rest
    return (key, value) :: values

end

def parse (text : String) : Option Json := do
  (← Literal.parse text).value? maxNesting

end Conformance.Json
