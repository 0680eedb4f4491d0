import Conformance.Bytes
import Conformance.Fault
/-!
# Base64 text

Writing uses the standard alphabet with padding. Reading accepts the standard
and the URL-safe alphabet, each with canonical padding or with none; a text that
no form accepts is refused with the reason of the standard padded form.
-/
namespace Conformance.Text.Base64
open Conformance

/-- The two alphabets differ in the symbols for 62 and 63 only. -/
structure Alphabet where
  symbol62 : UInt8
  symbol63 : UInt8
  deriving DecidableEq

def standard : Alphabet := ⟨43, 47⟩
def urlSafe : Alphabet := ⟨45, 95⟩

inductive Padding
  | canonical
  | absent
  deriving DecidableEq

/-- The padding symbol. -/
def pad : UInt8 := 61

def Alphabet.symbol (a : Alphabet) (value : Nat) : UInt8 :=
  if value < 26 then UInt8.ofNat (65 + value)
  else if value < 52 then UInt8.ofNat (71 + value)
  else if value < 62 then UInt8.ofNat (value - 4)
  else if value = 62 then a.symbol62
  else a.symbol63

def Alphabet.value? (a : Alphabet) (b : UInt8) : Option Nat :=
  if 65 ≤ b && b ≤ 90 then some (b.toNat - 65)
  else if 97 ≤ b && b ≤ 122 then some (b.toNat - 71)
  else if 48 ≤ b && b ≤ 57 then some (b.toNat + 4)
  else if b == a.symbol62 then some 62
  else if b == a.symbol63 then some 63
  else none

def Padding.fill : Padding → Nat → Bytes
  | .canonical, n => List.replicate n pad
  | .absent, _ => []

/-- Three bytes are four symbols; one byte left over is two symbols, two are three. -/
def encodeWith (a : Alphabet) (p : Padding) : Bytes → Bytes
  | [] => []
  | [x] => [a.symbol (x.toNat / 4), a.symbol (x.toNat % 4 * 16)] ++ p.fill 2
  | [x, y] =>
    [a.symbol (x.toNat / 4), a.symbol (x.toNat % 4 * 16 + y.toNat / 16),
      a.symbol (y.toNat % 16 * 4)] ++ p.fill 1
  | x :: y :: z :: rest =>
    [a.symbol (x.toNat / 4), a.symbol (x.toNat % 4 * 16 + y.toNat / 16),
      a.symbol (y.toNat % 16 * 4 + z.toNat / 64), a.symbol (z.toNat % 64)] ++ encodeWith a p rest

def encode (bytes : Bytes) : String :=
  String.ofList ((encodeWith standard .canonical bytes).map fun b => Char.ofNat b.toNat)

theorem encode_ne_empty {bytes : Bytes} (h : bytes ≠ []) : encode bytes ≠ "" := by
  unfold encode
  rw [Ne, String.ofList_eq_empty_iff, List.map_eq_nil_iff]
  match bytes with
  | [] => exact absurd rfl h
  | [x] => simp [encodeWith]
  | [x, y] => simp [encodeWith]
  | x :: y :: z :: rest => simp [encodeWith]

inductive Refusal
  | badSymbol (symbol : UInt8) (offset : Nat)
  | badLastSymbol (symbol : UInt8) (offset : Nat)
  | badLength (symbols : Nat)
  | badPadding
  deriving DecidableEq

def Refusal.detail : Refusal → String
  | .badSymbol symbol offset => s!"Invalid symbol {symbol.toNat}, offset {offset}."
  | .badLastSymbol symbol offset => s!"Invalid last symbol {symbol.toNat}, offset {offset}."
  | .badLength symbols => s!"Invalid input length: {symbols}"
  | .badPadding => "Invalid padding"

/-- Reads whole groups of four symbols. -/
def groups (a : Alphabet) (offset : Nat) : Bytes → Except Refusal Bytes
  | s :: t :: u :: v :: rest =>
    match a.value? s, a.value? t, a.value? u, a.value? v with
    | none, _, _, _ => .error (.badSymbol s offset)
    | _, none, _, _ => .error (.badSymbol t (offset + 1))
    | _, _, none, _ => .error (.badSymbol u (offset + 2))
    | _, _, _, none => .error (.badSymbol v (offset + 3))
    | some w, some x, some y, some z =>
      (groups a (offset + 4) rest).map fun bytes =>
        UInt8.ofNat (w * 4 + x / 16) :: UInt8.ofNat (x % 16 * 16 + y / 4)
          :: UInt8.ofNat (y % 4 * 64 + z) :: bytes
  | _ => .ok []

/-- The last group, sorted into the values of its symbols and a count of pads.
`firstPad` is the offset of the first pad met so far. -/
def lastGroup (a : Alphabet) (position offset : Nat) (firstPad : Option Nat) :
    Bytes → Except Refusal (List Nat × Nat)
  | [] => .ok ([], 0)
  | b :: rest =>
    if b == pad then
      if position < 2 then .error (.badSymbol pad offset)
      else (lastGroup a (position + 1) (offset + 1) (firstPad.or (some offset)) rest).map
        fun (values, pads) => (values, pads + 1)
    else match firstPad with
      | some place => .error (.badSymbol pad place)
      | none =>
        match a.value? b with
        | none => .error (.badSymbol b offset)
        | some v => (lastGroup a (position + 1) (offset + 1) none rest).map
          fun (values, pads) => (v :: values, pads)

/-- The bytes of a last group of symbols, whose unused low bits must be zero. -/
def lastBytes : List Nat → Option Bytes
  | [] => some []
  | [w, x] => if x % 16 = 0 then some [UInt8.ofNat (w * 4 + x / 16)] else none
  | [w, x, y] =>
    if y % 4 = 0 then some [UInt8.ofNat (w * 4 + x / 16), UInt8.ofNat (x % 16 * 16 + y / 4)]
    else none
  | [w, x, y, z] =>
    some [UInt8.ofNat (w * 4 + x / 16), UInt8.ofNat (x % 16 * 16 + y / 4),
      UInt8.ofNat (y % 4 * 64 + z)]
  | _ => none

def Padding.accepts (symbols pads : Nat) : Padding → Bool
  | .canonical => (symbols + pads) % 4 == 0
  | .absent => pads == 0

/-- The last group holds one to four bytes of the text, or none of an empty text. -/
def lastGroupSize (length : Nat) : Nat :=
  if length % 4 = 0 then min length 4 else length % 4

/-- A text that is one byte too long is refused for that byte if it is no symbol at all. -/
def strayByte? (a : Alphabet) (text : Bytes) : Option Refusal :=
  match text.getLast? with
  | some b =>
    if text.length % 4 = 1 && b != pad && (a.value? b).isNone then
      some (.badSymbol b (text.length - 1))
    else none
  | none => none

def decodeLastGroup (a : Alphabet) (p : Padding) (start : Nat) (text : Bytes) :
    Except Refusal Bytes := do
  let (values, pads) ← lastGroup a 0 start none text
  if text ≠ [] ∧ values.length < 2 then .error (.badLength (start + values.length))
  else if p.accepts values.length pads then
    match lastBytes values with
    | some bytes => .ok bytes
    | none =>
      .error (.badLastSymbol (text.getD (values.length - 1) 0) (start + values.length - 1))
  else .error .badPadding

def decodeWith (a : Alphabet) (p : Padding) (text : Bytes) : Except Refusal Bytes :=
  match strayByte? a text with
  | some refusal => .error refusal
  | none => do
    let start := text.length - lastGroupSize text.length
    let whole ← groups a 0 (text.take start)
    let last ← decodeLastGroup a p start (text.drop start)
    return whole ++ last

/-- The four written forms, in the order in which they are tried. -/
def forms : List (Alphabet × Padding) :=
  [(standard, .canonical), (urlSafe, .canonical), (standard, .absent), (urlSafe, .absent)]

def decode (text : String) : Except Refusal Bytes :=
  let bytes := Bytes.ofString text
  match forms.findSome? fun (a, p) => (decodeWith a p bytes).toOption with
  | some decoded => .ok decoded
  | none => decodeWith standard .canonical bytes

def Refusal.fault (r : Refusal) : Fault :=
  ⟨.decode, "invalid base64: " ++ r.detail⟩

end Conformance.Text.Base64
