import Conformance.Bytes
/-!
# UTF-8

Bytes are read one scalar at a time. What is not UTF-8 is described by the
longest ill-formed beginning that cannot be completed; a text that stops inside
a sequence so far well formed is told apart from one that goes wrong.
-/
namespace Conformance.Text.Utf8
open Conformance

/-- What stands at the front of a byte string. -/
inductive Front
  | scalar (c : Char) (rest : Bytes)
  | illFormed (length : Nat) (rest : Bytes)
  | cutShort
  | finished

def isContinuation (b : UInt8) : Bool :=
  0x80 ≤ b && b ≤ 0xBF

/-- How many continuation bytes follow a leading byte, and the range of the first of them. -/
def leading? (b : UInt8) : Option (Nat × UInt8 × UInt8) :=
  if 0xC2 ≤ b && b ≤ 0xDF then some (1, 0x80, 0xBF)
  else if b == 0xE0 then some (2, 0xA0, 0xBF)
  else if b == 0xED then some (2, 0x80, 0x9F)
  else if 0xE1 ≤ b && b ≤ 0xEF then some (2, 0x80, 0xBF)
  else if b == 0xF0 then some (3, 0x90, 0xBF)
  else if 0xF1 ≤ b && b ≤ 0xF3 then some (3, 0x80, 0xBF)
  else if b == 0xF4 then some (3, 0x80, 0x8F)
  else none

/-- The bits that a leading byte with `more` continuation bytes contributes. -/
def leadingBits (more : Nat) (b : UInt8) : Nat :=
  b.toNat % (1 <<< (6 - more))

/-- Reads `more` further continuation bytes after `seen` bytes of one sequence. -/
def continued (code seen : Nat) : (more : Nat) → Bytes → Front
  | 0, rest => .scalar (Char.ofNat code) rest
  | _ + 1, [] => .cutShort
  | more + 1, b :: rest =>
    if isContinuation b then continued (code * 64 + b.toNat % 64) (seen + 1) more rest
    else .illFormed seen (b :: rest)

def front : Bytes → Front
  | [] => .finished
  | b :: rest =>
    if b < 0x80 then .scalar (Char.ofNat b.toNat) rest
    else match leading? b with
      | none => .illFormed 1 rest
      | some (more, low, high) =>
        match rest with
        | [] => .cutShort
        | c :: rest' =>
          if low ≤ c && c ≤ high then
            continued (leadingBits more b * 64 + c.toNat % 64) 2 (more - 1) rest'
          else .illFormed 1 rest

inductive Refusal
  | illFormed (length index : Nat)
  | cutShort (index : Nat)
  deriving DecidableEq

def Refusal.detail : Refusal → String
  | .illFormed length index => s!"invalid utf-8 sequence of {length} bytes from index {index}"
  | .cutShort index => s!"incomplete utf-8 byte sequence from index {index}"

theorem continued_length {code seen more : Nat} {bytes rest : Bytes} {c : Char}
    (h : continued code seen more bytes = .scalar c rest) : rest.length ≤ bytes.length := by
  induction more generalizing code seen bytes with
  | zero => simp only [continued, Front.scalar.injEq] at h; simp [h.2]
  | succ more ih =>
    cases bytes with
    | nil => simp [continued] at h
    | cons b bytes =>
      simp only [continued] at h
      split at h
      · exact Nat.le_succ_of_le (ih h)
      · simp at h

theorem continued_illFormed_length {code seen more length : Nat} {bytes rest : Bytes}
    (h : continued code seen more bytes = .illFormed length rest) : rest.length ≤ bytes.length := by
  induction more generalizing code seen bytes with
  | zero => simp [continued] at h
  | succ more ih =>
    cases bytes with
    | nil => simp [continued] at h
    | cons b bytes =>
      simp only [continued] at h
      split at h
      · exact Nat.le_succ_of_le (ih h)
      · simp only [Front.illFormed.injEq] at h; simp [← h.2]

theorem front_scalar_length {bytes rest : Bytes} {c : Char} (h : front bytes = .scalar c rest) :
    rest.length < bytes.length := by
  cases bytes with
  | nil => simp [front] at h
  | cons b bytes =>
    simp only [front] at h
    split at h
    · simp only [Front.scalar.injEq] at h; simp [h.2]
    · split at h
      · simp at h
      · split at h
        · simp at h
        · split at h
          · exact Nat.lt_succ_of_le (Nat.le_succ_of_le (continued_length h))
          · simp at h

theorem front_illFormed_length {bytes rest : Bytes} {length : Nat}
    (h : front bytes = .illFormed length rest) : rest.length < bytes.length := by
  cases bytes with
  | nil => simp [front] at h
  | cons b bytes =>
    simp only [front] at h
    split at h
    · simp at h
    · split at h
      · simp only [Front.illFormed.injEq] at h; simp [h.2]
      · split at h
        · simp at h
        · split at h
          · exact Nat.lt_succ_of_le (Nat.le_succ_of_le (continued_illFormed_length h))
          · simp only [Front.illFormed.injEq] at h; simp [← h.2]

/-- The first ill-formed place, counted from `index`. -/
def refusal? (index : Nat) (bytes : Bytes) : Option Refusal :=
  match _ : front bytes with
  | .scalar _ rest => refusal? (index + (bytes.length - rest.length)) rest
  | .illFormed length _ => some (.illFormed length index)
  | .cutShort => some (.cutShort index)
  | .finished => none
termination_by bytes.length
decreasing_by exact front_scalar_length ‹_›

/-- Every ill-formed beginning is replaced by one replacement character. -/
def decodeLossy (bytes : Bytes) : List Char :=
  match _ : front bytes with
  | .scalar c rest => c :: decodeLossy rest
  | .illFormed _ rest => '\uFFFD' :: decodeLossy rest
  | .cutShort => ['\uFFFD']
  | .finished => []
termination_by bytes.length
decreasing_by
  · exact front_scalar_length ‹_›
  · exact front_illFormed_length ‹_›

/-- Strict decoding; the refusal of a text that is not UTF-8 tells where it goes wrong. -/
def decode (bytes : Bytes) : Except Refusal String :=
  match String.fromUTF8? bytes.toByteArray with
  | some text => .ok text
  | none => .error ((refusal? 0 bytes).getD (.cutShort bytes.length))

end Conformance.Text.Utf8
