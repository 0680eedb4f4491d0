import Conformance.Canonical.Decoding
import Mathlib.Tactic

/-!
# A reader at a cursor

The decoder as a reader that moves a cursor over one input. It stops where it
refuses the input, and it would stop at an access outside the input. Every call
is noted when it is over, also one that stopped, with the cursor before it and
after it. The check of counts can be left out.
-/
namespace Conformance.Canonical
open Conformance

/-- Why a reader stops: it refuses the input, or it would leave it. -/
inductive Stop
  | refused (refusal : DecodeRefusal)
  | outside
  deriving DecidableEq

/-- What a reader is called for. A turn is one of a loop over items or entries: the place where the
loop began, and how many turns there were before. -/
inductive Operation
  | remaining
  | take (count : ℕ)
  | finish
  | header
  | count (arg least : ℕ)
  | value (depth : ℕ)
  | turn (start index : ℕ)
  deriving DecidableEq

/-- A call that is over, and the cursor before and after it. -/
structure Call where
  operation : Operation
  start : ℕ
  stop : ℕ
  succeeded : Bool
  deriving DecidableEq

/-- What a run comes to: an answer, the cursor where it stopped, and the calls in the order in which
they were over. -/
structure Outcome (α : Type) where
  answer : Except Stop α
  stop : ℕ
  calls : List Call

def Reader (α : Type) := (cursor : ℕ) → Outcome α

namespace Reader

variable {α β : Type}

instance : Monad Reader where
  pure a cursor := ⟨.ok a, cursor, []⟩
  bind x f cursor :=
    let first := x cursor
    match first.answer with
    | .ok a =>
      let next := f a first.stop
      { next with calls := first.calls ++ next.calls }
    | .error why => ⟨.error why, first.stop, first.calls⟩

def position : Reader ℕ := fun cursor => ⟨.ok cursor, cursor, []⟩

def advance (count : ℕ) : Reader Unit := fun cursor => ⟨.ok (), cursor + count, []⟩

def stop (why : Stop) : Reader α := fun cursor => ⟨.error why, cursor, []⟩

def refuse (refusal : DecodeRefusal) : Reader α := stop (.refused refusal)

/-- Runs the body and notes the call, also when the body stops. -/
def call (operation : Operation) (body : Reader α) : Reader α := fun cursor =>
  let o := body cursor
  { o with calls := o.calls ++ [⟨operation, cursor, o.stop, o.answer.isOk⟩] }

section
variable (input : Bytes)

/-- A difference of machine words, which must not fall below zero. -/
def remaining : Reader ℕ := call .remaining do
  let cursor ← position
  if cursor ≤ input.length then return input.length - cursor else stop .outside

def slice (first last : ℕ) : Reader Bytes :=
  if first ≤ last ∧ last ≤ input.length then return (input.take last).drop first
  else stop .outside

def take (count : ℕ) : Reader Bytes := call (.take count) do
  let left ← remaining input
  let cursor ← position
  if left < count then refuse (.cutShort cursor)
  else
    let bytes ← slice input cursor (cursor + count)
    advance count
    return bytes

def finish : Reader Unit := call .finish do
  let left ← remaining input
  if left = 0 then return () else refuse (.trailing (← remaining input))

def octet : Reader UInt8 := do
  match ← take input 1 with
  | b :: _ => return b
  | [] => stop .outside

/-- A number of so many bytes, which are copied into an array of that length. -/
def word (width : ℕ) : Reader ℕ := do
  let digits ← take input width
  if digits.length = width then return Bytes.toNat digits else stop .outside

/-- The least number that a width is for, by the low bits that announce the width. -/
def floor : (info : ℕ) → ℕ
  | 24 => 24
  | 25 => 0x100
  | 26 => 0x10000
  | _ => 0x100000000

/-- The number after an initial byte that stands at `offset`. -/
def argument (offset info : ℕ) : Reader ℕ :=
  if info < 24 then return info
  else match Header.announced? info with
    | none => refuse (if info = 31 then .indefinite offset else .reserved info offset)
    | some width => do
      let n ← word input width
      if n < floor info then refuse (.notShortest offset) else return n

def header : Reader (Major × ℕ) := call .header do
  let offset ← position
  let initial ← octet input
  let n ← argument input offset (initial.toNat % 32)
  return (Major.ofInitial initial, n)

variable (guarded : Bool)

/-- The count itself. With the guard, one that the input cannot hold is refused. The product may be
taken exactly: a word saturates above the length of every input. -/
def count (arg least : ℕ) : Reader ℕ := call (.count arg least) do
  if guarded then
    if arg * least ≤ (← remaining input) then return arg
    else refuse (.lengthExceedsInput arg (← position))
  else return arg

/-- The items of an array, whose first is the one after `index` others from `start`. -/
def items (one : Reader Value) (start : ℕ) : (index count : ℕ) → Reader (List Value)
  | _, 0 => return []
  | index, count + 1 => do
    let item ← call (.turn start index) one
    return item :: (← items one start (index + 1) count)

/-- One entry, and the bytes of its key. -/
def entry (one : Reader Value) (previous : Option Bytes) : Reader ((Value × Value) × Bytes) := do
  let start ← position
  let key ← one
  let keyBytes ← slice input start (← position)
  if mayFollow previous keyBytes then return ((key, ← one), keyBytes)
  else refuse (.keyOrder start)

def entries (one : Reader Value) (start : ℕ) :
    (index count : ℕ) → (previous : Option Bytes) → Reader (List (Value × Value))
  | _, 0, _ => return []
  | index, count + 1, previous => do
    let (first, key) ← call (.turn start index) (entry input one previous)
    return first :: (← entries one start (index + 1) count (some key))

/-- The content after a header; nested values are read by `one`. -/
def content (one : Reader Value) (major : Major) (arg : ℕ) : Reader Value :=
  match major with
  | .unsigned => return .unsigned (UInt64.ofNat arg)
  | .bytes => do
    let n ← count input guarded arg 1
    return .bytes (← take input n)
  | .text => do
    let n ← count input guarded arg 1
    match Text.Utf8.decode (← take input n) with
    | .ok text => return .text text
    | .error reason => refuse (.notUtf8 reason)
  | .array => do
    let n ← count input guarded arg 1
    return .array (← items one (← position) 0 n)
  | .map => do
    let n ← count input guarded arg 2
    return .map (← entries input one (← position) 0 n none)
  | .negative => refuse .negativeInteger
  | .tag => refuse .nestedTag
  | .simple => refuse (.unsupportedMajor major.code)

def value (depth : ℕ) : Reader Value := call (.value depth) <|
  if _ : maxDepth < depth then refuse .tooDeep
  else do
    let (major, arg) ← header input
    content input guarded (value (depth + 1)) major arg
termination_by maxDepth + 1 - depth

theorem value_of_too_deep {depth : ℕ} (h : maxDepth < depth) :
    value input guarded depth = call (.value depth) (refuse .tooDeep) := by
  rw [value, dif_pos h]

theorem value_of_le {depth : ℕ} (h : depth ≤ maxDepth) :
    value input guarded depth = call (.value depth) (header input >>= fun r =>
      content input guarded (value input guarded (depth + 1)) r.1 r.2) := by
  rw [value, dif_neg (Nat.not_lt.mpr h)]

def decode : Reader Value := do
  let v ← value input guarded 0
  finish input
  return v

def decodeTagged : Reader (UInt64 × Value) := do
  let (major, tag) ← header input
  if major = .tag then
    let v ← value input guarded 0
    finish input
    return (UInt64.ofNat tag, v)
  else refuse (.untagged major.code)

end

/-- From the first cursor the run succeeds with the answer, and leaves the second cursor. -/
def Leads (x : Reader α) (first : ℕ) (a : α) (last : ℕ) : Prop :=
  (x first).answer = .ok a ∧ (x first).stop = last

theorem answer_eq_ok_iff (x : Reader α) (p : ℕ) (a : α) :
    (x p).answer = .ok a ↔ ∃ q, x.Leads p a q := by
  simp [Leads]

section
variable {p q : ℕ} {a : α} {b : β} {x : Reader α}

theorem bind_of_leads {f : α → Reader β} (h : x.Leads p a q) :
    (x >>= f) p = { f a q with calls := (x p).calls ++ (f a q).calls } := by
  obtain ⟨hanswer, rfl⟩ := h
  simp only [bind, hanswer]

theorem bind_of_stop {f : α → Reader β} {why : Stop} (h : (x p).answer = .error why) :
    (x >>= f) p = ⟨.error why, (x p).stop, (x p).calls⟩ := by
  simp only [bind, h]

@[simp] theorem leads_bind {f : α → Reader β} :
    (x >>= f).Leads p b q ↔ ∃ a m, x.Leads p a m ∧ (f a).Leads m b q := by
  constructor
  · intro h
    cases hx : (x p).answer with
    | ok a =>
      have hlead : x.Leads p a (x p).stop := ⟨hx, rfl⟩
      rw [Leads, bind_of_leads hlead] at h
      exact ⟨a, _, hlead, h⟩
    | error why =>
      rw [Leads, bind_of_stop hx] at h
      cases h.1
  · rintro ⟨a, m, hx, hf⟩
    rwa [Leads, bind_of_leads hx]

@[simp] theorem leads_pure {c : α} : (pure c : Reader α).Leads p a q ↔ a = c ∧ q = p := by
  simp [Leads, pure, eq_comm]

@[simp] theorem leads_position {n : ℕ} : position.Leads p n q ↔ n = p ∧ q = p := by
  simp [Leads, position, eq_comm]

@[simp] theorem not_leads_stop {why : Stop} : ¬ (stop why : Reader α).Leads p a q := by
  simp [Leads, stop]

@[simp] theorem not_leads_refuse {refusal : DecodeRefusal} :
    ¬ (refuse refusal : Reader α).Leads p a q :=
  not_leads_stop

@[simp] theorem leads_call {operation : Operation} :
    (call operation x).Leads p a q ↔ x.Leads p a q :=
  Iff.rfl

end

end Reader
end Conformance.Canonical
