import Conformance.Shell.Numeral
/-!
# Arithmetic

Expressions over whole numbers of 64 bits, which wrap around. They are read by
the strength of their operations, and may assign to variables as they go.
-/
namespace Conformance.Shell

inductive Operation
  | multiply
  | divide
  | remainder
  | add
  | subtract
  | shiftLeft
  | shiftRight
  | less
  | greater
  | atMost
  | atLeast
  | equal
  | different
  | and
  | xor
  | or
  deriving DecidableEq

namespace Operation

/-- How strongly an operation holds its operands. -/
def strength : Operation → Nat
  | multiply | divide | remainder => 8
  | add | subtract => 7
  | shiftLeft | shiftRight => 6
  | less | greater | atMost | atLeast => 5
  | equal | different => 4
  | and => 3
  | xor => 2
  | or => 1

def truth (b : Bool) : Int :=
  if b then 1 else 0

/-- The result of an operation; there is none where it divides by zero. -/
def result? (o : Operation) (a b : Int) : Option Int :=
  let bits (f : Nat → Nat → Nat) := some (wrapSigned (f (wrapUnsigned a) (wrapUnsigned b)))
  match o with
  | multiply => some (wrapSigned (a * b))
  | divide => if b = 0 then none else some (wrapSigned (a.tdiv b))
  | remainder => if b = 0 then none else some (a.tmod b)
  | add => some (wrapSigned (a + b))
  | subtract => some (wrapSigned (a - b))
  | shiftLeft => bits fun a b => a <<< (b % 64)
  | shiftRight => some (a >>> (wrapUnsigned b % 64))
  | less => some (truth (a < b))
  | greater => some (truth (b < a))
  | atMost => some (truth (a ≤ b))
  | atLeast => some (truth (b ≤ a))
  | equal => some (truth (a = b))
  | different => some (truth (a ≠ b))
  | and => bits Nat.land
  | xor => bits Nat.xor
  | or => bits Nat.lor

end Operation

inductive Expression
  | number (n : Int)
  | cell (name : Octets)
  | assign (name : Octets) (operation : Option Operation) (value : Expression)
  | negative (operand : Expression)
  | complement (operand : Expression)
  | negation (operand : Expression)
  | binary (operation : Operation) (first second : Expression)
  | both (first second : Expression)
  | either (first second : Expression)
  | choice (condition yes no : Expression)

namespace Expression

inductive Lexeme
  | number (n : Int)
  | name (name : Octets)
  | operation (o : Operation)
  | assign (o : Option Operation)
  | both
  | either
  | mark (c : Char)
  deriving DecidableEq

/-- The marks, each before those it begins with. -/
def symbols : List (String × Lexeme) :=
  [("<<=", .assign (some .shiftLeft)), (">>=", .assign (some .shiftRight)), ("||", .either),
    ("&&", .both), ("==", .operation .equal), ("!=", .operation .different),
    ("<=", .operation .atMost), (">=", .operation .atLeast), ("<<", .operation .shiftLeft),
    (">>", .operation .shiftRight), ("*=", .assign (some .multiply)),
    ("/=", .assign (some .divide)), ("%=", .assign (some .remainder)),
    ("+=", .assign (some .add)), ("-=", .assign (some .subtract)), ("&=", .assign (some .and)),
    ("^=", .assign (some .xor)), ("|=", .assign (some .or)), ("=", .assign none),
    ("*", .operation .multiply), ("/", .operation .divide), ("%", .operation .remainder),
    ("+", .operation .add), ("-", .operation .subtract), ("<", .operation .less),
    (">", .operation .greater), ("&", .operation .and), ("^", .operation .xor),
    ("|", .operation .or)]

/-- The lexeme in front, and how many characters it takes. -/
def lexemeFront (c : Char) (rest : Octets) : Lexeme × Nat :=
  if c.isDigit then
    let (n, after) := Numeral.magnitude (c :: rest)
    (.number (if Word.greatestSigned < n then Word.greatestSigned else n),
      rest.length + 1 - after.length)
  else if isNameStart c then
    let name := (c :: rest).takeWhile isNamePart
    (.name name, name.length)
  else
    match symbols.find? fun (text, _) => text.toList.isPrefixOf (c :: rest) with
    | some (text, lexeme) => (lexeme, text.length)
    | none => (.mark c, 1)

def lexemes : (skip : Nat) → Octets → List Lexeme
  | _, [] => []
  | skip + 1, _ :: rest => lexemes skip rest
  | 0, c :: rest =>
    if isBlank c ∨ c = '\n' then lexemes 0 rest
    else
      let (lexeme, n) := lexemeFront c rest
      lexeme :: lexemes (n - 1) rest

/-- Reads lexemes, or says what was expected instead. -/
abbrev Reading (α : Type) := StateT (List Lexeme) (Except String) α

def expected {α : Type} (what : String) : Reading α :=
  throw ("expecting " ++ what)

mutual

def assignment : (fuel : Nat) → Reading Expression
  | 0 => expected "primary"
  | fuel + 1 => do
    match ← get with
    | .name name :: .assign operation :: rest =>
      set rest
      return .assign name operation (← assignment fuel)
    | _ => choices fuel

def choices : (fuel : Nat) → Reading Expression
  | 0 => expected "primary"
  | fuel + 1 => do
    let condition ← disjunction fuel
    match ← get with
    | .mark '?' :: rest =>
      set rest
      let yes ← assignment fuel
      match ← get with
      | .mark ':' :: rest =>
        set rest
        return .choice condition yes (← choices fuel)
      | _ => expected "':'"
    | _ => return condition

def disjunction : (fuel : Nat) → Reading Expression
  | 0 => expected "primary"
  | fuel + 1 => do
    let first ← conjunction fuel
    match ← get with
    | .either :: rest =>
      set rest
      return .either first (← disjunction fuel)
    | _ => return first

def conjunction : (fuel : Nat) → Reading Expression
  | 0 => expected "primary"
  | fuel + 1 => do
    let operand ← primary fuel
    let first ← operations fuel 0 operand
    match ← get with
    | .both :: rest =>
      set rest
      return .both first (← conjunction fuel)
    | _ => return first

/-- Goes on after a first operand with the operations that are stronger than a bound. -/
def operations : (fuel : Nat) → (bound : Nat) → Expression → Reading Expression
  | 0, _, _ => expected "primary"
  | fuel + 1, bound, first => do
    match ← get with
    | .operation o :: rest =>
      if bound < o.strength then
        set rest
        let operand ← primary fuel
        let second ← operations fuel o.strength operand
        operations fuel bound (.binary o first second)
      else return first
    | _ => return first

def primary : (fuel : Nat) → Reading Expression
  | 0 => expected "primary"
  | fuel + 1 => do
    match ← get with
    | .number n :: rest =>
      set rest
      return .number n
    | .name name :: rest =>
      set rest
      return .cell name
    | .operation .add :: rest =>
      set rest
      primary fuel
    | .operation .subtract :: rest =>
      set rest
      return .negative (← primary fuel)
    | .mark '~' :: rest =>
      set rest
      return .complement (← primary fuel)
    | .mark '!' :: rest =>
      set rest
      return .negation (← primary fuel)
    | .mark '(' :: rest =>
      set rest
      let inner ← assignment fuel
      match ← get with
      | .mark ')' :: rest =>
        set rest
        return inner
      | _ => expected "')'"
    | _ => expected "primary"

end

/-- Reads an expression; every step that does not go deeper takes a lexeme. -/
def read (source : Octets) : Except String Expression :=
  let lexemes := lexemes 0 source
  match (assignment (8 * lexemes.length + 8)).run lexemes with
  | .error refusal => .error refusal
  | .ok (e, []) => .ok e
  | .ok (_, _ :: _) => .error "expecting EOF"

/-- The variables of an expression, and what is done where it has no value. -/
structure Cells (m : Type → Type) where
  read : Octets → m Int
  write : Octets → Int → m Unit
  refuse : String → m Int

variable {m : Type → Type} [Monad m]

def combine (cells : Cells m) (o : Operation) (a b : Int) : m Int :=
  match o.result? a b with
  | some n => pure n
  | none => cells.refuse "division by zero"

def eval (cells : Cells m) : Expression → m Int
  | number n => pure n
  | cell name => cells.read name
  | assign name operation value => do
    let n ← value.eval cells
    let n ← match operation with
      | none => pure n
      | some o => do combine cells o (← cells.read name) n
    cells.write name n
    return n
  | negative operand => do return wrapSigned (-(← operand.eval cells))
  | complement operand => do return -(← operand.eval cells) - 1
  | negation operand => do return Operation.truth ((← operand.eval cells) = 0)
  | binary o first second => do
    let a ← first.eval cells
    combine cells o a (← second.eval cells)
  | both first second => do
    let a ← first.eval cells
    if a = 0 then return 0 else return Operation.truth ((← second.eval cells) ≠ 0)
  | either first second => do
    let a ← first.eval cells
    if a ≠ 0 then return 1 else return Operation.truth ((← second.eval cells) ≠ 0)
  | choice condition yes no => do
    let a ← condition.eval cells
    if a ≠ 0 then yes.eval cells else no.eval cells

end Expression
end Conformance.Shell
