import Conformance.Files.Disk
import Conformance.Shell.Numeral
/-!
# Conditions

What `test` decides about its words. The role of a word depends on those after
it: an operator of one operand with nothing to apply to is an operand itself. All
parts of a condition are looked at, even where its value is clear already.
-/
namespace Conformance.Shell.Condition
open Conformance Files

/-- Tests of one word. -/
inductive Check
  | empty
  | nonEmpty
  | terminal
  | present
  | executable
  | file
  | directory
  | device
  | filled
  | never
  deriving DecidableEq

/-- Relations of two words. -/
inductive Relation
  | equal
  | different
  | before
  | after
  | numbers (holds : Ordering → Bool)
  | sameFile
  | never

inductive Role
  | check (c : Check)
  | relation (r : Relation)
  | not
  | and
  | or
  | opening
  | closing
  | operand

def roles : List (String × Role) :=
  [("-r", .check .present), ("-w", .check .present), ("-x", .check .executable),
    ("-e", .check .present), ("-f", .check .file), ("-d", .check .directory),
    ("-c", .check .device), ("-b", .check .never), ("-p", .check .never), ("-u", .check .never),
    ("-g", .check .never), ("-k", .check .never), ("-s", .check .filled), ("-t", .check .terminal),
    ("-z", .check .empty), ("-n", .check .nonEmpty), ("-h", .check .never), ("-O", .check .present),
    ("-G", .check .present), ("-L", .check .never), ("-S", .check .never),
    ("=", .relation .equal), ("!=", .relation .different), ("<", .relation .before),
    (">", .relation .after), ("-eq", .relation (.numbers (· == .eq))),
    ("-ne", .relation (.numbers (· != .eq))), ("-ge", .relation (.numbers (· != .lt))),
    ("-gt", .relation (.numbers (· == .gt))), ("-le", .relation (.numbers (· != .gt))),
    ("-lt", .relation (.numbers (· == .lt))), ("-nt", .relation .never),
    ("-ot", .relation .never), ("-ef", .relation .sameFile), ("!", .not), ("-a", .and),
    ("-o", .or), ("(", .opening), (")", .closing)]

def role? (word : Octets) : Option Role :=
  (roles.find? fun (text, _) => text.toList == word).map (·.2)

def isRelation (word : Octets) : Bool :=
  match role? word with
  | some (.relation _) => true
  | _ => false

/-- The role of the first word, where the words after it are known. -/
def role : List Octets → Role
  | [] => .operand
  | [word] =>
    match role? word with
    | some (.check _) => .operand
    | some .opening => .operand
    | found => found.getD .operand
  | [word, _] => (role? word).getD .operand
  | word :: next :: _ =>
    match role? word with
    | some (.check c) => if isRelation next then .operand else .check c
    | found => found.getD .operand

/-- What is known about files while a condition is decided. -/
structure Surroundings (m : Type → Type) where
  look : Octets → m (Except Refusal Entry)
  isProgram : Octets → Bool
  isSame : Octets → Octets → m Bool

variable {m : Type → Type} [Monad m]

/-- Decides, or says what is wrong with the words. -/
abbrev Deciding (m : Type → Type) (α : Type) := ExceptT Octets m α

def order (a b : Int) : Ordering :=
  if a < b then .lt else if a = b then .eq else .gt

def number (word : Octets) : Deciding m Int :=
  let n := Numeral.decimal word
  if n.found ∧ n.rest.all isSpace ∧ Word.fitsSigned n.value then return n.value
  else throw (Octets.ofString "Illegal number: " ++ word)

def Check.holds (s : Surroundings m) (c : Check) (word : Octets) : Deciding m Bool := do
  match c with
  | .empty => return word.isEmpty
  | .nonEmpty => return !word.isEmpty
  | .never => return false
  | .terminal =>
    let _ ← number word
    return false
  | _ =>
    match ← s.look word with
    | .error _ => return false
    | .ok entry =>
      match c, entry with
      | .present, _ => return true
      | .executable, .directory _ => return true
      | .executable, _ => return s.isProgram word
      | .file, .file _ => return true
      | .directory, .directory _ => return true
      | .device, .device => return true
      | .filled, .file content => return !content.isEmpty
      | .filled, .directory _ => return true
      | _, _ => return false

def Relation.holds (s : Surroundings m) (r : Relation) (first second : Octets) :
    Deciding m Bool := do
  match r with
  | .equal => return first == second
  | .different => return first != second
  | .before => return !second.precedes first
  | .after => return !first.precedes second
  | .numbers holds =>
    let a ← number first
    return holds (order a (← number second))
  | .sameFile => s.isSame first second
  | .never => return false

mutual

/-- Decides a condition of several words. What is returned with its value are the words from the
last one on that belongs to it. -/
def disjunction (s : Surroundings m) : (fuel : Nat) → List Octets →
    Deciding m (Bool × List Octets)
  | 0, words => return (false, words)
  | fuel + 1, words => do
    let (first, place) ← conjunction s fuel words
    match role place.tail with
    | .or =>
      let (second, place) ← disjunction s fuel (place.drop 2)
      return (first || second, place)
    | _ => return (first, place)

def conjunction (s : Surroundings m) : (fuel : Nat) → List Octets →
    Deciding m (Bool × List Octets)
  | 0, words => return (false, words)
  | fuel + 1, words => do
    let (first, place) ← negation s fuel words
    match role place.tail with
    | .and =>
      let (second, place) ← conjunction s fuel (place.drop 2)
      return (first && second, place)
    | _ => return (first, place)

def negation (s : Surroundings m) : (fuel : Nat) → List Octets → Deciding m (Bool × List Octets)
  | 0, words => return (false, words)
  | fuel + 1, words => do
    match role words, words with
    | .not, [_] => return (true, words)
    | .not, _ :: rest =>
      let (value, place) ← negation s fuel rest
      return (!value, place)
    | _, _ => primary s fuel words

def primary (s : Surroundings m) : (fuel : Nat) → List Octets → Deciding m (Bool × List Octets)
  | 0, words => return (false, words)
  | fuel + 1, words => do
    match role words, words with
    | _, [] => return (false, [])
    | .opening, _ :: rest =>
      match role rest with
      | .closing => return (false, rest)
      | _ =>
        let (value, place) ← disjunction s fuel rest
        match role place.tail with
        | .closing => return (value, place.tail)
        | _ => throw (Octets.ofString "closing paren expected")
    | .check c, _ :: word :: rest => return (← c.holds s word, word :: rest)
    | _, _ => operands s words

/-- A word and what it is compared with, or a word alone. -/
def operands (s : Surroundings m) (words : List Octets) : Deciding m (Bool × List Octets) := do
  match role words.tail, words with
  | .relation r, first :: op :: rest =>
    match rest with
    | [] => throw (op ++ Octets.ofString ": argument expected")
    | second :: _ => return (← r.holds s first second, rest)
  | _, _ => return (words.head?.any (!·.isEmpty), words)

end

/-- Reads on to the end, where no more than the last word may be left. -/
def whole (value : Deciding m (Bool × List Octets)) : Deciding m Bool := do
  match ← value with
  | (_, word :: _ :: _) =>
    throw ((if word = [] then [] else word ++ [':', ' ']) ++ Octets.ofString "unexpected operator")
  | (value, _) => return value

def anyLength (s : Surroundings m) (words : List Octets) : Deciding m Bool :=
  whole (disjunction s (4 * words.length + 8) words)

/-- Three or four words in parentheses or after a negation are told apart first. -/
def few (s : Surroundings m) (words : List Octets) (rest : List Octets → Deciding m Bool) :
    Deciding m Bool := do
  if words.head? = some ['('] ∧ words.getLast? = some [')'] then
    anyLength s (words.drop 1).dropLast
  else if words.head? = some ['!'] then return !(← rest words.tail)
  else anyLength s words

/-- Decides words by how many they are: three of them are a comparison if they can be one. -/
def ofWords (s : Surroundings m) (words : List Octets) : Deciding m Bool :=
  match words with
  | [] => return false
  | [_, op, _] => three op words
  | [_, _, op, _] => few s words (three op)
  | _ => anyLength s words
where
  three (op : Octets) (words : List Octets) : Deciding m Bool :=
    if isRelation op then whole (operands s words) else few s words (anyLength s)

end Conformance.Shell.Condition
