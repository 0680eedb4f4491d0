import Conformance.Shell.Octets
/-!
# Scripts

The commands of a script and the words they are made of. Quotes and escapes are
resolved: what is left of them is whether a part of a word was quoted.
-/
namespace Conformance.Shell

/-- What the operand of a parameter does where the parameter has no value. -/
inductive Absence
  | substitute
  | assign
  | refuse
  deriving DecidableEq

/-- How the value of a parameter is used. An operand may also count an empty value as none. -/
inductive Form
  | value
  | length
  | whenAbsent (orEmpty : Bool) (action : Absence)
  | whenPresent (orEmpty : Bool)
  | trimmed (atStart longest : Bool)
  | malformed
  deriving DecidableEq

inductive Direction
  | read
  | write
  | append
  | update
  | duplicate
  | document
  deriving DecidableEq

structure Redirect (α : Type) where
  descriptor : Nat
  direction : Direction
  target : α

mutual

/-- A part of a word. -/
inductive Part
  | text (content : Octets) (quoted : Bool)
  | parameter (name : Octets) (form : Form) (operand : List Part) (quoted : Bool)
  | output (command : Option Command) (quoted : Bool)
  | arithmetic (expression : List Part) (quoted : Bool)

inductive Command
  | simple (line : Nat) (assignments : List (Octets × List Part)) (words : List (List Part))
      (redirects : List (Redirect (List Part)))
  | pipeline (stages : List Command)
  | negation (command : Command)
  | both (first second : Command)
  | either (first second : Command)
  | sequence (first second : Command)
  | background (command : Command)
  | subshell (body : Option Command)
  | group (body : Option Command)
  | choice (condition yes : Option Command) (no : Option Command)
  | loop (untilTrue : Bool) (condition body : Option Command)
  | each (line : Nat) (name : Octets) (words : Option (List (List Part))) (body : Option Command)
  | select (line : Nat) (subject : List Part)
      (clauses : List (List (List Part) × Option Command))
  | definition (name : Octets) (body : Command)
  | redirected (line : Nat) (command : Command) (redirects : List (Redirect (List Part)))

end

abbrev Word := List Part

/-- The text of a word nothing of which is quoted or replaced. -/
def Word.bare? : Word → Option Octets
  | [] => none
  | [.text content false] => some content
  | _ => none

/-- Whether a part of a word was quoted. -/
def Word.isQuoted (word : Word) : Bool :=
  word.any fun
    | .text _ quoted => quoted
    | _ => false

/-- The text of a word as it was written, where nothing is replaced in it. -/
def Word.plain (word : Word) : Octets :=
  word.flatMap fun
    | .text content _ => content
    | _ => []

/-- Puts neighbouring texts of one kind together. An empty quoted text stays where it stands
alone. -/
def Word.merge : Word → Word
  | [] => []
  | .text content quoted :: rest =>
    match merge rest with
    | .text more quoted' :: others =>
      if quoted = quoted' then .text (content ++ more) quoted :: others
      else .text content quoted :: .text more quoted' :: others
    | others => .text content quoted :: others
  | part :: rest => part :: merge rest

end Conformance.Shell
