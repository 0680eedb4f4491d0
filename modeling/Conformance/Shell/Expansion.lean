import Conformance.Shell.Arithmetic
import Conformance.Shell.Pattern
import Conformance.Shell.Session
/-!
# Expansion

The words of a command as it gets them: parameters, outputs and arithmetic are
replaced, what is not quoted is split where blanks came in, and patterns become
the names of the files that they match.
-/
namespace Conformance.Shell
open Conformance Files

/-- What a word consists of once its parts are replaced. -/
inductive Mark
  | glyph (g : Glyph) (splits : Bool)
  /-- Something quoted stands here, so that a field stays even if it is empty. -/
  | anchor
  /-- One field ends and another one begins; they are joined by a character where no fields are. -/
  | gap (joint : Option Char)
  deriving DecidableEq

namespace Mark

/-- Text of the script itself. -/
def ofText (quoted splits : Bool) (content : Octets) : List Mark :=
  (if quoted then [anchor] else []) ++ content.map fun c => glyph ⟨c, quoted⟩ (splits && !quoted)

/-- A value that came in. -/
def ofValue (quoted : Bool) (value : Octets) : List Mark :=
  ofText quoted true value

/-- Marks as one text, in which no field ends. -/
def glyphs (marks : List Mark) : List Glyph :=
  marks.filterMap fun
    | glyph g _ => some g
    | gap joint => joint.map fun c => ⟨c, true⟩
    | _ => none

def text (marks : List Mark) : Octets :=
  (glyphs marks).map (·.char)

end Mark

/-- Where the splitting of a word stands. -/
inductive Stage
  /-- At the start, or after a character that separates. -/
  | fresh
  /-- After blanks that ended a field. -/
  | blank
  | inside
  deriving DecidableEq

/-- The field that is being put together, and those before it with the last one first. -/
structure Splitting where
  done : List (List Glyph)
  current : List Glyph
  stage : Stage

namespace Splitting

def start : Splitting := ⟨[], [], .fresh⟩

/-- Ends the field that is being put together, if there is one. -/
def close (s : Splitting) (stage : Stage) : Splitting :=
  if s.stage = .inside then ⟨s.current.reverse :: s.done, [], stage⟩ else { s with stage }

def separate (s : Splitting) : Splitting :=
  match s.stage with
  | .inside => s.close .fresh
  | .blank => { s with stage := .fresh }
  | .fresh => { s with done := [] :: s.done }

def add (separators : Octets) (s : Splitting) : Mark → Splitting
  | .glyph g splits =>
    if splits ∧ separators.contains g.char then
      if g.char = ' ' ∨ g.char = '\t' ∨ g.char = '\n' then
        if s.stage = .inside then s.close .blank else s
      else s.separate
    else { s with current := g :: s.current, stage := .inside }
  | .anchor => { s with stage := .inside }
  | .gap _ => s.close .fresh

end Splitting

/-- The fields that a word falls into. -/
def fieldsOf (separators : Octets) (marks : List Mark) : List (List Glyph) :=
  ((marks.foldl (Splitting.add separators) .start).close .fresh).done.reverse

namespace Run
variable {m : Type → Type} [Monad m]

/-- The characters that separate fields. -/
def separators : Run m Octets := do
  return (← value? "IFS".toList).getD [' ', '\t', '\n']

/-- What joins the parameters where they become one text. -/
def joint : Run m (Option Char) :=
  return (← separators).head?

/-- The value of a parameter that is not the list of all of them. -/
def parameter? (name : Octets) : Run m (Option Octets) := do
  let p ← process
  match name with
  | ['?'] => return some (decimalOf p.status)
  | ['#'] => return some (decimalOf p.parameters.length)
  | ['$'] => return some (decimalOf p.pid)
  | ['-'] => return some ((flagNames.map (·.1)).filter p.flags.contains)
  | ['!'] =>
    return p.lastJob.map fun n => decimalOf n
  | _ =>
    match natural? name with
    | some 0 => return some p.name
    | some n => return p.parameters[n - 1]?
    | none => value? name

def isList (name : Octets) : Bool :=
  name == ['@'] || name == ['*']

/-- The list of all parameters, as separate fields where it may be. -/
def listMarks (name : Octets) (quoted : Bool) : Run m (List Mark) := do
  let p ← process
  let joint ← joint
  if quoted ∧ name = ['*'] then
    return Mark.ofValue true ((joint.toList).intercalate p.parameters)
  else
    let gap := Mark.gap (if name = ['*'] then joint else some ' ')
    return [gap].intercalate (p.parameters.map (Mark.ofValue quoted))

/-- The whole value of a parameter, where there is one. -/
def wholeValue? (name : Octets) : Run m (Option Octets) := do
  if isList name then
    let p ← process
    if p.parameters = [] then return none
    else return some (Mark.text (← listMarks name false))
  else parameter? name

/-- The value of a parameter that has to be set where absent ones are refused. -/
def required (name : Octets) : Run m Octets := do
  match ← wholeValue? name with
  | some value => return value
  | none =>
    let p ← process
    if p.flags.contains 'u' ∧ ¬ isList name then
      refuse (name ++ Octets.ofString ": parameter not set")
    else return []

/-- Assigns the value that a parameter has where it had none. -/
def assignAbsent (name value : Octets) : Run m Unit := do
  if isName name then setVariable name value
  else refuse (name ++ Octets.ofString ": bad variable name")

def refuseAbsent (orEmpty : Bool) (name reason : Octets) : Run m (List Mark) :=
  let reason := if reason ≠ [] then reason
    else Octets.ofString (if orEmpty then "parameter not set or null" else "parameter not set")
  refuse (name ++ Octets.ofString ": " ++ reason)

def readCell (name : Octets) : Run m Int := do
  let word := (← value? name).getD []
  let n := Numeral.front word
  if word = [] then return 0
  else if n.found ∧ n.rest.all isSpace ∧ Word.fitsSigned n.value then return n.value
  else refuse (Octets.ofString "Illegal number: " ++ word)

def refuseExpression {α : Type} (source : Octets) (reason : String) : Run m α :=
  refuse (Octets.ofString s!"arithmetic expression: {reason}: \"" ++ source ++ ['"'])

def evaluate (source : Octets) : Run m Octets := do
  match Expression.read source with
  | .error reason => refuseExpression source reason
  | .ok e =>
    let n ← e.eval ⟨readCell, fun name n => setVariable name (decimalOf n), refuseExpression source⟩
    return decimalOf n

/-- Whether a parameter counts as absent for a form. -/
def isAbsent (orEmpty : Bool) (value : Option Octets) : Bool :=
  match value with
  | none => true
  | some value => orEmpty && value.isEmpty

mutual

/-- The marks of a part, where a command is run for its output. Text in the operand of a parameter
is split like a value. -/
def marksOfPart (output : Option Command → Run m Octets) (splits : Bool) : Part → Run m (List Mark)
  | .text content quoted => return Mark.ofText quoted splits content
  | .parameter name form operand quoted => do
    let all (isQuoted : Bool) : Run m (List Mark) := do
      if isList name then listMarks name isQuoted
      else return Mark.ofValue isQuoted (← required name)
    match form with
    | .value => all quoted
    | .length => do
      if isList name then
        return Mark.ofValue quoted (decimalOf (← process).parameters.length)
      else return Mark.ofValue quoted (decimalOf (← required name).length)
    | .whenAbsent orEmpty action => do
      if ¬ isAbsent orEmpty (← wholeValue? name) then all quoted
      else
        let marks ← marksOfParts output (!quoted) operand
        match action with
        | .substitute => return marks
        | .assign => do
          let value := Mark.text marks
          assignAbsent name value
          return Mark.ofValue quoted value
        | .refuse => refuseAbsent orEmpty name (Mark.text marks)
    | .whenPresent orEmpty => do
      if isAbsent orEmpty (← wholeValue? name) then return []
      else marksOfParts output (!quoted) operand
    | .trimmed atStart longest => do
      let value ← required name
      let pattern := Pattern.ofGlyphs (Mark.glyphs (← marksOfParts output false operand))
      return Mark.ofValue quoted
        (if atStart then pattern.trimStart longest value else pattern.trimEnd longest value)
    | .malformed => refuse (Octets.ofString "Bad substitution")
  | .output command quoted => do
    return Mark.ofValue quoted (← output command)
  | .arithmetic expression quoted => do
    let source := Mark.text (← marksOfParts output false expression)
    return Mark.ofValue quoted (← evaluate source)

def marksOfParts (output : Option Command → Run m Octets) (splits : Bool) :
    List Part → Run m (List Mark)
  | [] => return []
  | part :: rest => do
    let first ← marksOfPart output splits part
    return first ++ (← marksOfParts output splits rest)

end

/-- A word that is not split. -/
def textOf (output : Option Command → Run m Octets) (word : Word) : Run m Octets :=
  return Mark.text (← marksOfParts output false word)

def patternOf (output : Option Command → Run m Octets) (word : Word) : Run m Pattern :=
  return Pattern.ofGlyphs (Mark.glyphs (← marksOfParts output false word))

/-- The names in a directory that a pattern matches. Those that start with a dot have to be asked
for. -/
def namesLike (directory : Octets) (pattern : Pattern) : Run m (List Octets) := do
  match ← look (← pathOf (if directory = [] then ['.'] else directory)) with
  | .ok (.directory names) =>
    let names := (names.map Octets.ofString) ++ [['.'], ['.', '.']]
    let found := names.filter fun name =>
      pattern.accepts name && (name.head? != some '.' || pattern.head? == some (.octet '.'))
    return found.mergeSort Octets.precedes
  | _ => return []

def isDirectory (path : Octets) : Run m Bool := do
  match ← look (← pathOf path) with
  | .ok (.directory _) => return true
  | _ => return false

/-- The files that match part by part, below a directory. -/
def filesLike : (parts : List (List Glyph)) → (directory : Octets) → Run m (List Octets)
  | [], _ => return []
  | [part], directory => do
    let pattern := Pattern.ofGlyphs part
    if pattern.isOpen then
      return (← namesLike directory pattern).map (directory ++ ·)
    else
      let path := directory ++ part.map (·.char)
      match ← look (← pathOf path) with
      | .ok _ => return [path]
      | .error _ => return []
  | part :: rest, directory => do
    let pattern := Pattern.ofGlyphs part
    if pattern.isOpen then
      let names ← namesLike directory pattern
      let found ← names.filterM fun name => isDirectory (directory ++ name)
      let lists ← found.mapM fun name => filesLike rest (directory ++ name ++ ['/'])
      return lists.flatten
    else filesLike rest (directory ++ part.map (·.char) ++ ['/'])

/-- Splits at slashes. -/
def pathParts : List Glyph → List (List Glyph)
  | [] => [[]]
  | g :: rest =>
    match pathParts rest with
    | [] => [[g]]
    | part :: parts => if g.char = '/' then [] :: part :: parts else (g :: part) :: parts

/-- A field as a word, or as the files it matches. -/
def wordsOfField (field : List Glyph) : Run m (List Octets) := do
  let word := field.map (·.char)
  if (← process).flags.contains 'f' ∨ ¬ (Pattern.ofGlyphs field).isOpen then return [word]
  else
    let found ← filesLike (pathParts field) []
    return if found = [] then [word] else found

/-- The words that a word of a script becomes. -/
def wordsOf (output : Option Command → Run m Octets) (word : Word) : Run m (List Octets) := do
  let fields := fieldsOf (← separators) (← marksOfParts output false word)
  let words ← fields.mapM wordsOfField
  return words.flatten

end Run
end Conformance.Shell
