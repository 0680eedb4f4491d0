import Conformance.Shell.Printing
import Conformance.Shell.Session
/-!
# Programs

The programs that commands can name besides what the shell does itself. They
speak in the name that they are called by.
-/
namespace Conformance.Shell
open Conformance Files

inductive Program
  | cat
  | echo
  | printf
  | sleep
  | succeed
  | fail
  | shell
  deriving DecidableEq

namespace Program

def named : List (String × Program) :=
  [("cat", cat), ("dash", shell), ("echo", echo), ("false", fail), ("printf", printf),
    ("sh", shell), ("sleep", sleep), ("true", succeed)]

/-- The program in a file of a directory of programs. -/
def ofPath? (path : String) : Option Program :=
  match (Path.parts path).filter (!Path.isIdle ·) with
  | ["bin", name] => if Path.isAbsolute path then named.lookup name else none
  | ["usr", "bin", name] => if Path.isAbsolute path then named.lookup name else none
  | _ => none

/-- Where programs are looked for unless something else is said. -/
def searchPath : String := "/usr/local/sbin:/usr/local/bin:/usr/sbin:/usr/bin:/sbin:/bin"

end Program

/-- How the lines of files are shown. -/
structure View where
  numbersAll : Bool
  numbersFilled : Bool
  ends : Bool
  tabs : Bool
  controls : Bool
  squeezes : Bool

namespace View

def plain : View := ⟨false, false, false, false, false, false⟩

def add? (v : View) : Char → Option View
  | 'A' => some { v with ends := true, tabs := true, controls := true }
  | 'b' => some { v with numbersFilled := true }
  | 'e' => some { v with ends := true, controls := true }
  | 'E' => some { v with ends := true }
  | 'n' => some { v with numbersAll := true }
  | 's' => some { v with squeezes := true }
  | 't' => some { v with tabs := true, controls := true }
  | 'T' => some { v with tabs := true }
  | 'u' => some v
  | 'v' => some { v with controls := true }
  | _ => none

def longNames : List (String × Char) :=
  [("--show-all", 'A'), ("--number-nonblank", 'b'), ("--show-ends", 'E'), ("--number", 'n'),
    ("--squeeze-blank", 's'), ("--show-tabs", 'T'), ("--show-nonprinting", 'v')]

/-- Adds the options of a word, or says what is wrong with it. -/
def addWord (v : View) (word : Octets) : Except String View :=
  if "--".toList.isPrefixOf word then
    match (longNames.find? fun (name, _) => name.toList == word).bind fun (_, c) => v.add? c with
    | some v => .ok v
    | none => .error s!"unrecognized option '{Octets.text word}'"
  else
    word.tail.foldlM (fun v c =>
      match v.add? c with
      | some v => .ok v
      | none => .error s!"invalid option -- '{Octets.text [c]}'") v

def showChar (v : View) (c : Char) : Octets :=
  let control (n : Nat) : Octets :=
    if n < 32 then ['^', Char.ofNat (n + 64)] else if n = 127 then ['^', '?'] else [Char.ofNat n]
  if c = '\t' then (if v.tabs then ['^', 'I'] else ['\t'])
  else if ¬ v.controls then [c]
  else if c.toNat < 128 then control c.toNat
  else 'M' :: '-' :: control (c.toNat - 128)

/-- Numbers stand in six columns. -/
def numberText (n : Nat) : Octets :=
  let digits := decimalOf n
  List.replicate (6 - digits.length) ' ' ++ digits ++ ['\t']

/-- Shows lines, each with whether a newline ends it, from a number on. -/
def showLines (v : View) (number : Nat) (afterEmpty : Bool) : List (Octets × Bool) → Octets
  | [] => []
  | (line, ended) :: rest =>
    let isEmpty := line.isEmpty && ended
    if v.squeezes ∧ afterEmpty ∧ isEmpty then showLines v number true rest
    else
      let counts := if v.numbersFilled then !isEmpty else v.numbersAll
      let ending := (if v.ends ∧ ended then ['$'] else []) ++ if ended then ['\n'] else []
      (if counts then numberText number else []) ++ line.flatMap v.showChar ++ ending
        ++ showLines v (if counts then number + 1 else number) isEmpty rest

/-- Cuts a content into its lines, each with whether a newline ends it. -/
def lines : Octets → List (Octets × Bool)
  | [] => []
  | '\n' :: rest => ([], true) :: lines rest
  | c :: rest =>
    match lines rest with
    | [] => [([c], false)]
    | (line, ended) :: others =>
      if rest.head? = some '\n' then ([c], true) :: others else (c :: line, ended) :: others

def apply (v : View) (content : Octets) : Octets :=
  v.showLines 1 false (lines content)

end View

/-- Options may stand between the names; after a double dash there are names only. -/
def sortWords (isOption : Octets → Bool) : List Octets → List Octets × List Octets
  | [] => ([], [])
  | word :: rest =>
    if word = ['-', '-'] then ([], rest)
    else
      let (options, names) := sortWords isOption rest
      if isOption word then (word :: options, names) else (options, word :: names)

namespace Run
variable {m : Type → Type} [Monad m]

/-- Says something in the name of a program. -/
def say (program : Octets) (detail : String) : Run m Unit := do
  let _ ← write 2 (program ++ Octets.ofString (": " ++ detail ++ "\n"))

def sayUsage (program : Octets) (details : List String) : Run m Nat := do
  for detail in details do
    say program detail
  let _ ← write 2 (Octets.ofString "Try '" ++ program
    ++ Octets.ofString " --help' for more information.\n")
  return 1

/-- Writes what a program found out, which fails where there is nothing to write to. -/
def finish (program : Octets) (octets : Octets) (status : Nat) : Run m Nat := do
  if ← write 1 octets then return status
  else
    say program "write error: Bad file descriptor"
    return 1

/-- Reads all that is left for a descriptor. -/
def readAll (descriptor : Nat) : Run m (Except String Octets) := do
  match ← channelOf? descriptor with
  | none => return .error "Bad file descriptor"
  | some n =>
    match ← pending n with
    | .error refusal => return .error refusal.reason
    | .ok content =>
      consume n content.length
      return .ok content

/-- The descriptor that a path stands for. -/
def descriptorOf? (path : String) : Option Nat :=
  match path with
  | "/dev/stdin" => some 0
  | "/dev/stdout" => some 1
  | "/dev/stderr" => some 2
  | _ =>
    match Path.parts path with
    | ["", "dev", "fd", n] => natural? n.toList
    | ["", "proc", "self", "fd", n] => natural? n.toList
    | _ => none

/-- The content of a file, of which a dash names the standard input. -/
def contentOf (name : Octets) : Run m (Except String Octets) := do
  if name = ['-'] then readAll 0
  else
    let path ← pathOf name
    match descriptorOf? path with
    | some descriptor => readAll descriptor
    | none =>
      match ← look path with
      | .ok (.file content) => return .ok (Octets.ofBytes content)
      | .ok .device => return .ok []
      | .ok (.directory _) => return .error Refusal.isDirectory.reason
      | .error refusal => return .error refusal.reason

/-- Whether a file would be read while it is written to. -/
def isOutput (path : String) (position : Nat) : Run m Bool := do
  match ← (← channelOf? 1).mapM channel with
  | some (.file other limit _ appends) =>
    if other ≠ path then return false
    match appends, ← look path with
    | true, .ok (.file content) => return position < content.length
    | _, _ => return position < limit
  | _ => return false

/-- Whether what a name stands for is the file that the output goes to. -/
def namesOutput (name : Octets) : Run m Bool := do
  if name = ['-'] then
    match ← (← channelOf? 0).mapM channel with
    | some (.file path position _ _) => isOutput path position
    | _ => return false
  else isOutput (← pathOf name) 0

/-- Shows files one after the other as if they were one, those `before` being shown already. -/
def showFiles (program : Octets) (view : View) (before : Octets) (status : Nat) :
    List Octets → Run m Nat
  | [] => return status
  | name :: rest => do
    let content ← if ← namesOutput name then pure (.error "input file is output file")
      else contentOf name
    match content with
    | .ok content =>
      let shown := (view.apply (before ++ content)).drop (view.apply before).length
      let status ← finish program shown status
      showFiles program view (before ++ content) status rest
    | .error reason =>
      say program (Octets.text name ++ ": " ++ reason)
      showFiles program view before 1 rest

def cat (program : Octets) (words : List Octets) : Run m Nat := do
  let (options, names) := sortWords (fun word => word.head? == some '-' && word != ['-']) words
  match options.foldlM View.addWord .plain with
  | .error reason => sayUsage program [reason]
  | .ok view =>
    if (← channelOf? 1).isNone then
      say program "standard output: Bad file descriptor"
      return 1
    let names := if names = [] then [['-']] else names
    let status ← showFiles program view [] 0 names
    if names.contains ['-'] ∧ (← channelOf? 0).isNone then
      say program "closing standard input: Bad file descriptor"
    return status

/-- How many times a second a unit of time lasts. -/
def unitSeconds? : Octets → Option Float
  | [] => some 1
  | ['s'] => some 1
  | ['m'] => some 60
  | ['h'] => some 3600
  | ['d'] => some 86400
  | _ => none

/-- A length of time in microseconds. -/
def duration? (word : Octets) : Option Nat := do
  let (x, rest, found) := realFront word
  let unit ← unitSeconds? rest
  if found ∧ 0.0 ≤ x then return (x * unit * 1000000.0).toUInt64.toNat else none

def passTime (duration : Nat) : Run m Unit :=
  modify fun s => { s with clock := s.clock + duration }

def sleep (program : Octets) (words : List Octets) : Run m Nat := do
  match words.find? fun word => word.head? == some '-' && 1 < word.length with
  | some word => sayUsage program [s!"invalid option -- '{Octets.text (word.drop 1 |>.take 1)}'"]
  | none =>
    if words = [] then sayUsage program ["missing operand"]
    else
      match words.filter (duration? · |>.isNone) with
      | [] =>
        for word in words do
          passTime ((duration? word).getD 0)
        return 0
      | wrong =>
        sayUsage program (wrong.map fun word => s!"invalid time interval '{Octets.text word}'")

/-- Words printed by a program of its own, where escapes have to be asked for. -/
def echoProgram (program : Octets) (words : List Octets) : Run m Nat := do
  let options := words.takeWhile fun word =>
    word.head? == some '-' && 1 < word.length && word.tail.all ['n', 'e', 'E'].contains
  let letters := options.flatMap List.tail
  let escapes := (letters.filter (· != 'n')).getLast? == some 'e'
  let text := [' '].intercalate (words.drop options.length)
  let (written, goesOn) := if escapes then unescape 0 text else (text, true)
  finish program (if goesOn && !letters.contains 'n' then written ++ ['\n'] else written) 0

def printfProgram (program : Octets) (words : List Octets) : Run m Nat := do
  match (if words.head? = some ['-', '-'] then words.tail else words) with
  | [] => sayUsage program ["missing operand"]
  | format :: words =>
    let sheet := printf format words
    for complaint in sheet.complaints do
      say program (Octets.text complaint)
    finish program sheet.output (if sheet.status = 0 then 0 else 1)

end Run
end Conformance.Shell
