import Conformance.Shell.Condition
import Conformance.Shell.Expansion
import Conformance.Shell.Programs
/-!
# Commands of the shell itself

What a shell does without another program, as far as no other command is run for
it. A complaint ends such a command; what it ends besides is up to its caller.
-/
namespace Conformance.Shell
open Conformance Files

inductive Builtin
  | condition
  | cd
  | echo
  | exit
  | export
  | fail
  | kill
  | local
  | printf
  | read
  | readOnly
  | return
  | set
  | shift
  | succeed
  | trap
  | unset
  | wait
  | workingDirectory
  | break
  | continue
  deriving DecidableEq

namespace Builtin

def named : List (String × Builtin) :=
  [(":", succeed), ("[", condition), ("alias", succeed), ("break", «break»), ("cd", cd),
    ("chdir", cd), ("continue", «continue»), ("echo", echo), ("exit", exit), ("export", «export»),
    ("false", fail), ("hash", succeed), ("jobs", succeed), ("kill", kill),
    ("local", «local»), ("printf", printf), ("pwd", workingDirectory), ("read", read),
    ("readonly", readOnly), ("return", «return»),
    ("set", set), ("shift", shift), ("test", condition), ("trap", trap), ("true", succeed),
    ("unset", unset), ("wait", wait)]

end Builtin

/-- The runs of quotes and of other characters in a text, of which each one stands on its own. -/
def quoteRuns : Octets → List Octets
  | [] => []
  | c :: rest =>
    match quoteRuns rest with
    | run :: runs =>
      if (c == '\'') == (run.head? == some '\'') then (c :: run) :: runs else [c] :: run :: runs
    | [] => [[c]]

/-- Puts a text between quotes, and the quotes in it between quotes of the other kind. -/
def quotedText (text : Octets) : Octets :=
  let runs := quoteRuns text
  let runs := if (runs.head?.bind List.head?).all (· == '\'') then [] :: runs else runs
  runs.flatMap fun run =>
    let quote := if run.head? = some '\'' then '"' else '\''
    quote :: run ++ [quote]

namespace Run
variable {m : Type → Type} [Monad m]

/-- Writes the output of a command, and complains where it cannot. -/
def print (octets : Octets) (status : Nat) : Run m Nat := do
  if ← write 1 octets then return status
  else
    let p ← process
    complain (p.command.getD [] ++ Octets.ofString ": I/O error")
    return 1

/-- The words after the options, whose letters are given. -/
def dropOptions (letters : List Char) : List Octets → Run m (List Char × List Octets)
  | [] => return ([], [])
  | word :: rest => do
    if word = ['-', '-'] then return ([], rest)
    else if word.head? = some '-' ∧ 1 < word.length then
      match word.tail.find? (!letters.contains ·) with
      | some c => refuse (Octets.ofString "Illegal option -" ++ [c])
      | none =>
        let (found, rest) ← dropOptions letters rest
        return (word.tail ++ found, rest)
    else return ([], word :: rest)

def printFormat (words : List Octets) : Run m Nat := do
  let (_, words) ← dropOptions [] words
  match words with
  | [] => refuse (Octets.ofString "usage: printf format [arg ...]")
  | format :: words =>
    let sheet := Shell.printf format words
    for complaint in sheet.complaints do
      complain complaint
    print sheet.output sheet.status

def decide (words : List Octets) : Run m Nat := do
  let p ← process
  let words ←
    if p.command ≠ some ['['] then pure words
    else if words.getLast? = some [']'] then pure words.dropLast
    else refuse (Octets.ofString "missing ]")
  let surroundings : Condition.Surroundings (Run m) :=
    { look := fun word => do look (← pathOf word)
      isProgram := fun word =>
        (Program.ofPath? (Path.join p.directory (Octets.text word))).isSome
      isSame := fun a b => return a == b }
  match ← (Condition.ofWords surroundings words).run with
  | .ok value => return if value then 0 else 1
  | .error detail => refuse detail

/-- Steps up and stays where a path says so, without looking at any file. -/
def tidyPath (path : String) : String :=
  let parts := (Path.parts path).foldl (fun parts part =>
    if Path.isIdle part then parts
    else if part = ".." then parts.dropLast
    else parts ++ [part]) []
  "/" ++ String.intercalate "/" parts

def changeDirectory (words : List Octets) : Run m Nat := do
  let (_, words) ← dropOptions ['L', 'P'] words
  let before ← value "PWD"
  let target ← match words with
    | [] => value "HOME"
    | ['-'] :: _ => value "OLDPWD"
    | word :: _ => pure word
  if target = [] then return 0
  let path ← pathOf target
  match ← look path with
  | .ok (.directory _) =>
    let after := tidyPath (Path.join (Octets.text before) (Octets.text target))
    change fun p => { p with directory := path }
    setVariable "OLDPWD".toList before
    setVariable "PWD".toList (Octets.ofString after)
    if words.head? = some ['-'] then print (Octets.ofString after ++ ['\n']) 0 else return 0
  | _ => refuse (Octets.ofString "can't cd to " ++ target)

/-- A name and the value that is assigned to it, if any. -/
def splitAssignment (word : Octets) : Octets × Option Octets :=
  let name := word.takeWhile (· ≠ '=')
  (name, if name.length < word.length then some (word.drop (name.length + 1)) else none)

def declareOne (mark : Variable → Variable) (word : Octets) : Run m Unit := do
  let (name, value) := splitAssignment word
  if ¬ isName name then refuse (name ++ Octets.ofString ": bad variable name")
  match value with
  | some value => setVariable name value
  | none => pure ()
  putVariable name (some (mark ((← cell? name).getD .new)))

/-- Marks variables; without any, shows those that are marked. -/
def declare (shows : Variable → Bool) (mark : Variable → Variable) (words : List Octets) :
    Run m Nat := do
  let p ← process
  let (options, words) ← dropOptions ['p'] words
  if options ≠ [] ∨ words = [] then
    let marked := (p.bindings.filter fun (_, v) => shows v).mergeSort (Octets.precedes ·.1 ·.1)
    let lines := marked.map fun (name, v) =>
      let assigned := match v.value with
        | some value => '=' :: quotedText value
        | none => []
      p.command.getD [] ++ [' '] ++ name ++ assigned ++ ['\n']
    print lines.flatten 0
  else
    for word in words do
      declareOne mark word
    return 0

/-- Hides variables until the function ends that is being run. -/
def declareLocal (words : List Octets) : Run m Nat := do
  for word in words do
    let (name, value) := splitAssignment word
    let p ← process
    match p.hidden with
    | [] => refuse (Octets.ofString "not in a function")
    | hidden :: others =>
      if (hidden.lookup name).isNone then
        let outer ← cell? name
        change fun p => { p with hidden := ((name, outer) :: hidden) :: others }
      match value with
      | some value => setVariable name value
      | none => if (← cell? name).isNone then putVariable name (some .new)
  if (← process).hidden = [] then refuse (Octets.ofString "not in a function")
  return 0

def unset (words : List Octets) : Run m Nat := do
  let (options, names) ← dropOptions ['f', 'v'] words
  for name in names do
    if options.getLast? = some 'f' then
      change fun p => { p with functions := p.functions.filter (·.1 ≠ name) }
    else
      let v := (← cell? name).getD .new
      if v.isReadOnly then refuse (name ++ Octets.ofString ": is read only")
      putVariable name none
  return 0

def setFlag (isOn : Bool) (flag : Char) : Run m Unit := do
  if (flagNames.lookup flag).isNone then refuse (Octets.ofString "Illegal option -" ++ [flag])
  change fun p =>
    let others := p.flags.filter (· ≠ flag)
    { p with flags := if isOn then flag :: others else others }

def setNamedFlag (isOn : Bool) (name : Octets) : Run m Unit := do
  match flagNames.find? fun (_, other) => other.toList == name with
  | some (flag, _) => setFlag isOn flag
  | none => refuse (Octets.ofString "Illegal option -o " ++ name)

/-- Sets the flags in front of the words. What is returned are the words after them, and whether
they are parameters even if there are none. -/
def setFlags : List Octets → Run m (Bool × List Octets)
  | [] => return (false, [])
  | ['-'] :: rest => do
    change fun p => { p with flags := p.flags.filter fun c => c ≠ 'x' ∧ c ≠ 'v' }
    return (false, rest)
  | ['-', '-'] :: rest => return (true, rest)
  | (c :: letters) :: rest => do
    if c = '-' ∨ c = '+' then
      for letter in letters.filter (· ≠ 'o') do
        setFlag (c == '-') letter
      match letters.contains 'o', rest with
      | true, name :: rest =>
        setNamedFlag (c == '-') name
        setFlags rest
      | _, rest => setFlags rest
    else return (false, (c :: letters) :: rest)
  | [] :: rest => return (false, [] :: rest)

def setParameters (words : List Octets) : Run m Nat := do
  let (always, parameters) ← setFlags words
  if always ∨ parameters ≠ [] then change fun p => { p with parameters }
  return 0

def shift (words : List Octets) : Run m Nat := do
  let n ← match words with
    | [] => pure 1
    | word :: _ => numberOf word
  let p ← process
  if p.parameters.length < n then refuse (Octets.ofString "can't shift that many")
  change fun p => { p with parameters := p.parameters.drop n }
  return 0

/-- A line in front: its characters, each with whether it was escaped, how many octets it takes,
and whether a newline ends it. -/
def lineFront (raw : Bool) : (skip : Nat) → Octets → List (Char × Bool) × Nat × Bool
  | _, [] => ([], 0, false)
  | skip + 1, _ :: rest =>
    let (line, n, ended) := lineFront raw skip rest
    (line, n + 1, ended)
  | 0, '\n' :: _ => ([], 1, true)
  | 0, c :: rest =>
    match raw, c, rest with
    | false, '\\', d :: _ =>
      let (line, n, ended) := lineFront raw 1 rest
      (if d = '\n' then line else (d, true) :: line, n + 1, ended)
    | _, _, _ =>
      let (line, n, ended) := lineFront raw 0 rest
      ((c, false) :: line, n + 1, ended)

def isLineBlank (c : Char) : Bool :=
  isBlank c || c == '\n'

/-- The first field of a line, and the line after what separates it from the next one. -/
def fieldFront (separators : Octets) (line : List (Char × Bool)) :
    List (Char × Bool) × List (Char × Bool) :=
  let separates (c : Char × Bool) := !c.2 && separators.contains c.1
  let isSpace (c : Char × Bool) := separates c && isLineBlank c.1
  let field := line.takeWhile (!separates ·)
  let rest := (line.drop field.length).dropWhile isSpace
  match rest with
  | c :: after => (field, if separates c then after.dropWhile isSpace else rest)
  | [] => (field, [])

/-- Removes blanks from the end of a line, together with escaped characters that follow them to
the end. -/
def trimLine (isSpace : Char × Bool → Bool) (line : List (Char × Bool)) : List (Char × Bool) :=
  let before := line.reverse.dropWhile (·.2)
  let kept := before.dropWhile isSpace
  if kept.length < before.length then kept.reverse else line

/-- The fields of a line for so many names, the last of which takes all that is left. -/
def lineFields (separators : Octets) : (names : Nat) → List (Char × Bool) → List Octets
  | 0, _ => []
  | 1, line =>
    let isSpace (c : Char × Bool) := !c.2 && separators.contains c.1 && isLineBlank c.1
    let (field, after) := fieldFront separators line
    let last := if after = [] then field else trimLine isSpace line
    [last.map (·.1)]
  | n + 1, line =>
    let (field, after) := fieldFront separators line
    field.map (·.1) :: lineFields separators n after

def readLine (words : List Octets) : Run m Nat := do
  let (options, names) ← dropOptions ['r', 'p'] words
  let names := if options.contains 'p' then names.tail else names
  if names = [] then refuse (Octets.ofString "arg count")
  match names.find? (!isName ·) with
  | some name => refuse (name ++ Octets.ofString ": bad variable name")
  | none =>
    match ← channelOf? 0 with
    | none => return 1
    | some n =>
      let content := match ← pending n with
        | .ok content => content
        | .error _ => []
      let (line, count, ended) := lineFront (options.contains 'r') 0 content
      let line := line.filter (·.1 ≠ '\x00')
      consume n count
      let separators ← separators
      let isSpace (c : Char × Bool) := !c.2 && separators.contains c.1 && isLineBlank c.1
      let fields := lineFields separators names.length (line.dropWhile isSpace)
      for (name, field) in names.zip fields do
        setVariable name field
      return if ended then 0 else 1

/-- The status that a command is left with, that of the command before if none is stated. -/
def statusOf (words : List Octets) : Run m Nat := do
  match words with
  | [] => return (← process).status
  | word :: _ => numberOf word

/-- How many loops a jump leaves. -/
def loopsOf (words : List Octets) : Run m Nat := do
  match words with
  | [] => return 1
  | word :: _ =>
    let n ← numberOf word
    if n = 0 then refuse (Octets.ofString "Illegal number: " ++ word) else return n

def leaveLoops (jumpTo : Nat → Jump) (words : List Octets) : Run m Nat := do
  let n ← loopsOf words
  let p ← process
  if p.loops = 0 then return 0 else jump (jumpTo (if p.loops < n then p.loops else n))

def usage : String :=
  "Usage: kill [-s sigspec | -signum | -sigspec] [pid | job]... or\nkill -l [exitstatus]"

def jobOf? (word : Octets) : Run m (Option Nat) := do
  let s ← get
  match word with
  | '%' :: rest =>
    let n := (natural? rest).getD s.jobs.length
    return if 1 ≤ n ∧ n ≤ s.jobs.length then some (n - 1) else none
  | _ => return (natural? word).bind fun pid => s.jobs.findIdx? (·.pid == pid)

/-- Ends a job by a signal, which cuts off what it would have written later. -/
def endJob (n signal : Nat) : Run m Bool := do
  let s ← get
  match s.jobs[n]? with
  | none => return false
  | some job =>
    if job.ends ≤ s.clock then return !job.isCollected
    else if signal = 0 ∨ Signal.isHarmless signal then return true
    else
      let ended := { job with ends := s.clock, ending := .signalled signal }
      set { s with
        jobs := s.jobs.set n ended, channels := s.channels.map (Channel.cut (n + 1) s.clock) }
      return true

/-- Sends a signal to a process, unless there is none. Jobs and groups are no processes. -/
def send (signal : Nat) (word : Octets) : Run m Bool := do
  match ← jobOf? word, word with
  | some _, '%' :: _ => return false
  | some n, _ => endJob n signal
  | none, '%' :: _ => refuse (Octets.ofString "No such job: " ++ word)
  | none, '-' :: rest =>
    let _ ← numberOf rest
    return false
  | none, _ =>
    let pid ← numberOf word
    let p ← process
    if pid = p.pid ∨ p.ancestors.contains pid then
      if signal ≠ 0 then modify fun s => { s with signals := s.signals ++ [(pid, signal)] }
      return true
    else return false

/-- The options of `kill`: the signal, whether signals are listed, and the words after them. -/
def killOptions (words : List Octets) : Run m (Option Nat × Bool × List Octets) := do
  match words with
  | ('-' :: name) :: rest =>
    match Signal.ofWord? name with
    | some n => return (some n, false, rest)
    | none =>
      match name, rest with
      | ['-'], rest => return (none, false, rest)
      | ['l'], rest =>
        let (_, rest) ← dropOptions [] rest
        return (none, true, rest)
      | ['s'], [] => refuse (Octets.ofString "No arg for -s option")
      | ['s'], word :: rest =>
        match Signal.ofWord? word with
        | some n =>
          let (_, rest) ← dropOptions [] rest
          return (some n, false, rest)
        | none => refuse (Octets.ofString "invalid signal number or name: " ++ word)
      | 's' :: word, rest =>
        match Signal.ofWord? word with
        | some n => return (some n, false, rest)
        | none => refuse (Octets.ofString "invalid signal number or name: " ++ word)
      | c :: _, _ => refuse (Octets.ofString "Illegal option -" ++ [c])
      | [], _ => refuse (Octets.ofString usage)
  | words => return (none, false, words)

def listSignals (words : List Octets) : Run m Nat := do
  match words with
  | [] => print ((Signal.all.map fun n => Octets.ofString (Signal.name n ++ "\n")).flatten) 0
  | word :: _ =>
    let n ← numberOf word
    let signal := if 128 < n then n - 128 else n
    if 0 < signal ∧ signal ≤ Signal.greatest then
      print (Octets.ofString (Signal.name signal ++ "\n")) 0
    else refuse (Octets.ofString "invalid signal number or exit status: " ++ word)

def kill (words : List Octets) : Run m Nat := do
  let (signal, lists, words) ← killOptions words
  if lists then listSignals words
  else if words = [] then refuse (Octets.ofString usage)
  else
    let mut status := 0
    for word in words do
      if ¬ (← send (signal.getD Signal.terminate) word) then
        complain (Octets.ofString "No such process\n")
        status := 1
    return status

/-- Waits for one job, and says how it ended. -/
def waitFor (word : Octets) : Run m Nat := do
  match ← jobOf? word with
  | none =>
    if word.head? = some '%' then refuse (Octets.ofString "No such job: " ++ word)
    let _ ← numberOf word
    return 127
  | some n =>
    let s ← get
    match s.jobs[n]? with
    | none => return 127
    | some job =>
      if job.isCollected then return 127
      set { s with
        clock := if s.clock < job.ends then job.ends else s.clock
        jobs := s.jobs.set n { job with isCollected := true } }
      match job.ending with
      | .signalled signal =>
        if Signal.description signal ≠ "" then
          let _ ← write 2 (Octets.ofString (Signal.description signal ++ "\n"))
      | .exited _ => pure ()
      return job.ending.status

def wait (words : List Octets) : Run m Nat := do
  let (_, words) ← dropOptions [] words
  if words = [] then
    modify fun s =>
      { s with
        clock := s.jobs.foldl
          (fun clock job => if clock < job.ends then job.ends else clock) s.clock
        jobs := s.jobs.map fun job => { job with isCollected := true } }
    return 0
  else
    let mut status := 0
    for word in words do
      status ← waitFor word
    return status

def trapName (n : Nat) : String :=
  if n = 0 then "EXIT" else Signal.name n

def trapOf? (word : Octets) : Option Nat :=
  if word.map Char.toUpper = "EXIT".toList then some 0 else Signal.ofWord? word

def showTraps : Run m Nat := do
  let p ← process
  let lines := (p.traps.mergeSort (·.1 ≤ ·.1)).map fun (n, action) =>
    Octets.ofString "trap -- " ++ quotedText action ++ Octets.ofString (" " ++ trapName n ++ "\n")
  print lines.flatten 0

/-- Sets what is done at some signals; nothing or a dash takes it back. -/
def setTraps (action : Option Octets) : List Octets → Run m Nat
  | [] => return 0
  | word :: rest => do
    match trapOf? word with
    | none =>
      let _ ← write 2 (Octets.ofString "trap: " ++ word ++ Octets.ofString ": bad trap\n")
      return 1
    | some n =>
      change fun p =>
        let others := p.traps.filter (·.1 ≠ n)
        { p with traps := match action with
            | some action => (n, action) :: others
            | none => others }
      setTraps action rest

def trap (words : List Octets) : Run m Nat := do
  let (_, words) ← dropOptions [] words
  match words with
  | [] => showTraps
  | [word] => setTraps none [word]
  | first :: rest =>
    if first = ['-'] then setTraps none rest
    else if (natural? first).isSome then setTraps none words
    else setTraps (some first) rest

def builtin (b : Builtin) (words : List Octets) : Run m Nat := do
  match b with
  | .condition => decide words
  | .cd => changeDirectory words
  | .echo => print (Shell.echo words) 0
  | .exit => jump (.leave ((← statusOf words) % 256))
  | .export => declare (·.isExported) (fun v => { v with isExported := true }) words
  | .fail => return 1
  | .kill => kill words
  | .local => declareLocal words
  | .printf => printFormat words
  | .read => readLine words
  | .readOnly => declare (·.isReadOnly) (fun v => { v with isReadOnly := true }) words
  | .return => jump (.back ((← statusOf words) % 256))
  | .set => setParameters words
  | .shift => shift words
  | .succeed => return 0
  | .trap => trap words
  | .unset => unset words
  | .wait => wait words
  | .workingDirectory => do
    print ((← value "PWD") ++ ['\n']) 0
  | .break => leaveLoops .out words
  | .continue => leaveLoops .again words

end Run
end Conformance.Shell
