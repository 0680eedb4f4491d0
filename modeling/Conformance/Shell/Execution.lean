import Conformance.Shell.Builtins
import Conformance.Shell.Invocation
import Conformance.Shell.Reader
import Conformance.Shell.Redirection
/-!
# Execution

Runs the commands of a script. The fuel bounds how deep executions are nested, and
how often loops go around; a script that uses it up is taken to go on for ever.
-/
namespace Conformance.Shell
open Conformance Files

/-- Where a command stands. -/
structure Position where
  /-- Its status is looked at, so that it may fail. -/
  isTested : Bool
  /-- Nothing is done after it by its process. -/
  isLast : Bool

namespace Position

def inside : Position := ⟨false, false⟩
def tested : Position := ⟨true, false⟩

def notLast (p : Position) : Position := { p with isLast := false }

end Position

/-- Where the name of a command leads. -/
inductive Callee
  | evaluation
  | file
  | replacement
  | command
  | builtin (b : Builtin)
  | function (body : Command)
  | program

/-- The commands of a shell that run others. -/
def callers : List (String × Callee) :=
  [("eval", .evaluation), (".", .file), ("exec", .replacement), ("command", .command)]

/-- How deep calls of functions may be nested. -/
def maxCalls : Nat := 1000

/-- Commands that take assignments as operands. -/
def declarers : List String :=
  ["export", "local", "readonly"]

/-- Whether a complaint about a command ends the script. -/
def isSpecial (name : Octets) : Bool :=
  Reader.isSpecialName name

/-- A status on the way out of a loop. -/
inductive Round
  | goesOn (status : Nat)
  | ended (status : Nat)

namespace Run
variable {m : Type → Type} [Monad m]

/-- Does something with a changed process, and takes back what it is told to. -/
def during {α : Type} (enter : Process → Process) (leave : (before after : Process) → Process)
    (run : Run m α) : Run m α := do
  let before ← process
  change enter
  let outcome ← attempt run
  change (leave before)
  resume outcome

/-- Does something in the name of a command. -/
def inName {α : Type} (name : Octets) (run : Run m α) : Run m α :=
  during (fun p => { p with command := some name })
    (fun before after => { after with command := before.command, line := before.line }) run

/-- The function or command of the shell that a name stands for, or else a program. -/
def calleeOf (withFunctions : Bool) (name : Octets) : Run m Callee := do
  let p ← process
  let own := (Builtin.named.find? fun (other, _) => other.toList == name).map
    fun (_, b) => Callee.builtin b
  let own := own.or ((callers.find? fun (other, _) => other.toList == name).map (·.2))
  if isSpecial name then return own.getD .program
  else
    match if withFunctions then p.functions.lookup name else none with
    | some body => return .function body
    | none => return own.getD .program

/-- The directories that programs are looked for in. -/
def searchDirectories : Run m (List String) := do
  match ← value? "PATH".toList with
  | none => return []
  | some directories =>
    return ((Octets.text directories).splitOn ":").map fun d => if d = "" then "." else d

/-- The program in the first directory that has it, or whether at least something else is there. -/
def search (name : Octets) : List String → Run m (Except Refusal Program)
  | [] => return .error .missing
  | directory :: rest => do
    let path := Path.join directory (Octets.text name)
    match Program.ofPath? path with
    | some program => return .ok program
    | none =>
      match ← look (if name = [] then directory else path), ← search name rest with
      | _, .ok program => return .ok program
      | .ok _, _ => return .error .denied
      | .error _, .error refusal => return .error refusal

/-- The program that a name leads to, by its path if there are slashes in it. -/
def programOf (name : Octets) : Run m (Except Refusal Program) := do
  if name.contains '/' then
    let path ← pathOf name
    match Program.ofPath? path with
    | some program => return .ok program
    | none =>
      match ← look path with
      | .ok _ => return .error .denied
      | .error refusal => return .error refusal
  else search name (← searchDirectories)

/-- Complains about a name that leads to no program. -/
def noProgram (name : Octets) (refusal : Refusal) : Run m Nat := do
  complain (name ++ Octets.ofString (": " ++ openReason "not found" refusal))
  match refusal with
  | .denied => return if name.contains '/' then 126 else 127
  | _ => return 127

/-- Says how a command ended, unless its process is over with it. -/
def report (pos : Position) : Ending → Run m Nat
  | .exited status => return status
  | .signalled signal => do
    let p ← process
    if pos.isLast ∧ p.isSubshell then jump (.killed signal)
    if Signal.description signal ≠ "" then
      let _ ← write 2 (Octets.ofString (Signal.description signal ++ "\n"))
    return Signal.status signal

/-- The variables of a process that its programs know, too. -/
def exported (p : Process) : List (Octets × Variable) :=
  p.bindings.filterMap fun (name, v) =>
    if v.isExported ∧ v.value.isSome then some (name, { v with isReadOnly := false }) else none

/-- The variables that a new shell sets by itself. -/
def ownBindings (p : Process) : List (Octets × Variable) :=
  [("IFS", [' ', '\t', '\n']), ("OPTIND", ['1']), ("PPID", decimalOf p.pid),
    ("PS2", ['>', ' ']), ("PS4", ['+', ' '])].map fun (name, value) =>
      (name.toList, ⟨some value, false, false⟩)

/-- The process of a new shell. -/
def newShell (i : Invocation) (pid : Nat) (p : Process) : Process :=
  { p with
    pid, isSubshell := false, ancestors := p.pid :: p.ancestors, name := i.name,
    parameters := i.parameters, flags := i.flags, functions := [], hidden := [], loops := 0,
    bindings := exported p ++ ownBindings p,
    traps := p.traps.filter (·.2 = []), status := 0, outputStatus := 0, line := 0, command := none,
    lastJob := none }

def newPid : Run m Nat := do
  let pid := (← get).nextPid
  modify fun s => { s with nextPid := pid + 1 }
  return pid

/-- A signal was sent to this process that ends it at once. -/
def fatalSignal? : Run m (Option Nat) := do
  let p ← process
  if p.isSubshell then return none
  return ((← get).signals.find? fun (pid, signal) =>
    pid = p.pid ∧ ¬ Signal.isHarmless signal
      ∧ (Signal.isFinal signal ∨ (p.traps.lookup signal).isNone)).map (·.2)

/-- Shows a command that is about to run, where it is asked for. -/
def trace (before : Process) (assigned : List (Octets × Octets)) (words : List Octets) :
    Run m Unit := do
  let p ← process
  if p.flags.contains 'x' then
    let assignments := assigned.map fun (name, value) => name ++ '=' :: value
    let line := (← value "PS4") ++ [' '].intercalate (assignments ++ words) ++ ['\n']
    match before.descriptors.lookup 2 with
    | some n =>
      let _ ← writeChannel n line
    | none => pure ()

/-- Assigns values for a command only, so that programs know them. -/
def assignFor (assigned : List (Octets × Octets)) : Run m Unit := do
  for (name, value) in assigned do
    setVariable name value
    putVariable name ((← cell? name).map fun v => { v with isExported := true })

/-- Takes back what was assigned to some names. -/
def takeBack (before : Process) (names : List Octets) : Run m Unit := do
  for name in names do
    putVariable name (before.bindings.lookup name)

/-- The content of a script in a file, whose name may need no path. -/
def scriptOf (name : Octets) : Run m Octets := do
  match ← look (← pathOf name) with
  | .ok (.file content) => return Octets.ofBytes content
  | .ok _ => return []
  | .error refusal => cannotOpen name refusal

/-- What a round of a loop makes of a jump. -/
def round (status : Nat) : Except Jump Nat → Run m Round
  | .ok status => return .goesOn status
  | .error (.out n) => if n ≤ 1 then return .ended 0 else jump (.out (n - 1))
  | .error (.again n) => if n ≤ 1 then return .goesOn status else jump (.again (n - 1))
  | .error j => jump j

/-- Leaves the process after a command that failed, where this is asked for. -/
def checked (pos : Position) (status : Nat) : Run m Nat := do
  let p ← process
  if status ≠ 0 ∧ p.flags.contains 'e' ∧ ¬ pos.isTested then
    change fun p => { p with status }
    jump (.leave status)
  return status

/-- Does something inside of one more loop. -/
def inLoop (body : Run m Nat) : Run m Nat :=
  during (fun p => { p with loops := p.loops + 1 })
    (fun before after => { after with loops := before.loops }) body

/-- Runs a command of the shell. A complaint ends more than the command only where it is special. -/
def ownCommand (special : Bool) (run : Run m Nat) : Run m Nat := do
  match ← attempt run with
  | .ok status => return status
  | .error .failed => if special then jump .failed else return failedStatus
  | .error j => jump j

/-- Says what a name stands for, if anything. -/
def whereIs (name : Octets) : Run m Nat := do
  match ← calleeOf true name with
  | .program =>
    match ← programOf name with
    | .ok _ =>
      let path := if name.contains '/' then name else Octets.ofString "/usr/bin/" ++ name
      print (path ++ ['\n']) 0
    | .error _ => return 127
  | _ => print (name ++ ['\n']) 0

mutual

def perform : (fuel : Nat) → Position → Command → Run m Nat
  | 0, _, _ => jump .endless
  | fuel + 1, pos, c => do
    if (← process).flags.contains 'n' then return 0
    let status ← match c with
      | .simple line assignments words redirects => do
        change fun p => { p with line }
        checked pos (← simple fuel pos assignments words redirects)
      | .pipeline stages => do
        let clock := (← get).clock
        checked pos (← pipeline fuel pos clock 0 none stages)
      | .negation c => do
        let status ← perform fuel .tested c
        pure (if status = 0 then 1 else 0)
      | .both first second => do
        let status ← perform fuel .tested first
        if status = 0 then perform fuel pos second else pure status
      | .either first second => do
        let status ← perform fuel .tested first
        if status = 0 then pure status else perform fuel pos second
      | .sequence first second => do
        let _ ← perform fuel pos.notLast first
        perform fuel pos second
      | .background c => do
        background fuel c
        pure 0
      | .subshell body => do
        let ending ← subshell fuel pos [] body
        checked pos (← report pos ending)
      | .redirected line (.subshell body) redirects => do
        change fun p => { p with line }
        let ending ← subshell fuel pos (← targets fuel redirects) body
        checked pos (← report pos ending)
      | .group body => all fuel pos body
      | .choice condition yes no => do
        let status ← all fuel .tested condition
        if status = 0 then all fuel pos yes else all fuel pos no
      | .loop untilTrue condition body => inLoop (goAround fuel pos untilTrue condition body 0)
      | .each line name words body => do
        change fun p => { p with line }
        let words ← match words with
          | none => pure (← process).parameters
          | some words => expand fuel words
        inLoop (goThrough fuel pos name body 0 words)
      | .select line subject clauses => do
        change fun p => { p with line }
        select fuel pos (← textOf (output fuel) subject) clauses
      | .definition name body => do
        change fun p =>
          { p with functions := (name, body) :: p.functions.filter (·.1 ≠ name) }
        pure 0
      | .redirected line c redirects => do
        change fun p => { p with line }
        let redirects ← targets fuel redirects
        match ← redirected redirects (perform fuel pos.notLast c) with
        | some status => pure status
        | none => checked pos failedStatus
    change fun p => { p with status }
    receive fuel
    return status

def all : (fuel : Nat) → Position → Option Command → Run m Nat
  | 0, _, _ => jump .endless
  | _, _, none => return 0
  | fuel + 1, pos, some c => perform fuel pos c

def expand : (fuel : Nat) → List Word → Run m (List Octets)
  | 0, _ => jump .endless
  | _, [] => return []
  | fuel + 1, word :: rest => do
    let words ← wordsOf (output fuel) word
    return words ++ (← expand fuel rest)

def targets : (fuel : Nat) → List (Redirect Word) → Run m (List (Redirect Octets))
  | 0, _ => jump .endless
  | _, [] => return []
  | fuel + 1, r :: rest => do
    let target ← textOf (output fuel) r.target
    if r.direction = .duplicate then checkDescriptor target
    return ⟨r.descriptor, r.direction, target⟩ :: (← targets fuel rest)

/-- Runs what is done at the end of a process, and says how it ends. -/
def leave : (fuel : Nat) → Except Jump Nat → Run m Ending
  | 0, _ => jump .endless
  | fuel + 1, outcome => do
    let ending ← match outcome with
      | .ok status => Ending.ofOutcome status (.ok ())
      | .error j => Ending.ofOutcome 0 (.error j)
    match ending, (← process).traps.lookup 0 with
    | .exited status, some action =>
      if action = [] then return ending
      change fun p => { p with status, traps := p.traps.filter (·.1 ≠ 0), command := none }
      match ← attempt (script fuel .inside action) with
      | .ok _ => return ending
      | .error j => Ending.ofOutcome status (.error j)
    | _, _ => return ending

/-- Runs commands in a process of their own that is a copy of this one. -/
def subshell : (fuel : Nat) → Position → List (Redirect Octets) → Option Command → Run m Ending
  | 0, _, _, _ => jump .endless
  | fuel + 1, pos, redirects, body => do
    let outcome ← apart do
      change fun p => { p with isSubshell := true, traps := p.traps.filter (·.2 = []) }
      let outcome ← attempt do
        redirects.forM (redirect false)
        all fuel { pos with isLast := true } body
      leave fuel outcome
    resume outcome

/-- Runs a command for its output, without the newlines at its end. -/
def output : (fuel : Nat) → Option Command → Run m Octets
  | 0, _ => jump .endless
  | fuel + 1, command => do
    let n ← addChannel .empty
    let outcome ← apart do
      connect 1 (some n)
      subshell fuel .inside [] command
    let ending ← resume outcome
    match ← fatalSignal? with
    | some signal => jump (.killed signal)
    | none => pure ()
    let status ← report .inside ending
    change fun p => { p with outputStatus := status }
    let written := (← channel n).content.filter (· ≠ '\x00')
    dropChannels n
    return (written.reverse.dropWhile (· = '\n')).reverse

/-- Runs a command at once, but as a job that later commands do not wait for. -/
def background : (fuel : Nat) → Command → Run m Unit
  | 0, _ => jump .endless
  | fuel + 1, c => do
    let pid ← newPid
    let s ← get
    let number := s.jobs.length
    modify fun s => { s with jobs := s.jobs ++ [⟨pid, s.clock, .exited 0, false⟩] }
    let nothing ← addChannel .nothing
    let outcome ← apart do
      change fun p => { p with job := number + 1 }
      connect 0 (some nothing)
      subshell fuel .inside [] (some c)
    dropChannels nothing
    let ending ← resume outcome
    modify fun after =>
      let jobs := after.jobs.set number ⟨pid, after.clock, ending, false⟩
      { after with clock := s.clock, jobs }
    change fun p => { p with lastJob := some pid }

/-- Runs the stages of a pipeline from one on, all of which start at the same time. -/
def pipeline : (fuel : Nat) → Position → (clock ends : Nat) → (before : Option Nat) →
    List Command → Run m Nat
  | 0, _, _, _, _, _ => jump .endless
  | _, _, _, _, _, [] => return 0
  | fuel + 1, pos, clock, ends, before, stage :: rest => do
    let n ← addChannel .empty
    let outcome ← apart do
      if before.isSome then connect 0 before
      if rest ≠ [] then connect 1 (some n)
      subshell fuel pos [] (some stage)
    let ending ← resume outcome
    let status ← report .inside ending
    let s ← get
    let ends := if ends < s.clock then s.clock else ends
    set { s with clock := if rest = [] then ends else clock }
    if rest = [] then return status
    else
      let status ← pipeline fuel pos clock ends (some n) rest
      dropChannels n
      return status

/-- Receives the signals that were sent to this process. -/
def receive : (fuel : Nat) → Run m Unit
  | 0 => jump .endless
  | fuel + 1 => do
    let p ← process
    if p.isSubshell then return
    match (← get).signals.find? (·.1 = p.pid) with
    | none => return
    | some (pid, signal) =>
      modify fun s => { s with signals := s.signals.erase (pid, signal) }
      match if Signal.isFinal signal then none else p.traps.lookup signal with
      | some action =>
        if action ≠ [] then
          during (fun p => { p with command := none })
            (fun p after => { after with status := p.status, line := p.line, command := p.command })
            (discard (script fuel .inside action))
      | none => if ¬ Signal.isHarmless signal then jump (.killed signal)
      receive fuel

/-- Runs the commands of a script one after the other. -/
def sequence : (fuel : Nat) → Position → (status : Nat) → List Command → Run m Nat
  | 0, _, _, _ => jump .endless
  | _, _, status, [] => return status
  | fuel + 1, pos, _, c :: rest => do
    let status ← perform fuel pos c
    sequence fuel pos status rest

/-- Runs a script as far as it is well formed. -/
def script : (fuel : Nat) → Position → Octets → Run m Nat
  | 0, _, _ => jump .endless
  | fuel + 1, pos, text => do
    let (commands, complaint) := Reader.read text
    let status ← sequence fuel pos 0 commands
    match complaint with
    | none => return status
    | some complaint =>
      change fun p => { p with line := complaint.line }
      refuse (Octets.ofString complaint.detail)

def goAround : (fuel : Nat) → Position → (untilTrue : Bool) → (condition body : Option Command) →
    (status : Nat) → Run m Nat
  | 0, _, _, _, _, _ => jump .endless
  | fuel + 1, pos, untilTrue, condition, body, status => do
    match ← round status (← attempt (all fuel .tested condition)) with
    | .ended status => return status
    | .goesOn found =>
      if (found = 0) = untilTrue then return status
      match ← round 0 (← attempt (all fuel pos.notLast body)) with
      | .ended status => return status
      | .goesOn status => goAround fuel pos untilTrue condition body status

def goThrough : (fuel : Nat) → Position → (name : Octets) → (body : Option Command) →
    (status : Nat) → List Octets → Run m Nat
  | 0, _, _, _, _, _ => jump .endless
  | _, _, _, _, status, [] => return status
  | fuel + 1, pos, name, body, _, word :: rest => do
    setVariable name word
    match ← round 0 (← attempt (all fuel pos.notLast body)) with
    | .ended status => return status
    | .goesOn status => goThrough fuel pos name body status rest

/-- Runs the first clause that a subject matches. -/
def select : (fuel : Nat) → Position → (subject : Octets) →
    List (List Word × Option Command) → Run m Nat
  | 0, _, _, _ => jump .endless
  | _, _, _, [] => return 0
  | fuel + 1, pos, subject, (patterns, body) :: rest => do
    if ← anyMatches fuel subject patterns then all fuel pos body
    else select fuel pos subject rest

def anyMatches : (fuel : Nat) → (subject : Octets) → List Word → Run m Bool
  | 0, _, _ => jump .endless
  | _, _, [] => return false
  | fuel + 1, subject, pattern :: rest => do
    let pattern ← patternOf (output fuel) pattern
    if pattern.accepts subject then return true else anyMatches fuel subject rest

def assignments : (fuel : Nat) → List (Octets × Word) → Run m (List (Octets × Octets))
  | 0, _ => jump .endless
  | _, [] => return []
  | fuel + 1, (name, word) :: rest => do
    let value ← textOf (output fuel) word
    setVariable name value
    return (name, value) :: (← assignments fuel rest)

/-- The words of a command; what a declaration assigns is not split. -/
def words : (fuel : Nat) → List Word → Run m (List Octets)
  | 0, _ => jump .endless
  | _, [] => return []
  | fuel + 1, first :: rest => do
    let declares := declarers.any fun name => first.bare? == some name.toList
    let name ← wordsOf (output fuel) first
    let operands ← rest.mapM fun word => do
      if declares ∧ (Reader.assignment? word).isSome then return [← textOf (output fuel) word]
      else wordsOf (output fuel) word
    return name ++ operands.flatten

def simple : (fuel : Nat) → Position → List (Octets × Word) → List Word → List (Redirect Word) →
    Run m Nat
  | 0, _, _, _, _ => jump .endless
  | fuel + 1, pos, assigned, written, redirects => do
    change fun p => { p with outputStatus := 0 }
    let words ← words fuel written
    let redirects ← targets fuel redirects
    let before ← process
    let special := match words with
      | [] => false
      | name :: _ => isSpecial name
    let keepsDescriptors := words == ["exec".toList]
    let body : Run m Nat := do
      let assigned ← assignments fuel assigned
      trace before assigned words
      match words with
      | [] => return (← process).outputStatus
      | name :: rest =>
        if special then call fuel pos true name rest
        else
          let names := assigned.map (·.1)
          takeBack before names
          let hidden ← process
          let outcome ← attempt do
            assignFor assigned
            call fuel pos true name rest
          takeBack hidden names
          resume outcome
    if keepsDescriptors then
      redirects.forM (redirect true)
      body
    else
      match ← redirected redirects body with
      | some status => return status
      | none => if special then jump .failed else return failedStatus

/-- Runs a command by its name. -/
def call : (fuel : Nat) → Position → (withFunctions : Bool) → (name : Octets) → List Octets →
    Run m Nat
  | 0, _, _, _, _ => jump .endless
  | fuel + 1, pos, withFunctions, name, words => do
    match ← calleeOf withFunctions name with
    | .function body => callFunction fuel pos body words
    | .builtin b => ownCommand (isSpecial name && withFunctions) (inName name (builtin b words))
    | .evaluation =>
      ownCommand withFunctions
        (inName name (script fuel pos.notLast ([' '].intercalate words)))
    | .file => ownCommand withFunctions (inName name (runFile fuel pos words))
    | .replacement => ownCommand withFunctions (replace fuel name words)
    | .command => do
      let (options, rest) ← inName name (dropOptions ['p', 'v', 'V'] words)
      match rest with
      | [] => return 0
      | other :: rest =>
        if options.contains 'v' then inName name (whereIs other)
        else call fuel pos false other rest
    | .program => program fuel pos name words

def callFunction : (fuel : Nat) → Position → Command → List Octets → Run m Nat
  | 0, _, _, _ => jump .endless
  | fuel + 1, pos, body, words => do
    let before ← process
    if maxCalls ≤ before.hidden.length then
      refuse (Octets.ofString s!"Maximum function recursion depth ({maxCalls}) reached")
    change fun p => { p with parameters := words, hidden := [] :: p.hidden, loops := 0 }
    let outcome ← attempt (perform fuel pos.notLast body)
    let hidden := ((← process).hidden.head?).getD []
    for (name, outer) in hidden do
      putVariable name outer
    change fun p =>
      { p with parameters := before.parameters, hidden := before.hidden, loops := before.loops }
    match outcome with
    | .ok status => return status
    | .error (.back status) => return status
    | .error j => jump j

/-- Runs the commands of a file in this process. -/
def runFile : (fuel : Nat) → Position → List Octets → Run m Nat
  | 0, _, _ => jump .endless
  | fuel + 1, pos, words => do
    match words with
    | [] => return 0
    | name :: _ =>
      if ¬ name.contains '/' then refuse (name ++ Octets.ofString ": not found")
      let text ← scriptOf name
      match ← attempt (inName name (script fuel pos.notLast text)) with
      | .ok status => return status
      | .error (.back status) => return status
      | .error j => jump j

/-- Runs a program in place of this process. -/
def replace : (fuel : Nat) → (name : Octets) → List Octets → Run m Nat
  | 0, _, _ => jump .endless
  | fuel + 1, name, words => do
    match words with
    | [] => return 0
    | other :: rest =>
      match ← programOf other with
      | .error refusal =>
        inName name do
          let status ← noProgram other refusal
          jump (.leave (match refusal with
            | .denied => 126
            | _ => status))
      | .ok found =>
        change fun p => { p with traps := p.traps.filter (·.2 = []) }
        match ← execute fuel found other rest with
        | .exited status => jump (.leave status)
        | .signalled signal => jump (.killed signal)

def program : (fuel : Nat) → Position → (name : Octets) → List Octets → Run m Nat
  | 0, _, _, _ => jump .endless
  | fuel + 1, pos, name, words => do
    match ← programOf name with
    | .error refusal => noProgram name refusal
    | .ok found => report pos (← execute fuel found name words)

/-- Runs a program in a process of its own. -/
def execute : (fuel : Nat) → Program → (name : Octets) → List Octets → Run m Ending
  | 0, _, _, _ => jump .endless
  | fuel + 1, program, name, words => do
    let outcome ← apart <| match program with
      | .cat => Ending.exited <$> cat name words
      | .echo => Ending.exited <$> echoProgram name words
      | .printf => Ending.exited <$> printfProgram name words
      | .sleep => Ending.exited <$> sleep name words
      | .succeed => return .exited 0
      | .fail => return .exited 1
      | .shell => shell fuel name words
    resume outcome

/-- Runs a shell with the words after its name. -/
def shell : (fuel : Nat) → (name : Octets) → List Octets → Run m Ending
  | 0, _, _ => jump .endless
  | fuel + 1, name, words => do
    let pid ← newPid
    match Invocation.ofWords name words with
    | .error detail =>
      change (newShell ⟨[], .input, name, []⟩ pid)
      complain detail
      return .exited failedStatus
    | .ok i =>
      change (newShell i pid)
      let outcome ← attempt do
        let text ← match i.source with
          | .text text => pure text
          | .file file =>
            change fun p => { p with name }
            let text ← scriptOf file
            change fun p => { p with name := i.name }
            pure text
          | .input =>
            match ← readAll 0 with
            | .ok text => pure text
            | .error _ => pure []
        script fuel .inside text
      leave fuel outcome

end

end Run
end Conformance.Shell
