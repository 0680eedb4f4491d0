import Conformance.Files.Disk
import Conformance.Shell.Script
import Conformance.Shell.Signal
/-!
# Sessions

What a shell holds while it runs a script: its processes and what they write to.
Commands run one after the other, also those of a pipeline and those in the
background; a clock says when each of them would have written what it wrote.
-/
namespace Conformance.Shell
open Conformance Files

structure Variable where
  value : Option Octets
  isExported : Bool
  isReadOnly : Bool
  deriving DecidableEq

namespace Variable

def new : Variable := ⟨none, false, false⟩

end Variable

/-- What was written at one time by one job. -/
structure Piece where
  time : Nat
  job : Nat
  content : Octets
  deriving DecidableEq

/-- What a descriptor leads to. The pieces of a memory stand the latest first. -/
inductive Channel
  | nothing
  | memory (pieces : List Piece) (position : Nat)
  | file (path : String) (position : Nat) (isWritable appends : Bool)
  deriving DecidableEq

namespace Channel

def empty : Channel :=
  memory [] 0

def ofOctets (content : Octets) : Channel :=
  memory [⟨0, 0, content⟩] 0

/-- All that was written to a memory, in the order of time. -/
def content : Channel → Octets
  | memory pieces _ => (pieces.reverse.mergeSort fun a b => a.time ≤ b.time).flatMap (·.content)
  | _ => []

/-- Removes what a job would have written after some time. -/
def cut (job time : Nat) : Channel → Channel
  | memory pieces position =>
    memory (pieces.filter fun p => p.job ≠ job ∨ p.time ≤ time) position
  | channel => channel

end Channel

/-- How a process ended. -/
inductive Ending
  | exited (status : Nat)
  | signalled (signal : Nat)
  deriving DecidableEq

def Ending.status : Ending → Nat
  | exited status => status
  | signalled signal => Signal.status signal

/-- A command in the background, with the time at which it ends. -/
structure Job where
  pid : Nat
  ends : Nat
  ending : Ending
  isCollected : Bool
  deriving DecidableEq

structure Process where
  pid : Nat
  /-- The processes that wait for this one. -/
  ancestors : List Nat
  isSubshell : Bool
  name : Octets
  parameters : List Octets
  bindings : List (Octets × Variable)
  functions : List (Octets × Command)
  directory : String
  descriptors : List (Nat × Nat)
  status : Nat
  /-- The status of the last command whose output was put into a word. -/
  outputStatus : Nat
  line : Nat
  /-- The command that complaints are made in the name of. -/
  command : Option Octets
  flags : List Char
  traps : List (Nat × Octets)
  loops : Nat
  /-- What the local variables of each function hide. -/
  hidden : List (List (Octets × Option Variable))
  job : Nat
  lastJob : Option Nat

structure Session where
  process : Process
  channels : List Channel
  clock : Nat
  jobs : List Job
  /-- Signals that were sent to processes, and not yet received. -/
  signals : List (Nat × Nat)
  nextPid : Nat

/-- What ends a command before its end. -/
inductive Jump
  /-- Leaves the process. -/
  | leave (status : Nat)
  /-- Leaves it because of an error that was complained about. -/
  | failed
  | killed (signal : Nat)
  /-- Leaves a function or a file. -/
  | back (status : Nat)
  /-- Leaves some loops. -/
  | out (loops : Nat)
  /-- Leaves all but the last of some loops, which goes on. -/
  | again (loops : Nat)
  | endless
  deriving DecidableEq

abbrev Run (m : Type → Type) := ReaderT (Disk m) (ExceptT Jump (StateT Session m))

/-- The flags of a shell by their letters and names, in the order in which they are shown. -/
def flagNames : List (Char × String) :=
  [('p', "privileged"), ('u', "nounset"), ('b', "notify"), ('a', "allexport"), ('C', "noclobber"),
    ('E', "emacs"), ('V', "vi"), ('v', "verbose"), ('x', "xtrace"), ('s', "stdin"),
    ('n', "noexec"), ('m', "monitor"), ('i', "interactive"), ('I', "ignoreeof"),
    ('f', "noglob"), ('e', "errexit")]

/-- The status of a command that a complaint ended. -/
def failedStatus : Nat := 2

namespace Run
variable {m : Type → Type} [Monad m]

/-- Runs something from a session on. -/
def outcome {α : Type} (run : Run m α) (disk : Disk m) (s : Session) :
    m (Except Jump α × Session) :=
  (run disk).run.run s

def process : Run m Process :=
  return (← get).process

def change (f : Process → Process) : Run m Unit :=
  modify fun s => { s with process := f s.process }

def jump {α : Type} (j : Jump) : Run m α :=
  fun _ => throw j

/-- What a command does, or the jump that ends it. -/
def attempt {α : Type} (run : Run m α) : Run m (Except Jump α) :=
  fun disk => ExceptT.lift (run disk).run

/-- Goes on with the outcome of an attempt. -/
def resume {α : Type} : Except Jump α → Run m α
  | .ok a => return a
  | .error j => jump j

def look (path : String) : Run m (Except Refusal Entry) := do
  (← read).look path

/-- The path of a name that is relative to the working directory of the process. -/
def pathOf (name : Octets) : Run m String := do
  let p ← process
  let name := Octets.text name
  return if name = "" then "" else Path.join p.directory name

def cell? (name : Octets) : Run m (Option Variable) :=
  return (← process).bindings.lookup name

def value? (name : Octets) : Run m (Option Octets) :=
  return (← cell? name).bind (·.value)

def value (name : String) : Run m Octets :=
  return (← value? name.toList).getD []

def putVariable (name : Octets) (v : Option Variable) : Run m Unit :=
  change fun p =>
    let others := p.bindings.filter (·.1 ≠ name)
    { p with bindings := match v with
        | some v => (name, v) :: others
        | none => others }

def channelOf? (descriptor : Nat) : Run m (Option Nat) :=
  return (← process).descriptors.lookup descriptor

def addChannel (c : Channel) : Run m Nat := do
  let n := (← get).channels.length
  modify fun s => { s with channels := s.channels ++ [c] }
  return n

/-- Forgets the channels from a number on, which nothing leads to any more. -/
def dropChannels (n : Nat) : Run m Unit :=
  modify fun s => { s with channels := s.channels.take n }

def channel (n : Nat) : Run m Channel :=
  return ((← get).channels[n]?).getD .nothing

def setChannel (n : Nat) (c : Channel) : Run m Unit :=
  modify fun s => { s with channels := s.channels.set n c }

/-- Lets a descriptor lead to a channel, or nowhere. -/
def connect (descriptor : Nat) (n : Option Nat) : Run m Unit :=
  change fun p =>
    let others := p.descriptors.filter (·.1 ≠ descriptor)
    { p with descriptors := match n with
        | some n => (descriptor, n) :: others
        | none => others }

/-- Puts octets into a file at a position, after zeros if it is too short. -/
def splice (content octets : Octets) (position : Nat) : Octets :=
  content.take position ++ List.replicate (position - content.length) '\x00' ++ octets
    ++ content.drop (position + octets.length)

/-- Writes to a channel, unless it only can be read. -/
def writeChannel (n : Nat) (octets : Octets) : Run m Bool := do
  match ← channel n with
  | .nothing => return true
  | .memory pieces position =>
    let s ← get
    setChannel n (.memory (⟨s.clock, s.process.job, octets⟩ :: pieces) position)
    return true
  | .file path position isWritable appends =>
    if ¬ isWritable then return false
    match ← look path with
    | .ok (.file content) =>
      let content := Octets.ofBytes content
      let position := if appends then content.length else position
      let _ ← (← read).write path (Octets.toBytes (splice content octets position))
      setChannel n (.file path (position + octets.length) isWritable appends)
      return true
    | _ => return true

/-- Writes to a descriptor, unless it leads nowhere. -/
def write (descriptor : Nat) (octets : Octets) : Run m Bool := do
  if octets = [] then return true
  match ← channelOf? descriptor with
  | none => return false
  | some n => writeChannel n octets

/-- Reads what is left on a channel, and stays where it is. -/
def pending (n : Nat) : Run m (Except Refusal Octets) := do
  match ← channel n with
  | .nothing => return .ok []
  | .memory pieces position => return .ok ((Channel.memory pieces position).content.drop position)
  | .file path position _ _ =>
    match ← look path with
    | .ok (.file content) => return .ok ((Octets.ofBytes content).drop position)
    | .ok (.directory _) => return .error .isDirectory
    | _ => return .ok []

/-- Moves on by so many octets that were read. -/
def consume (n count : Nat) : Run m Unit := do
  match ← channel n with
  | .nothing => return
  | .memory pieces position => setChannel n (.memory pieces (position + count))
  | .file path position isWritable appends =>
    setChannel n (.file path (position + count) isWritable appends)

/-- Says what is wrong on the channel for errors, in the name of the process and its command. -/
def complain (detail : Octets) : Run m Unit := do
  let p ← process
  let command := match p.command with
    | some command => command ++ Octets.ofString ": "
    | none => []
  let place := Octets.ofString s!": {p.line}: "
  let _ ← write 2 (p.name ++ place ++ command ++ detail ++ ['\n'])

/-- Complains, and ends what is being done. -/
def refuse {α : Type} (detail : Octets) : Run m α := do
  complain detail
  jump .failed

def setVariable (name value : Octets) : Run m Unit := do
  let p ← process
  let v := (p.bindings.lookup name).getD .new
  if v.isReadOnly then refuse (name ++ Octets.ofString ": is read only")
  let isExported := v.isExported || p.flags.contains 'a'
  putVariable name (some { v with value := some value, isExported })

/-- A number that an operand has to be. -/
def numberOf (word : Octets) : Run m Nat := do
  match natural? word with
  | some n =>
    if n < 0x80000000 then return n else refuse (Octets.ofString "Illegal number: " ++ word)
  | none => refuse (Octets.ofString "Illegal number: " ++ word)

/-- Runs something in a process that changes nothing of this one. -/
def apart {α : Type} (run : Run m α) : Run m (Except Jump α) := do
  let before ← get
  let outcome ← attempt run
  change fun _ => before.process
  dropChannels before.channels.length
  return outcome

/-- What a process leaves with after a jump that leaves nothing else. -/
def Ending.ofOutcome (status : Nat) : Except Jump Unit → Run m Ending
  | .ok _ => return .exited status
  | .error (.leave status) => return .exited status
  | .error .failed => return .exited failedStatus
  | .error (.killed signal) => return .signalled signal
  | .error (.back status) => return .exited status
  | .error .endless => jump .endless
  | .error (.out _) => return .exited status
  | .error (.again _) => return .exited status

end Run
end Conformance.Shell
