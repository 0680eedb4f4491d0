import Conformance.Shell.Execution
/-!
# Spawning

Runs a program on a disk until it ends, with nothing to read, and keeps what it
writes to its two outputs.
-/
namespace Conformance.Shell
open Conformance Files

/-- A program to run: its name, the words after it, where it runs and what it knows. -/
structure Spawn where
  program : String
  arguments : List String
  directory : Option String
  environment : List (String × String)

/-- Why a program cannot be run. -/
inductive SpawnRefusal
  /-- A text of it holds the character that ends texts for the system. -/
  | cutShort
  | refused (reason : Refusal)
  deriving DecidableEq

def SpawnRefusal.message : SpawnRefusal → String
  | cutShort => "nul byte found in provided data"
  | refused reason => reason.message

/-- What is left of a program that has ended. -/
structure Remains where
  output : Octets
  error : Octets
  ending : Ending
  /-- How long it ran, in microseconds. -/
  duration : Nat

namespace Spawn
variable {m : Type → Type} [Monad m]

def maxDepth : Nat := 20000

def texts (s : Spawn) : List String :=
  s.program :: s.directory.toList ++ s.arguments

/-- The variables that every program knows. -/
def bindings (s : Spawn) : List (Octets × Variable) :=
  (("PATH", Program.searchPath) :: s.environment).map fun (name, value) =>
    (Octets.ofString name, ⟨some (Octets.ofString value), true, false⟩)

/-- The process that a program is started by. -/
def parent (s : Spawn) : Process where
  pid := 1
  ancestors := []
  isSubshell := false
  name := []
  parameters := []
  bindings := s.bindings
  functions := []
  directory := s.directory.getD ""
  descriptors := [(0, 0), (1, 1), (2, 2)]
  status := 0
  outputStatus := 0
  line := 0
  command := none
  flags := []
  traps := []
  loops := 0
  hidden := []
  job := 0
  lastJob := none

def session (s : Spawn) : Session :=
  ⟨s.parent, [.nothing, .empty, .empty], 0, [], [], 100⟩

/-- Where a program is run has to be a directory. -/
def enter (s : Spawn) : Run m (Except Refusal Unit) := do
  match s.directory with
  | none => return .ok ()
  | some directory =>
    match ← Run.look directory with
    | .ok (.directory _) => return .ok ()
    | .ok _ => return .error .notDirectory
    | .error refusal => return .error refusal

/-- The program of a name, which is looked for as commands are. -/
def find (s : Spawn) : Run m (Except Refusal Program) := do
  if s.program = "" then return .error .missing
  match ← s.enter with
  | .error refusal => return .error refusal
  | .ok _ => Run.programOf (Octets.ofString s.program)

/-- What a program leaves behind, unless it goes on for ever. -/
def remains (ending : Except Jump Ending) (s : Session) : Option Remains :=
  let content (n : Nat) := (s.channels[n]?.map Channel.content).getD []
  let ends := s.jobs.foldl (fun ends job => if ends < job.ends then job.ends else ends) s.clock
  match ending with
  | .ok ending => some ⟨content 1, content 2, ending, ends⟩
  | .error _ => none

/-- Finds a program, so that it can be run. -/
def start (s : Spawn) (disk : Disk m) : m (Except SpawnRefusal Program) := do
  if s.texts.any (·.contains '\x00') then return .error .cutShort
  match ← Run.outcome s.find disk s.session with
  | (.ok (.ok program), _) => return .ok program
  | (.ok (.error reason), _) => return .error (.refused reason)
  | (.error _, _) => return .error (.refused .missing)

/-- Runs a program that was found. -/
def run (s : Spawn) (disk : Disk m) (program : Program) : m (Option Remains) := do
  let words := s.arguments.map Octets.ofString
  let execution := Run.execute maxDepth program (Octets.ofString s.program) words
  let (ending, after) ← Run.outcome execution disk s.session
  return remains ending after

end Spawn
end Conformance.Shell
