import Conformance.CommandLine.Commands
import Conformance.Shell.Spawning
/-!
# Commands by the shell

Targets are programs, which are run on the disk of the command by the shell.
-/
namespace Conformance.CommandLine
open Conformance Files

/-- The variables of the environment that are set. -/
def Environment.bindings (env : Environment) : List (String × String) :=
  (env.resultsDirectory.map ("FW_RESULTS_DIR", ·)).toList
    ++ (env.timeoutSecs.map ("FW_DIFF_TIMEOUT_SECS", ·)).toList

/-- How a program ended, as far as targets are judged by it. -/
def endingOf : Shell.Ending → Agreement.Ending
  | .exited status => .exited status
  | .signalled _ => .signalled

def spawnOf (env : Environment) (t : Agreement.Target) : Shell.Spawn :=
  ⟨t.program, t.arguments, t.workingDirectory, env.bindings⟩

section
variable {m : Type → Type} [Monad m]

/-- Runs a program to its end, and gives it up if it took too long. Without any time it is not
run at all. -/
def launcher (disk : Disk m) (env : Environment) : Agreement.Launcher m := fun timeoutMs t => do
  let spawn := spawnOf env t
  match ← spawn.start disk with
  | .error refusal => return .unspawned refusal.message
  | .ok program =>
    if timeoutMs = 0 then return .timedOut
    match ← spawn.run disk program with
    | none => return .timedOut
    | some remains =>
      if timeoutMs * 1000 ≤ remains.duration then return .timedOut
      else
        return .ended (endingOf remains.ending) (Shell.Octets.toBytes remains.output)
          (Shell.Octets.toBytes remains.error)

def run (disk : Disk m) (env : Environment) (arguments : List String) : m Outcome :=
  runWith disk (launcher disk env) env arguments

end
end Conformance.CommandLine
