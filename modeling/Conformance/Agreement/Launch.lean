import Conformance.Agreement.Outcome
import Conformance.Agreement.Target
import Conformance.Text.Utf8
/-!
# Launches

A launcher runs a target and gives it up when its time is over. A target that could
not be started or was given up has failed, and one that ended is classified by
what it wrote.
-/
namespace Conformance.Agreement
open Conformance

/-- What a launcher has to say of a target. -/
inductive Launch
  | unspawned (reason : String)
  | timedOut
  | ended (ending : Ending) (output error : Bytes)

/-- Runs a target for so many milliseconds at most. -/
abbrev Launcher (m : Type → Type) := (timeoutMs : Nat) → Target → m Launch

/-- The two outputs of a program one after the other, as text. -/
def outputText (output error : Bytes) : String :=
  String.ofList (Text.Utf8.decodeLossy output ++ Text.Utf8.decodeLossy error)

def Launch.outcome (timeoutMs : Nat) (t : Target) : Launch → Outcome
  | .unspawned reason => .failed t.language s!"failed to spawn {t.program}: {reason}"
  | .timedOut => .failed t.language s!"timed out after {timeoutMs} ms"
  | .ended ending output error =>
    classify t.language t.markers ending (outputText output error)

section
variable {m : Type → Type} [Monad m] (launch : Launcher m) (timeoutMs : Nat)

def runTarget (t : Target) : m Outcome := do
  return (← launch timeoutMs t).outcome timeoutMs t

def runTargets : List Target → m (List Outcome)
  | [] => return []
  | t :: rest => do
    let outcome ← runTarget launch timeoutMs t
    return outcome :: (← runTargets rest)

/-- The outcomes of all targets, which end in the order in which they are listed. -/
def runAll (targets : List Target) : m Aggregate := do
  let outcomes ← runTargets launch timeoutMs targets
  return collect (numbered (targets.map (·.language))) .new
    (numbered (outcomes.map .finished))

end
end Conformance.Agreement
