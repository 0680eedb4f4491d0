/-!
# Faults

A refusal names the kind of check that failed and says in words what was wrong.
The kind decides the opening words of the message, so that every checker of the
protocol prints the same opening for the same kind of refusal.
-/
namespace Conformance

inductive Fault.Kind
  | schema
  | decode
  | encode
  | integrity
  | malformed
  | derivation
  | detectionMismatch
  | environment
  | corpus
  deriving DecidableEq

/-- A malformed input was never authenticated, so it is not called an error. -/
def Fault.Kind.label : Fault.Kind → String
  | .schema => "Schema error"
  | .decode => "Decode error"
  | .encode => "Encode error"
  | .integrity => "Integrity error"
  | .malformed => "Malformed input"
  | .derivation => "Derivation error"
  | .detectionMismatch => "Detection mismatch"
  | .environment => "Environment error"
  | .corpus => "Corpus error"

structure Fault where
  kind : Fault.Kind
  detail : String
  deriving DecidableEq

def Fault.message (f : Fault) : String :=
  f.kind.label ++ ": " ++ f.detail

/-- Puts the place where a fault arose in front of its detail. -/
def Fault.within (place : String) (f : Fault) : Fault :=
  { f with detail := place ++ ": " ++ f.detail }

theorem Fault.kind_within (place : String) (f : Fault) : (f.within place).kind = f.kind := rfl

end Conformance
