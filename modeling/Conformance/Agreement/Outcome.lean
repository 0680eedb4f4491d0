import Conformance.Json.Document
import Conformance.Text.Blank
/-!
# Outcomes of other implementations

The output of another implementation counts as a success when it holds one of the
markers agreed on, whatever its exit code. An aggregate keeps the last outcome of
each language; the tasks that run the targets report to it as they end.
-/
namespace Conformance.Agreement
open Conformance

/-- How a process ended. -/
inductive Ending
  | exited (code : Int)
  | signalled
  deriving DecidableEq

structure Outcome where
  language : String
  success : Bool
  output : String
  errors : List String
  deriving DecidableEq

def Outcome.failed (language diagnostic : String) : Outcome :=
  ⟨language, false, "", [diagnostic]⟩

/-- Whether a text occurs in another one; the empty text occurs everywhere. -/
def occursIn (part : List Char) : List Char → Bool
  | [] => part.isEmpty
  | c :: rest => part.isPrefixOf (c :: rest) || occursIn part rest

def holdsMarker (markers : List String) (output : String) : Bool :=
  markers.any fun marker => occursIn marker.toList output.toList

def Ending.errors : Ending → List String
  | .exited code => if code = 0 then [] else [s!"exit status {code}"]
  | .signalled => ["terminated by signal"]

def classify (language : String) (markers : List String) (ending : Ending) (output : String) :
    Outcome :=
  let success := holdsMarker markers output
  let trimmed := Text.trimBlank output
  { language, success, output
    errors := (if success then [] else ["no success marker"]) ++ ending.errors
      ++ (if success ∨ trimmed = "" then [] else [trimmed]) }

/-- No errors are left out of the written form. -/
def Outcome.document (o : Outcome) : Json.Document :=
  .record ([("language", .text o.language), ("success", .boolean o.success),
    ("output", .text o.output)]
    ++ (if o.errors.isEmpty then [] else [("errors", .texts o.errors)]))

def Outcome.toJson (o : Outcome) : Json :=
  o.document.toJson

/-- The last outcome of each language, in the order of the languages, with counts of them. -/
structure Aggregate where
  total : Nat
  passed : Nat
  failed : Nat
  results : List (String × Outcome)
  deriving DecidableEq

namespace Aggregate

def new : Aggregate := ⟨0, 0, 0, []⟩

def insert (o : Outcome) : List (String × Outcome) → List (String × Outcome)
  | [] => [(o.language, o)]
  | (language, other) :: rest =>
    if o.language < language then (o.language, o) :: (language, other) :: rest
    else if o.language = language then (language, o) :: rest
    else (language, other) :: insert o rest

/-- The counts are taken anew, since the outcome may replace an earlier one. -/
def record (a : Aggregate) (o : Outcome) : Aggregate :=
  let results := insert o a.results
  let passed := results.countP (·.2.success)
  ⟨results.length, passed, results.length - passed, results⟩

/-- Nothing recorded is no pass. -/
def allPassed (a : Aggregate) : Bool :=
  0 < a.total && a.failed == 0

def document (a : Aggregate) : Json.Document :=
  .record [("total", .nat a.total), ("passed", .nat a.passed), ("failed", .nat a.failed),
    ("results", .record (a.results.map fun (language, o) => (language, o.document)))]

def toJson (a : Aggregate) : Json :=
  a.document.toJson

end Aggregate

/-- How a task that runs a target ended: with an outcome, or before it had one. -/
inductive TaskEnd
  | finished (o : Outcome)
  | aborted (reason : String)

def TaskEnd.outcome (language : String) : TaskEnd → Outcome
  | .finished o => o
  | .aborted reason => .failed language ("oracle task failed: " ++ reason)

/-- Records tasks in the order in which they end. An aborted one counts for the language that it
was running, which is known from when it was started. -/
def collect (running : List (Nat × String)) (a : Aggregate) : List (Nat × TaskEnd) → Aggregate
  | [] => a
  | (task, ended) :: rest =>
    let language := (running.lookup task).getD s!"task-{task}"
    collect (running.filter (·.1 ≠ task)) (a.record (ended.outcome language)) rest

/-- The elements with their positions. -/
def numbered {α : Type} (l : List α) : List (Nat × α) :=
  (List.range l.length).zip l

end Conformance.Agreement
