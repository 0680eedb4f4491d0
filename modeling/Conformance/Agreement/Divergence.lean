import Conformance.Report
/-!
# Agreement of verdicts

Summaries of several implementations are compared suite by suite. A scenario
diverges when an implementation that ran the suite has no verdict on it, or when
two implementations differ in its status or in its set of error codes.
-/
namespace Conformance.Agreement
open Conformance

/-- Names in increasing order, each of them once. -/
def sortedNames (names : List String) : List String :=
  (names.mergeSort (· ≤ ·)).eraseReps

/-- What implementations are compared on; the error codes are in increasing order. -/
structure Verdict where
  status : Status
  errors : List String
  deriving DecidableEq

def Verdict.ofReport (r : Report) : Verdict :=
  ⟨r.status, sortedNames r.errors⟩

def Verdict.describe (v : Verdict) : String :=
  let status := match v.status with
    | .pass => "Pass"
    | .fail => "Fail"
  status ++ "[" ++ String.intercalate "," v.errors ++ "]"

structure Divergence where
  suite : String
  scenarioId : String
  detail : String
  deriving DecidableEq

namespace Divergence

def display (d : Divergence) : String :=
  d.suite ++ "::" ++ d.scenarioId ++ ": " ++ d.detail

def document (d : Divergence) : Json.Document :=
  .record [("suite", .text d.suite), ("scenario_id", .text d.scenarioId),
    ("detail", .text d.detail)]

def toJson (d : Divergence) : Json :=
  d.document.toJson

end Divergence

def ofSuite (suite : String) (summaries : List Summary) : List Summary :=
  summaries.filter (·.suite == suite)

def suites (summaries : List Summary) : List String :=
  sortedNames (summaries.map (·.suite))

def languages (suite : String) (summaries : List Summary) : List String :=
  sortedNames ((ofSuite suite summaries).map (·.language))

def scenarioIds (suite : String) (summaries : List Summary) : List String :=
  sortedNames ((ofSuite suite summaries).flatMap fun s => s.scenarios.map (·.scenarioId))

/-- The last verdict that a language lists for a scenario of a suite. -/
def verdict? (summaries : List Summary) (suite scenarioId language : String) : Option Verdict :=
  let reports := ((ofSuite suite summaries).filter (·.language == language)).flatMap (·.scenarios)
  ((reports.filter (·.scenarioId == scenarioId)).getLast?).map Verdict.ofReport

def disagree (verdicts : List (String × Verdict)) : Bool :=
  match verdicts with
  | [] => false
  | (_, first) :: rest => rest.any (·.2 ≠ first)

/-- How a scenario of a suite diverges, if it does. -/
def divergence? (summaries : List Summary) (suite scenarioId : String) : Option Divergence :=
  let verdicts := (languages suite summaries).map fun language =>
    (language, verdict? summaries suite scenarioId language)
  let missing := verdicts.filterMap fun (language, v) => if v.isNone then some language else none
  let present := verdicts.filterMap fun (language, v) => v.map fun v => (language, v)
  if missing ≠ [] then
    some ⟨suite, scenarioId, "missing from " ++ String.intercalate ", " missing⟩
  else if disagree present then
    let descriptions := present.map fun (language, v) => language ++ "=" ++ v.describe
    some ⟨suite, scenarioId, String.intercalate " " descriptions⟩
  else none

/-- Every divergence, by suite and then by scenario. -/
def divergences (summaries : List Summary) : List Divergence :=
  (suites summaries).flatMap fun suite =>
    (scenarioIds suite summaries).filterMap (divergence? summaries suite)

end Conformance.Agreement
