import Conformance.Fault
import Conformance.Json.Document
import Conformance.Json.Record
/-!
# Scenario reports and run summaries

A report collects what was observed of one scenario; its first failure turns the
verdict. A summary is the write-once list of the reports of one run, with the
counts of the two verdicts beside it.
-/
namespace Conformance

inductive Status
  | pass
  | fail
  deriving DecidableEq

def Status.name : Status → String
  | .pass => "pass"
  | .fail => "fail"

/-- Failures explain a failing verdict; errors are the codes that a detector observed, which a
passing scenario may carry as well. -/
structure Report where
  scenarioId : String
  status : Status
  failures : List String
  errors : List String
  metrics : Json.Object
  notes : List String

namespace Report

def new (scenarioId : String) : Report :=
  ⟨scenarioId, .pass, [], [], [], []⟩

def fail (r : Report) (failure : String) : Report :=
  { r with failures := r.failures ++ [failure], status := .fail }

/-- Records a failure only where the check did not hold. -/
def check (r : Report) (ok : Bool) (failure : String) : Report :=
  if ok then r else r.fail failure

def failAll (r : Report) (failures : List String) : Report :=
  failures.foldl fail r

def setMetric (r : Report) (key : String) (value : Json) : Report :=
  { r with metrics := r.metrics.insert key value }

def setMetrics (r : Report) (metrics : List (String × Json)) : Report :=
  metrics.foldl (fun r (key, value) => r.setMetric key value) r

def withErrors (r : Report) (errors : List String) : Report :=
  { r with errors := r.errors ++ errors }

def note (r : Report) (text : String) : Report :=
  { r with notes := r.notes ++ [text] }

def withNotes (r : Report) (notes : List String) : Report :=
  { r with notes := r.notes ++ notes }

def passed (r : Report) : Bool :=
  r.status == .pass

def document (r : Report) : Json.Document :=
  .record [("scenario_id", .text r.scenarioId), ("status", .text r.status.name),
    ("failures", .texts r.failures), ("errors", .texts r.errors),
    ("metrics", .value (.object r.metrics)), ("notes", .texts r.notes)]

def toJson (r : Report) : Json :=
  r.document.toJson

end Report

structure Summary where
  language : String
  suite : String
  scenarioCount : Nat
  passed : Nat
  failed : Nat
  scenarios : List Report

namespace Summary

def new (language suite : String) : Summary :=
  ⟨language, suite, 0, 0, 0, []⟩

/-- The label under which this implementation reports, unless another one is asked for. -/
def ownLanguage : String := "rust"

def own (suite : String) : Summary :=
  new ownLanguage suite

def get? (s : Summary) (scenarioId : String) : Option Report :=
  s.scenarios.find? (·.scenarioId == scenarioId)

def duplicate (scenarioId : String) : Fault :=
  ⟨.corpus, "duplicate scenario id: " ++ scenarioId⟩

/-- Appends a report unless its scenario has one already. -/
def record (s : Summary) (r : Report) : Except Fault Summary :=
  if (s.get? r.scenarioId).isSome then .error (duplicate r.scenarioId)
  else .ok { s with
    scenarioCount := s.scenarioCount + 1
    passed := s.passed + if r.status = .pass then 1 else 0
    failed := s.failed + if r.status = .pass then 0 else 1
    scenarios := s.scenarios ++ [r] }

def recordAll (s : Summary) (reports : List Report) : Except Fault Summary :=
  reports.foldlM record s

/-- An empty summary is no pass. -/
def allPassed (s : Summary) : Bool :=
  0 < s.scenarioCount && s.failed == 0

def document (s : Summary) : Json.Document :=
  .record [("language", .text s.language), ("suite", .text s.suite),
    ("scenario_count", .nat s.scenarioCount), ("passed", .nat s.passed),
    ("failed", .nat s.failed), ("scenarios", .list (s.scenarios.map Report.document))]

def toJson (s : Summary) : Json :=
  s.document.toJson

end Summary

open Json Reader

def Report.reader : Reader Report :=
  Reader.record ["scenario_id", "status", "failures", "errors", "metrics", "notes"] fun fields => do
    return {
      scenarioId := ← fields.required "scenario_id" text
      status := ← fields.required "status"
        (choice Literal.isNull [("pass", .pass), ("fail", .fail)])
      failures := ← fields.orDefault "failures" (list text) []
      errors := ← fields.orDefault "errors" (list text) []
      metrics := ← fields.orDefault "metrics" object []
      notes := ← fields.orDefault "notes" (list text) [] }

/-- The count of scenarios is also read under the key `total`, but not under both. -/
def Summary.underOneName : Literal → Literal
  | .object entries =>
    .object (entries.map fun (key, value) =>
      (if key = some "total" then some "scenario_count" else key, value))
  | literal => literal

def Summary.reader : Reader Summary :=
  fun room literal =>
    let names := ["language", "suite", "scenario_count", "passed", "failed", "scenarios"]
    Reader.record names (fun fields => do
      return {
        language := ← fields.required "language" text
        suite := ← fields.required "suite" text
        scenarioCount := ← fields.required "scenario_count" unsigned
        passed := ← fields.required "passed" unsigned
        failed := ← fields.required "failed" unsigned
        scenarios := ← fields.required "scenarios" (list Report.reader) })
      room (underOneName literal)

end Conformance
