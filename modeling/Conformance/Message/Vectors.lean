import Conformance.Corpus
import Conformance.Message.Validation
import Conformance.Report
/-!
# Message vectors

A vector is a message under a tag, with the verdict that is expected of it and
the fields among whose violations a refused message must have some.
-/
namespace Conformance.Message
open Conformance

structure Vector where
  tag : Nat
  message : Json
  expectValid : Bool
  expectedErrorFields : List String

/-- Vectors in the order of their names, which are distinct. -/
abbrev VectorSet := List (String × Vector)

def Vector.reader : Json.Reader Vector :=
  .record ["tag", "data", "expect_valid", "expected_error_fields"] fun fields => do
    return {
      tag := ← fields.required "tag" .unsigned
      message := ← fields.required "data" .value
      expectValid := ← fields.orDefault "expect_valid" .boolean true
      expectedErrorFields := ← fields.orDefault "expected_error_fields" (.list .text) [] }

def VectorSet.corpus : Corpus VectorSet where
  reader := .byName Vector.reader
  scenarioCount := List.length

def Vector.validate (v : Vector) : Validation :=
  validateTagged v.tag v.message

def verdictName (valid : Bool) : String :=
  if valid then "valid" else "invalid"

def Vector.report (name : String) (v : Vector) : Report :=
  let validation := v.validate
  let report := ((Report.new name).withErrors validation.messages).withNotes validation.warnings
  let report := match validation.kind with
    | some kind => report.setMetric "message_type" (.text kind.name)
    | none => report
  let report := report.check (validation.valid == v.expectValid)
    s!"expected {verdictName v.expectValid}, got {verdictName validation.valid}"
  v.expectedErrorFields.foldl (fun report field =>
    report.check (validation.errors.any fun e => e.field? == some field)
      ("missing expected violation on field " ++ field)) report

def VectorSet.run (vectors : VectorSet) : Except Fault Summary :=
  (Summary.own "schema").recordAll (vectors.map fun (name, vector) => vector.report name)

end Conformance.Message
