import Conformance.Fault
import Conformance.Json.Record
/-!
# Targets

A target is the command that runs another implementation, with the markers that
its output must hold one of.
-/
namespace Conformance.Agreement
open Conformance

structure Target where
  language : String
  program : String
  arguments : List String
  workingDirectory : Option String
  markers : List String
  deriving DecidableEq

def Target.toJson (t : Target) : Json :=
  .ofEntries [("language", .text t.language), ("program", .text t.program),
    ("args", .ofTexts t.arguments),
    ("working_dir", (t.workingDirectory.map Json.text).getD .null),
    ("success_markers", .ofTexts t.markers)]

def defaultTargets : List Target :=
  [⟨"python", "python3", ["validate_cbor_python.py"], some "validation/python/validators",
      ["All messages passed"]⟩,
    ⟨"node", "node", ["validate_cbor_node.js"], some "validation/nodejs/validators",
      ["All messages passed"]⟩,
    ⟨"go", "go", ["run", "validate_cbor_go.go"], some "validation/go/validators",
      ["All messages passed"]⟩,
    ⟨"rust", "cargo", ["run", "--quiet", "--bin", "fw-oracle", "--", "schema"], some ".",
      ["scenarios passed"]⟩]

open Json.Reader

def Target.reader : Json.Reader Target :=
  record ["language", "program", "args", "working_dir", "success_markers"] fun fields => do
    return {
      language := ← fields.required "language" text
      program := ← fields.required "program" text
      arguments := ← fields.orDefault "args" (list text) []
      workingDirectory := ← fields.optionalOrDefault "working_dir" text
      markers := ← fields.required "success_markers" (list text) }

def Target.parseList? (text : String) : Option (List Target) :=
  (list Target.reader).read? text

end Conformance.Agreement
