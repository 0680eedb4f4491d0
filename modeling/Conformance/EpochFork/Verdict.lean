import Conformance.EpochFork.Simulation
import Conformance.Report
/-!
# Verdicts on epoch forks

The outcome of a scenario is compared with what was expected, check by check. A
scenario whose graph or events are broken ends the run.
-/
namespace Conformance.EpochFork
open Conformance

/-- An epoch of zero and an empty hash are not checked. -/
structure ReconciledEpoch where
  epochId : Int
  nodeId : Option String
  hash : String

structure ReplayGap where
  maxMessages : Int
  maxMs : Int

/-- Bounds that are not positive are no bounds. -/
structure Expectations where
  detected : Bool
  detectionReference : String
  maxDetectionMs : Int
  maxReconciliationMs : Int
  reconciledEpoch : ReconciledEpoch
  allowReplayGap : ReplayGap
  expectedErrorCategories : List String
  healingRequired : Bool

def ReconciledEpoch.unchecked : ReconciledEpoch := ⟨0, none, ""⟩
def ReplayGap.unchecked : ReplayGap := ⟨0, 0⟩

def Expectations.unchecked : Expectations :=
  ⟨false, "", 0, 0, .unchecked, .unchecked, [], false⟩

structure Scenario where
  scenarioId : String
  tags : List String
  groupContext : Json.Object
  graph : Graph
  events : List Event
  expectations : Expectations

inductive Failure
  | detectionMismatch
  | missingDetectionMs
  | detectionTooLate
  | unexpectedDetectionMs
  | winningHashMismatch
  | winningEpochMismatch
  | missingReconciliation
  | reconciliationTooLate
  | replayGapMessages
  | missingErrorCategories
  deriving DecidableEq

def Failure.name : Failure → String
  | .detectionMismatch => "detection_mismatch"
  | .missingDetectionMs => "missing_detection_ms"
  | .detectionTooLate => "detection_sla"
  | .unexpectedDetectionMs => "unexpected_detection_ms"
  | .winningHashMismatch => "winning_hash_mismatch"
  | .winningEpochMismatch => "winning_epoch_mismatch"
  | .missingReconciliation => "missing_reconciliation"
  | .reconciliationTooLate => "reconciliation_sla"
  | .replayGapMessages => "replay_gap_messages"
  | .missingErrorCategories => "missing_error_categories"

/-- Whether a value exceeds a bound that is one. -/
def exceeds (n bound : Int) : Bool :=
  0 < bound && bound < n

namespace Expectations

def timing (e : Expectations) (detectionMs : Option Int) : List Failure :=
  if e.detected then
    match detectionMs with
    | none => [.missingDetectionMs]
    | some ms => if exceeds ms e.maxDetectionMs then [.detectionTooLate] else []
  else if detectionMs.getD 0 ≠ 0 then [.unexpectedDetectionMs]
  else []

/-- A scenario in which nothing was issued has no winner to check. -/
def winnerFailures (e : Expectations) : Option Winner → List Failure
  | none => []
  | some winner =>
    let want := e.reconciledEpoch
    (if want.hash = "" ∨ want.hash = winner.hash then [] else [.winningHashMismatch])
      ++ (if want.epochId = 0 ∨ want.epochId = winner.epochId then [] else [.winningEpochMismatch])

def healing (e : Expectations) (reconciliationMs : Option Int) : List Failure :=
  if e.healingRequired then
    match reconciliationMs with
    | none => [.missingReconciliation]
    | some ms => if exceeds ms e.maxReconciliationMs then [.reconciliationTooLate] else []
  else []

def missing (e : Expectations) (errors : List String) : List String :=
  e.expectedErrorCategories.filter (!errors.contains ·)

def failures (e : Expectations) (o : Outcome) : List Failure :=
  (if o.detection = e.detected then [] else [.detectionMismatch])
    ++ e.timing o.detectionMs
    ++ e.winnerFailures o.winner
    ++ e.healing o.reconciliationMs
    ++ (if exceeds o.messagesDropped e.allowReplayGap.maxMessages then [.replayGapMessages] else [])
    ++ (if (e.missing o.errors).isEmpty then [] else [.missingErrorCategories])

end Expectations

def Scenario.simulate (s : Scenario) : Except Fault Outcome :=
  (EpochFork.simulate s.graph (.ofName s.expectations.detectionReference) s.events).mapError
    (Refusal.fault s.scenarioId)

/-- By a program that checks its sums; there is none if one of them does not fit. -/
def Scenario.simulateChecked (s : Scenario) : Option (Except Fault Outcome) :=
  (EpochFork.simulateChecked s.graph (.ofName s.expectations.detectionReference) s.events).map
    (·.mapError (Refusal.fault s.scenarioId))

def optionalInt : Option Int → Json
  | some n => .ofInt n
  | none => .null

def winnerMetrics : Option Winner → List (String × Json)
  | some w => [("winning_node_id", .text w.nodeId), ("winning_epoch_id", .ofInt w.epochId),
      ("winning_hash", .text w.hash)]
  | none => []

def Outcome.report (scenarioId : String) (e : Expectations) (o : Outcome) : Report :=
  let report := (Report.new scenarioId).failAll ((e.failures o).map Failure.name)
  let report := report.withNotes ((e.missing o.errors).map fun category =>
    s!"expected error {category} not observed")
  let report := report.setMetrics ([("detection", .boolean o.detection),
    ("detection_ms", optionalInt o.detectionMs),
    ("reconciliation_ms", optionalInt o.reconciliationMs),
    ("messages_dropped", .ofInt o.messagesDropped)] ++ winnerMetrics o.winner)
  report.withErrors o.errors

def Scenario.report (s : Scenario) : Except Fault Report := do
  return (← s.simulate).report s.scenarioId s.expectations

/-- The first scenario that cannot be simulated, or whose name was used before, ends the run. -/
def run (scenarios : List Scenario) : Except Fault Summary :=
  scenarios.foldlM (fun summary s => do summary.record (← s.report))
    (Summary.own "epoch_fork")

open Json.Reader

def Node.reader : Json.Reader Node :=
  record ["node_id", "epoch_id", "eare_hash", "previous_epoch_hash", "membership_digest",
    "parent_id", "issued_by", "timestamp_ms"] fun fields => do
    return {
      nodeId := ← fields.required "node_id" text
      epochId := ← fields.required "epoch_id" signed
      hash := ← fields.required "eare_hash" text
      previousHash := ← fields.optionalOrDefault "previous_epoch_hash" text
      membershipDigest := ← fields.optionalOrDefault "membership_digest" text
      parentId := ← fields.optionalOrDefault "parent_id" text
      issuedBy := ← fields.orDefault "issued_by" text ""
      timestampMs := ← fields.orDefault "timestamp_ms" signed 0 }

def Edge.reader : Json.Reader Edge :=
  record ["from", "to", "type"] fun fields => do
    return {
      source := ← fields.required "from" text
      target := ← fields.required "to" text
      kind := ← fields.optionalOrDefault "type" text }

def Graph.reader : Json.Reader Graph :=
  record ["nodes", "edges"] fun fields => do
    return {
      nodes := ← fields.orDefault "nodes" (list Node.reader) []
      edges := ← fields.orDefault "edges" (list Edge.reader) [] }

def Event.reader : Json.Reader Event :=
  record ["t", "event", "controller", "epoch_id", "node_id", "participants", "reconcile_strategy",
    "count", "faults"] fun fields => do
    return {
      time := ← fields.orDefault "t" signed 0
      kind := ← fields.required "event" text
      controller := ← fields.optionalOrDefault "controller" text
      epochId := ← fields.optionalOrDefault "epoch_id" signed
      nodeId := ← fields.optionalOrDefault "node_id" text
      participants := ← fields.orDefault "participants" (list text) []
      reconcileStrategy := ← fields.optionalOrDefault "reconcile_strategy" text
      count := ← fields.optionalOrDefault "count" signed
      faults := ← fields.orDefault "faults" (list text) [] }

def ReconciledEpoch.reader : Json.Reader ReconciledEpoch :=
  record ["epoch_id", "node_id", "eare_hash"] fun fields => do
    return {
      epochId := ← fields.orDefault "epoch_id" signed 0
      nodeId := ← fields.optionalOrDefault "node_id" text
      hash := ← fields.orDefault "eare_hash" text "" }

def ReplayGap.reader : Json.Reader ReplayGap :=
  record ["max_messages", "max_ms"] fun fields => do
    return {
      maxMessages := ← fields.orDefault "max_messages" signed 0
      maxMs := ← fields.orDefault "max_ms" signed 0 }

def Expectations.reader : Json.Reader Expectations :=
  record ["detected", "detection_reference", "max_detection_ms", "max_reconciliation_ms",
    "reconciled_epoch", "allow_replay_gap", "expected_error_categories",
    "healing_required"] fun fields => do
    return {
      detected := ← fields.orDefault "detected" boolean false
      detectionReference := ← fields.orDefault "detection_reference" text ""
      maxDetectionMs := ← fields.orDefault "max_detection_ms" signed 0
      maxReconciliationMs := ← fields.orDefault "max_reconciliation_ms" signed 0
      reconciledEpoch := ← fields.orDefault "reconciled_epoch" ReconciledEpoch.reader .unchecked
      allowReplayGap := ← fields.orDefault "allow_replay_gap" ReplayGap.reader .unchecked
      expectedErrorCategories := ← fields.orDefault "expected_error_categories" (list text) []
      healingRequired := ← fields.orDefault "healing_required" boolean false }

def Scenario.reader : Json.Reader Scenario :=
  record ["scenario_id", "tags", "group_context", "graph", "event_stream",
    "expectations"] fun fields => do
    return {
      scenarioId := ← fields.required "scenario_id" text
      tags := ← fields.orDefault "tags" (list text) []
      groupContext := ← fields.orDefault "group_context" object []
      graph := ← fields.orDefault "graph" Graph.reader ⟨[], []⟩
      events := ← fields.orDefault "event_stream" (list Event.reader) []
      expectations := ← fields.orDefault "expectations" Expectations.reader .unchecked }

def corpus : Corpus (List Scenario) where
  reader := list Scenario.reader
  scenarioCount := List.length

end Conformance.EpochFork
