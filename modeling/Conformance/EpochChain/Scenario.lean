import Conformance.Corpus
/-!
# Epoch chain scenarios

A scenario is a chain of epoch records that name their predecessors by hash, the
corruptions that are applied to it, and what a verifier is expected to find.
-/
namespace Conformance.EpochChain
open Conformance

structure GroupContext where
  groupId : String
  membershipVersion : Int
  epochSizeLimit : Int

structure Node where
  nodeId : String
  epochId : Int
  hash : String
  issuedBy : String
  previousHash : String
  membershipDigest : String
  payload : Option Json

/-- A corruption of one node, or of every node. -/
structure Directive where
  kind : String
  targetNode : Option String
  fields : Option Json.Object
  payloadPatch : Option Json
  reason : Option String

def wildcard : String := "*"

def Directive.target (d : Directive) : String :=
  d.targetNode.getD wildcard

/-- What a verifier is expected to find; a bound of zero on the detection time is no bound. -/
structure Expectations where
  shouldDetect : Bool
  expectedErrors : List String
  maxDetectionMs : Nat
  allowPartialAccept : Bool
  residualDivergenceAllowed : Bool

structure Scenario where
  scenarioId : String
  tags : List String
  group : GroupContext
  nodes : List Node
  corruptions : List Directive
  expectations : Expectations

open Json.Reader

def GroupContext.reader : Json.Reader GroupContext :=
  record ["group_id", "membership_version", "epoch_size_limit"] fun fields => do
    return {
      groupId := ← fields.required "group_id" text
      membershipVersion := ← fields.orDefault "membership_version" signed 0
      epochSizeLimit := ← fields.orDefault "epoch_size_limit" signed 0 }

def Node.reader : Json.Reader Node :=
  record ["node_id", "epoch_id", "eare_hash", "issued_by", "previous_epoch_hash",
    "membership_digest", "payload"] fun fields => do
    return {
      nodeId := ← fields.required "node_id" text
      epochId := ← fields.required "epoch_id" signed
      hash := ← fields.required "eare_hash" text
      issuedBy := ← fields.required "issued_by" text
      previousHash := ← fields.required "previous_epoch_hash" text
      membershipDigest := ← fields.required "membership_digest" text
      payload := ← fields.optionalOrDefault "payload" value }

def Directive.reader : Json.Reader Directive :=
  record ["type", "target_node", "fields", "payload_patch", "reason"] fun fields => do
    return {
      kind := ← fields.orDefault "type" text ""
      targetNode := ← fields.optionalOrDefault "target_node" text
      fields := ← fields.optionalOrDefault "fields" object
      payloadPatch := ← fields.optionalOrDefault "payload_patch" value
      reason := ← fields.optionalOrDefault "reason" text }

def Expectations.reader : Json.Reader Expectations :=
  record ["should_detect", "expected_errors", "max_detection_ms", "allow_partial_accept",
    "residual_divergence_allowed"] fun fields => do
    return {
      shouldDetect := ← fields.required "should_detect" boolean
      expectedErrors := ← fields.orDefault "expected_errors" (list text) []
      maxDetectionMs := ← fields.orDefault "max_detection_ms" unsigned 0
      allowPartialAccept := ← fields.orDefault "allow_partial_accept" boolean false
      residualDivergenceAllowed := ← fields.orDefault "residual_divergence_allowed" boolean false }

def Scenario.reader : Json.Reader Scenario :=
  record ["scenario_id", "tags", "group_context", "nodes", "corruptions",
    "expectations"] fun fields => do
    return {
      scenarioId := ← fields.required "scenario_id" text
      tags := ← fields.orDefault "tags" (list text) []
      group := ← fields.required "group_context" GroupContext.reader
      nodes := ← fields.required "nodes" (list Node.reader)
      corruptions := ← fields.orDefault "corruptions" (list Directive.reader) []
      expectations := ← fields.required "expectations" Expectations.reader }

def corpus : Corpus (List Scenario) where
  reader := list Scenario.reader
  scenarioCount := List.length

end Conformance.EpochChain
