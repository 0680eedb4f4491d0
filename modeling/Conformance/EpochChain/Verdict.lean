import Conformance.EpochChain.Verifier
import Conformance.Report
/-!
# Verdicts on epoch chains

A result is compared with what was expected in five independent checks, and a
scenario passes when none of them fails.
-/
namespace Conformance.EpochChain
open Conformance

inductive Failure
  | detectionMismatch
  | missingDetectionMs
  | detectionTooLate
  | unexpectedDetectionMs
  | missingExpectedErrors
  | partialAcceptNotAllowed
  | residualDivergence
  deriving DecidableEq

def Failure.name : Failure → String
  | .detectionMismatch => "detection_mismatch"
  | .missingDetectionMs => "missing_detection_ms"
  | .detectionTooLate => "detection_sla"
  | .unexpectedDetectionMs => "unexpected_detection_ms"
  | .missingExpectedErrors => "missing_expected_errors"
  | .partialAcceptNotAllowed => "partial_accept_not_allowed"
  | .residualDivergence => "residual_divergence"

def Failure.fault (f : Failure) : Fault :=
  ⟨.detectionMismatch, f.name⟩

namespace Expectations

def missing (e : Expectations) (errors : List String) : List String :=
  e.expectedErrors.filter (!errors.contains ·)

/-- Where detection is expected it must have a time, within the bound if there is one; where it is
not, no time but zero may be reported. -/
def timing (e : Expectations) (detectionMs : Option Nat) : List Failure :=
  if e.shouldDetect then
    match detectionMs with
    | none => [.missingDetectionMs]
    | some ms => if 0 < e.maxDetectionMs ∧ e.maxDetectionMs < ms then [.detectionTooLate] else []
  else if (detectionMs.getD 0) ≠ 0 then [.unexpectedDetectionMs]
  else []

def failures (e : Expectations) (r : Result) : List Failure :=
  (if r.detection = e.shouldDetect then [] else [.detectionMismatch])
    ++ e.timing r.detectionMs
    ++ (if (e.missing r.errors).isEmpty then [] else [.missingExpectedErrors])
    ++ (if e.allowPartialAccept ∨ r.metrics.rejectedNodes = 0 then []
        else [.partialAcceptNotAllowed])
    ++ (if e.residualDivergenceAllowed ∨ r.metrics.hashChainBreaks = 0 then []
        else [.residualDivergence])

end Expectations

def Scenario.report (s : Scenario) : Report :=
  let result := s.simulate
  let e := s.expectations
  let report := (Report.new s.scenarioId).failAll ((e.failures result).map Failure.name)
  let unobserved := (e.missing result.errors).map fun code => s!"expected error {code} not observed"
  let unregistered := (e.expectedErrors.filter (!Code.isRegistered ·)).map fun code =>
    s!"expected error {code} is not a registered code"
  { report with
    errors := result.errors
    metrics := result.metrics.toObject
    notes := unobserved ++ unregistered ++ result.notes }

def run (scenarios : List Scenario) : Except Fault Summary :=
  (Summary.own "corrupted_eare").recordAll (scenarios.map Scenario.report)

open Json.Reader

def Metrics.reader : Json.Reader Metrics :=
  record ["chain_length", "hash_chain_breaks", "corruptions_applied", "accepted_nodes",
    "rejected_nodes"] fun fields => do
    return {
      chainLength := ← fields.required "chain_length" unsigned
      hashChainBreaks := ← fields.required "hash_chain_breaks" unsigned
      corruptionsApplied := ← fields.required "corruptions_applied" unsigned
      acceptedNodes := ← fields.required "accepted_nodes" unsigned
      rejectedNodes := ← fields.required "rejected_nodes" unsigned }

end Conformance.EpochChain
