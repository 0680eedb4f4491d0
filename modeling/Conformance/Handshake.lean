import Conformance.Canonical.OfJson
import Conformance.KeySchedule.Derivation
import Conformance.Message.Vectors
/-!
# Handshake flows

A flow is the three messages of a handshake in their order. Each is validated by
itself, timestamps must not decrease, and the hash and the session identifier
that the last message claims are recomputed from the second.
-/
namespace Conformance.Handshake
open Conformance

def order : List Message.Kind :=
  [.handshakeInit, .handshakeResponse, .handshakeComplete]

structure Step where
  number : Option Nat
  sender : Option String
  receiver : Option String
  message : Json

structure Flow where
  description : String
  steps : List Step

/-- What a response determines. -/
structure Derived where
  handshakeHash : Bytes
  sessionId : Bytes
  deriving DecidableEq

/-- The digest of the canonical response, and the session identifier expanded from it. -/
def derive (response : Json) : Except Canonical.EncodeRefusal Derived := do
  let hash ← Canonical.digest (← Canonical.ofJson response)
  return ⟨hash, KeySchedule.sessionId hash⟩

def claim (complete : Json) (field : String) : String :=
  ((complete.get? field).bind Json.text?).getD ""

/-- What a completing message claims wrongly. -/
def mismatches (complete : Json) (derived : Derived) : List String :=
  [("handshake_hash", Text.Base64.encode derived.handshakeHash),
    ("session_id", Text.Base64.encode derived.sessionId)].filterMap fun (field, computed) =>
      let claimed := claim complete field
      if claimed = computed then none else some s!"{field} mismatch: {claimed} != {computed}"

def timestamp? (message : Json) : Option Nat :=
  (message.get? "timestamp").bind Json.unsigned?

def checkTimestamp (report : Report) : (previous now : Option Nat) → Report
  | some previous, some now =>
    report.check (previous ≤ now) s!"timestamp {now} precedes {previous}"
  | _, _ => report

/-- The report of one step by itself; `previous` is the last timestamp before it. -/
def stepReport (position : Nat) (expected : Message.Kind) (previous : Option Nat) (message : Json) :
    Report :=
  let validation := Message.validate message
  let report := Report.new s!"handshake_flow::step_{position}"
  let report := (report.withErrors validation.messages).withNotes validation.warnings
  let report := report.check validation.valid "schema violations"
  let report := report.check (validation.kind == some expected)
    s!"expected {expected.name} at step {position}"
  checkTimestamp report previous (timestamp? message)

def derivationReport (response complete : Json) : Report :=
  let report := Report.new "handshake_flow::derivation"
  match derive response with
  | .ok derived =>
    (report.setMetrics [("handshake_hash", .text (Text.Base64.encode derived.handshakeHash)),
      ("session_id", .text (Text.Base64.encode derived.sessionId))]).failAll
        (mismatches complete derived)
  | .error refusal => report.fail ("derivation failed: " ++ refusal.fault.message)

/-- The reports of the three steps and of the derivation; `extra` steps follow the last. -/
def reports (init response complete : Json) (extra : Nat) : List Report :=
  let first := timestamp? init
  let second := (timestamp? response).or first
  [stepReport 1 .handshakeInit none init,
    stepReport 2 .handshakeResponse first response,
    (stepReport 3 .handshakeComplete second complete).check (extra == 0)
      s!"{extra} unexpected step(s) after {Message.Kind.handshakeComplete.name}",
    derivationReport response complete]

def tooFew (steps : Nat) : Fault :=
  ⟨.corpus, s!"handshake_flow has {steps} steps, need {order.length}"⟩

def Flow.run (flow : Flow) : Except Fault Summary :=
  match flow.steps with
  | init :: response :: complete :: extra =>
    (Summary.own "handshake_flow").recordAll
      (reports init.message response.message complete.message extra.length)
  | steps => .error (tooFew steps.length)

open Json.Reader

def Step.reader : Json.Reader Step :=
  record ["step", "from", "to", "message"] fun fields => do
    return {
      number := ← fields.optionalOrDefault "step" unsigned
      sender := ← fields.optionalOrDefault "from" text
      receiver := ← fields.optionalOrDefault "to" text
      message := ← fields.required "message" value }

def Flow.reader : Json.Reader Flow :=
  record ["description", "steps"] fun fields => do
    return {
      description := ← fields.orDefault "description" text ""
      steps := ← fields.required "steps" (list Step.reader) }

/-- A document whose other sections are skipped. -/
def Flow.corpus : Corpus Flow where
  reader := record ["handshake_flow"] fun fields => fields.required "handshake_flow" Flow.reader
  scenarioCount := fun flow => flow.steps.length

end Conformance.Handshake
