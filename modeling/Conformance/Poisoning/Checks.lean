import Conformance.Json.Record
import Conformance.Replay.Window
import Conformance.Text.Hex
/-!
# Poisoning checks

Checks for injected field values, forked timelines, malformed epoch records and
messages that break a rule against poisoning. Each takes one record of a corpus
and decides it by itself.
-/
namespace Conformance.Poisoning
open Conformance

structure Attack where
  name : String
  maliciousFields : List Json.Object
  expectedDefense : String

/-- The rest of a key after its opening word. -/
def afterWord? (word key : String) : Option String :=
  if word.toList.isPrefixOf key.toList then
    some (String.ofList (key.toList.drop word.toList.length))
  else none

/-- Whether an entry expects a value from which the actual value differs. -/
def isViolated (fields : Json.Object) (entry : String × Json) : Bool :=
  match afterWord? "expected_" entry.1 with
  | none => false
  | some subject =>
    match Json.Object.get? ("actual_" ++ subject) fields with
    | none => false
    | some actual => !(actual == entry.2)

def Attack.violations (attack : Attack) : Nat :=
  (attack.maliciousFields.flatMap fun fields => fields.filter (isViolated fields)).length

structure TimelineEntry where
  epochId : String
  parent : Option String
  deriving DecidableEq

/-- Whether some epoch is mentioned as a parent more than once. -/
def isForked (timeline : List TimelineEntry) : Bool :=
  let parents := timeline.filterMap (·.parent)
  parents.any fun parent => 1 < parents.count parent

structure EpochRecord where
  recordId : String
  fields : Json.Object
  requiredFields : List String
  hashBytes : Option Int
  minHashBytes : Option Int
  expectedValid : Bool

namespace EpochRecord

/-- The stated length of the hash unless it is zero, else that of the hash itself; text that is not
hexadecimal has no bytes. -/
def hashLength (record : EpochRecord) : Int :=
  match record.hashBytes.filter (· ≠ 0) with
  | some stated => stated
  | none =>
    match Json.Object.get? "hash" record.fields with
    | some (.text hash) => ((Text.Hex.decode hash).toOption.map (·.length)).getD 0
    | _ => 0

def missing (record : EpochRecord) : List String :=
  record.requiredFields.filter fun field => (Json.Object.get? field record.fields).isNone

def minHashLength (record : EpochRecord) : Int :=
  record.minHashBytes.getD 32

def valid (record : EpochRecord) : Bool :=
  record.missing.isEmpty && record.minHashLength ≤ record.hashLength

end EpochRecord

/-- The switches of a rule as they are written. -/
structure Switches where
  maxDrift : Option Float
  requireBinding : Bool
  allowMissingAad : Bool

/-- The one condition that a rule enforces: a bound on how far the nonce counter has moved, equality
of the sender with the authenticated one, or the absence of authenticated data. -/
inductive Condition
  | maxDrift (limit : Float)
  | requireBinding
  | allowMissingAad

def Condition.name : Condition → String
  | .maxDrift _ => "max_drift"
  | .requireBinding => "require_binding"
  | .allowMissingAad => "allow_missing_aad"

/-- The first condition that is switched on. -/
def Switches.condition? (s : Switches) : Option Condition :=
  match s.maxDrift with
  | some limit => some (.maxDrift limit)
  | none =>
    if s.requireBinding then some .requireBinding
    else if s.allowMissingAad then some .allowMissingAad
    else none

structure Rule where
  ruleId : String
  switches : Switches
  sample : Json.Object
  expectedEnforced : Bool

/-- A counter of a message; what is no 64-bit signed integer or truth value counts as zero. -/
def counter (sample : Json.Object) (key : String) : Int :=
  match Json.Object.get? key sample with
  | some (.number n) => ((Json.number n).signed?).getD 0
  | some (.boolean b) => if b then 1 else 0
  | _ => 0

def drift (sample : Json.Object) : Int :=
  Word.saturate (counter sample "nonce_counter" - counter sample "last_nonce_counter")

/-- Two absent fields agree. -/
def agree : Option Json → Option Json → Bool
  | none, none => true
  | some a, some b => a == b
  | _, _ => false

def isBound (sample : Json.Object) : Bool :=
  agree (Json.Object.get? "sender_id" sample) (Json.Object.get? "aad_sender" sample)

def lacksAad (sample : Json.Object) : Bool :=
  match Json.Object.get? "aad" sample with
  | none => true
  | some .null => true
  | some _ => false

def Condition.holds (sample : Json.Object) : Condition → Bool
  | .maxDrift limit => Decimal.nearest (drift sample) ≤ limit
  | .requireBinding => isBound sample
  | .allowMissingAad => lacksAad sample

/-- A rule without a condition is enforced by every message. -/
def Rule.enforced (rule : Rule) : Bool :=
  match rule.switches.condition? with
  | some condition => condition.holds rule.sample
  | none => true

open Json.Reader

def Attack.reader : Json.Reader Attack :=
  record ["attack_name", "malicious_fields", "expected_defense"] fun fields => do
    return {
      name := ← fields.required "attack_name" text
      maliciousFields := ← fields.required "malicious_fields" (list object)
      expectedDefense := ← fields.orDefault "expected_defense" text "" }

def TimelineEntry.reader : Json.Reader TimelineEntry :=
  record ["epoch_id", "parent"] fun fields => do
    return {
      epochId := ← fields.required "epoch_id" text
      parent := ← fields.optionalOrDefault "parent" text }

def EpochRecord.reader : Json.Reader EpochRecord :=
  record ["record_id", "fields", "required_fields", "hash_bytes", "min_hash_bytes",
    "expected_valid"] fun fields => do
    return {
      recordId := ← fields.required "record_id" text
      fields := ← fields.required "fields" object
      requiredFields := ← fields.orDefault "required_fields" (list text) []
      hashBytes := ← fields.optionalOrDefault "hash_bytes" signed
      minHashBytes := ← fields.optionalOrDefault "min_hash_bytes" signed
      expectedValid := ← fields.required "expected_valid" boolean }

def Switches.reader : Json.Reader Switches :=
  record ["max_drift", "require_binding", "allow_missing_aad"] fun fields => do
    return {
      maxDrift := ← fields.optionalOrDefault "max_drift" real
      requireBinding := ← fields.orDefault "require_binding" boolean false
      allowMissingAad := ← fields.orDefault "allow_missing_aad" boolean false }

def Rule.reader : Json.Reader Rule :=
  record ["rule_id", "conditions", "sample_message", "expected_enforced"] fun fields => do
    return {
      ruleId := ← fields.required "rule_id" text
      switches := ← fields.required "conditions" Switches.reader
      sample := ← fields.required "sample_message" object
      expectedEnforced := ← fields.required "expected_enforced" boolean }

end Conformance.Poisoning
