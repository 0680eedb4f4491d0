import Conformance.Corpus
import Conformance.Decimal.Notation
import Conformance.Poisoning.Checks
import Conformance.Replay.Profiles
/-!
# Replay and poisoning corpora

A corpus has seven sections, each of which may be left out. Scenarios are named
by their section and their own name, and reported section by section.
-/
namespace Conformance.Poisoning
open Conformance

structure ReplayCase where
  name : String
  sequenceNumbers : List Int
  expectedDetection : Bool
  notes : Option String

structure ReplayCases where
  windowSize : Int
  cases : List ReplayCase

def ReplayCases.none : ReplayCases := ⟨0, []⟩

structure ForkCase where
  name : String
  expectedFork : Bool
  timeline : List TimelineEntry

structure StormCase where
  profileId : String
  burstRate : Float
  duration : Float
  expectedDropRatio : Float

structure StormCases where
  windowSize : Int
  capacityPerMs : Float
  cases : List StormCase

def StormCases.none : StormCases := ⟨0, 0.0, []⟩

structure Sections where
  replayAttacks : ReplayCases
  windowBoundaries : ReplayCases
  injections : List Attack
  forks : List ForkCase
  epochRecords : List EpochRecord
  rules : List Rule
  storms : StormCases

def Sections.count (s : Sections) : Nat :=
  s.replayAttacks.cases.length + s.windowBoundaries.cases.length + s.injections.length
    + s.forks.length + s.epochRecords.length + s.rules.length + s.storms.cases.length

def scenarioId (section_ name : String) : String :=
  section_ ++ "::" ++ name

def ReplayCase.report (section_ : String) (windowSize : Int) (c : ReplayCase) : Report :=
  let detected := Replay.detect windowSize c.sequenceNumbers
  let report := (Report.new (scenarioId section_ c.name)).setMetrics
    [("window", .ofInt windowSize), ("detected", .boolean detected),
      ("expected", .boolean c.expectedDetection)]
  let report := report.check (detected == c.expectedDetection)
    s!"detected={detected}, expected={c.expectedDetection}"
  report.withNotes (Replay.presentNotes c.notes)

def ReplayCases.reports (section_ : String) (cases : ReplayCases) : List Report :=
  cases.cases.map (ReplayCase.report section_ cases.windowSize)

def Attack.report (attack : Attack) : Report :=
  let violations := attack.violations
  let report := (Report.new (scenarioId "poisoning" attack.name)).setMetric "violations"
    (.ofNat violations)
  let report := report.check (0 < violations) "injected values went undetected"
  if attack.expectedDefense = "" then report
  else report.note ("expected_defense=" ++ attack.expectedDefense)

def ForkCase.report (c : ForkCase) : Report :=
  let detected := isForked c.timeline
  let report := (Report.new (scenarioId "epoch_fork" c.name)).setMetrics
    [("fork_detected", .boolean detected), ("timeline_length", .ofNat c.timeline.length)]
  report.check (detected == c.expectedFork)
    s!"fork_detected={detected}, expected={c.expectedFork}"

def EpochRecord.report (record : EpochRecord) : Report :=
  let valid := record.valid
  let report := (Report.new (scenarioId "eare" record.recordId)).setMetrics
    [("hash_bytes", .ofInt record.hashLength), ("min_hash_bytes", .ofInt record.minHashLength)]
  let report := report.withErrors (record.missing.map ("missing field " ++ ·))
  report.check (valid == record.expectedValid) s!"valid={valid}, expected={record.expectedValid}"

def Rule.report (rule : Rule) : Report :=
  let enforced := rule.enforced
  let report := (Report.new (scenarioId "anti_poisoning" rule.ruleId)).setMetric "enforced"
    (.boolean enforced)
  let report := report.check (enforced == rule.expectedEnforced)
    s!"enforced={enforced}, expected={rule.expectedEnforced}"
  if rule.switches.condition?.isNone then report.note "no recognized condition" else report

def StormCases.model (storms : StormCases) : Replay.StormModel Float :=
  ⟨Decimal.nearest storms.windowSize, storms.capacityPerMs⟩

def StormCase.report (model : Replay.StormModel Float) (c : StormCase) : Report :=
  let outcome := model.evaluate c.burstRate c.duration
  let report := (Report.new (scenarioId "replay_storm" c.profileId)).setMetrics
    [("drop_ratio", .ofFloat outcome.dropRatio),
      ("expected_drop_ratio", .ofFloat c.expectedDropRatio),
      ("capacity", .ofFloat outcome.capacity)]
  report.check (model.accepts c.burstRate c.duration c.expectedDropRatio)
    ("drop_ratio " ++ Decimal.fixed 2 outcome.dropRatio ++ ", expected "
      ++ Decimal.fixed 2 c.expectedDropRatio)

def Sections.reports (s : Sections) : List Report :=
  s.replayAttacks.reports "replay_attack" ++ s.windowBoundaries.reports "replay_window"
    ++ s.injections.map Attack.report ++ s.forks.map ForkCase.report
    ++ s.epochRecords.map EpochRecord.report ++ s.rules.map Rule.report
    ++ s.storms.cases.map (StormCase.report s.storms.model)

def Sections.run (s : Sections) : Except Fault Summary :=
  (Summary.own "replay_poisoning").recordAll s.reports

open Json.Reader

def ReplayCase.reader : Json.Reader ReplayCase :=
  record ["case", "sequence_numbers", "expected_detection", "notes"] fun fields => do
    return {
      name := ← fields.required "case" text
      sequenceNumbers := ← fields.required "sequence_numbers" (list signed)
      expectedDetection := ← fields.required "expected_detection" boolean
      notes := ← fields.optionalOrDefault "notes" text }

def ReplayCases.reader : Json.Reader ReplayCases :=
  record ["window_size", "test_cases"] fun fields => do
    return {
      windowSize := ← fields.orDefault "window_size" signed 0
      cases := ← fields.orDefault "test_cases" (list ReplayCase.reader) [] }

def ForkCase.reader : Json.Reader ForkCase :=
  record ["scenario", "expected_fork_detected", "timeline"] fun fields => do
    return {
      name := ← fields.required "scenario" text
      expectedFork := ← fields.required "expected_fork_detected" boolean
      timeline := ← fields.required "timeline" (list TimelineEntry.reader) }

def StormCase.reader : Json.Reader StormCase :=
  record ["profile_id", "burst_rate", "duration_ms", "expected_drop_ratio"] fun fields => do
    return {
      profileId := ← fields.required "profile_id" text
      burstRate := ← fields.required "burst_rate" real
      duration := ← fields.required "duration_ms" real
      expectedDropRatio := ← fields.required "expected_drop_ratio" real }

def StormCases.reader : Json.Reader StormCases :=
  record ["window_size", "capacity_per_ms", "profiles"] fun fields => do
    return {
      windowSize := ← fields.orDefault "window_size" signed 0
      capacityPerMs := ← fields.orDefault "capacity_per_ms" real 0.0
      cases := ← fields.orDefault "profiles" (list StormCase.reader) [] }

/-- A section that holds nothing but a list. -/
def listSection {α : Type} (name : String) (item : Json.Reader α) : Json.Reader (List α) :=
  record [name] fun fields => fields.orDefault name (list item) []

def Sections.corpus : Corpus Sections where
  reader := record ["replay_attack_detection", "replay_window_boundaries", "poisoning_injection",
    "epoch_fork_detection", "malformed_eare", "anti_poisoning_rules",
    "replay_storm_simulation"] fun fields => do
    return {
      replayAttacks := ← fields.orDefault "replay_attack_detection" ReplayCases.reader .none
      windowBoundaries := ← fields.orDefault "replay_window_boundaries" ReplayCases.reader .none
      injections := ← fields.orDefault "poisoning_injection"
        (listSection "attack_vectors" Attack.reader) []
      forks := ← fields.orDefault "epoch_fork_detection"
        (listSection "scenarios" ForkCase.reader) []
      epochRecords := ← fields.orDefault "malformed_eare"
        (listSection "records" EpochRecord.reader) []
      rules := ← fields.orDefault "anti_poisoning_rules" (listSection "rules" Rule.reader) []
      storms := ← fields.orDefault "replay_storm_simulation" StormCases.reader .none }
  scenarioCount := Sections.count

end Conformance.Poisoning
