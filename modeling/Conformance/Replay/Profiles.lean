import Conformance.Corpus
import Conformance.Decimal.Notation
import Conformance.Replay.Storm
import Conformance.Report
/-!
# Storm profiles

A profile is a burst with the drop ratio that is expected of it and the ratio
from which on an alert is raised. All profiles of a set share one queue.
-/
namespace Conformance.Replay
open Conformance

structure Profile where
  profileId : String
  burstRate : Float
  duration : Float
  expectedDropRatio : Float
  alertThreshold : Float
  expectedAlert : Bool
  notes : Option String

structure ProfileSet where
  description : String
  windowSize : Float
  capacityPerMs : Float
  queueLimit : Option Float
  tolerance : Float
  profiles : List Profile

structure StormMetrics where
  dropRatio : Float
  deliveryRatio : Float
  deepest : Float
  latency : Float
  alert : Bool

def Queue.simulate (q : Queue Float) (burstRate duration alertThreshold : Float) : StormMetrics :=
  let traffic := q.run burstRate (wholeMilliseconds duration) .none
  { dropRatio := traffic.dropRatio
    deliveryRatio := traffic.deliveryRatio
    deepest := traffic.deepest
    latency := traffic.latency duration
    alert := alertThreshold ≤ traffic.dropRatio }

def ProfileSet.queue (set : ProfileSet) : Queue Float :=
  .new defaultLimitFactor set.windowSize set.capacityPerMs set.queueLimit

def dropRatioFailure (observed expected tolerance : Float) : String :=
  "drop_ratio " ++ Decimal.fixed 4 observed ++ " outside ±" ++ Decimal.plain tolerance ++ " of "
    ++ Decimal.plain expected

/-- Notes that hold nothing are left out. -/
def presentNotes (notes : Option String) : List String :=
  notes.toList.filter (· ≠ "")

def Profile.report (queue : Queue Float) (tolerance : Float) (p : Profile) : Report :=
  let m := queue.simulate p.burstRate p.duration p.alertThreshold
  let report := (Report.new p.profileId).setMetrics
    [("drop_ratio", .ofFloat m.dropRatio),
      ("expected_drop_ratio", .ofFloat p.expectedDropRatio),
      ("drop_ratio_delta", .ofFloat (m.dropRatio - p.expectedDropRatio).abs),
      ("delivery_ratio", .ofFloat m.deliveryRatio),
      ("max_queue_depth", .ofFloat m.deepest),
      ("latency_penalty", .ofFloat m.latency),
      ("alert_triggered", .boolean m.alert),
      ("queue_limit", .ofFloat queue.limit)]
  let report := report.check (within m.dropRatio p.expectedDropRatio tolerance)
    (dropRatioFailure m.dropRatio p.expectedDropRatio tolerance)
  let report := report.check (m.alert == p.expectedAlert)
    s!"alert expected={p.expectedAlert}, observed={m.alert}"
  report.withNotes (presentNotes p.notes)

def ProfileSet.run (set : ProfileSet) : Except Fault Summary :=
  (Summary.own "replay_storm").recordAll
    (set.profiles.map (Profile.report set.queue set.tolerance))

open Json.Reader

def Profile.reader : Json.Reader Profile :=
  record ["profile_id", "burst_rate", "duration_ms", "expected_drop_ratio", "alert_threshold",
    "expected_alert", "notes"] fun fields => do
    return {
      profileId := ← fields.required "profile_id" text
      burstRate := ← fields.required "burst_rate" real
      duration := ← fields.required "duration_ms" real
      expectedDropRatio := ← fields.required "expected_drop_ratio" real
      alertThreshold := ← fields.required "alert_threshold" real
      expectedAlert := ← fields.required "expected_alert" boolean
      notes := ← fields.optionalOrDefault "notes" text }

def ProfileSet.corpus : Corpus ProfileSet where
  reader := record ["description", "window_size", "capacity_per_ms", "queue_limit", "tolerance",
    "profiles"] fun fields => do
    return {
      description := ← fields.orDefault "description" text ""
      windowSize := ← fields.required "window_size" real
      capacityPerMs := ← fields.required "capacity_per_ms" real
      queueLimit := ← fields.optionalOrDefault "queue_limit" real
      tolerance := ← fields.orDefault "tolerance" real 0.05
      profiles := ← fields.required "profiles" (list Profile.reader) }
  scenarioCount := fun set => set.profiles.length

end Conformance.Replay
