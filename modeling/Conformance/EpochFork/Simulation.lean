import Conformance.Corpus
import Conformance.EpochFork.Graph
import Conformance.Text.Numeral
import Conformance.Word
/-!
# Epoch forks

Events are replayed in the order of their times. Issuing a node makes a fork when
its epoch was issued with another hash only, or when its parent has other
children only. At a merge the deepest of the issued nodes wins. Times and counts
are signed words. Their sums wrap around, unless the program was built to check
them: then it stops at the first sum that does not fit.
-/
namespace Conformance.EpochFork
open Conformance

structure Event where
  time : Int
  kind : String
  controller : Option String
  epochId : Option Int
  nodeId : Option String
  participants : List String
  reconcileStrategy : Option String
  count : Option Int
  faults : List String

namespace Event

def isDropped (e : Event) : Bool :=
  e.faults.contains "drop_next_eare"

/-- The text after an opening, if the text has it. -/
def after? (opening text : List Char) : Option (List Char) :=
  if opening.isPrefixOf text then some (text.drop opening.length) else none

/-- The delay that the first fault about delays states; zero without a readable one. -/
def validationDelay (e : Event) : Int :=
  match e.faults.findSome? fun fault => after? "delay_validation:".toList fault.toList with
  | some stated =>
    (Text.signed64? (Text.trimBlank (String.ofList stated)).toList).getD 0
  | none => 0

/-- When that which the event does is seen. -/
def seenAt (e : Event) : Int :=
  e.time + e.validationDelay

/-- The node that the event issues, if it is an issue that is not dropped and names one. -/
def issued? (g : Graph) (e : Event) : Option Node :=
  if e.kind = "epoch_issue" ∧ e.isDropped = false then e.nodeId.bind g.get? else none

end Event

inductive Category
  | forkDetected
  | chainBreak
  deriving DecidableEq

def Category.name : Category → String
  | .forkDetected => "EPOCH_FORK_DETECTED"
  | .chainBreak => "HASH_CHAIN_BREAK"

/-- From when on the time of detection counts: from the fork itself, or from when it could be
seen. -/
inductive Reference
  | created
  | observable
  deriving DecidableEq

def Reference.ofName (name : String) : Reference :=
  if name = "fork_observable" then .observable else .created

structure Winner where
  nodeId : String
  epochId : Int
  hash : String
  deriving DecidableEq

structure Outcome where
  detection : Bool
  detectionMs : Option Int
  reconciliationMs : Option Int
  winner : Option Winner
  messagesDropped : Int
  errors : List String
  deriving DecidableEq

/-- The first fork: when its event happened and when it was seen. -/
structure Detection where
  created : Int
  seen : Int
  deriving DecidableEq

/-- How long after the fork it was seen. -/
def Detection.lag (d : Detection) : Int :=
  d.seen - d.created

/-- How long after it was seen the fork was merged. -/
def Detection.healing (d : Detection) (mergedAt : Int) : Int :=
  mergedAt - d.seen

/-- Issued nodes by epoch and by parent, each group in order of issue, and what was found so far. -/
structure Tracker where
  epochs : List (Int × List Node)
  children : List (String × List Node)
  detection : Option Detection
  mergedAt : Option Int
  messagesDropped : Int
  errors : List Category

/-- Appends to the group of a key; the group of a new key comes last. -/
def addTo {κ : Type} [DecidableEq κ] (key : κ) (node : Node) :
    List (κ × List Node) → List (κ × List Node)
  | [] => [(key, [node])]
  | (k, group) :: rest =>
    if k = key then (k, group ++ [node]) :: rest else (k, group) :: addTo key node rest

def group {κ : Type} [DecidableEq κ] (key : κ) (groups : List (κ × List Node)) : List Node :=
  (groups.lookup key).getD []

namespace Tracker

def new : Tracker :=
  ⟨[], [], none, none, 0, []⟩

def emit (t : Tracker) (category : Category) : Tracker :=
  if t.errors.contains category then t else { t with errors := t.errors ++ [category] }

/-- Nodes without a parent are grouped under the empty name. -/
def parentKey (node : Node) : String :=
  node.parentId.getD ""

def divergesInEpoch (t : Tracker) (node : Node) : Bool :=
  let same := group node.epochId t.epochs
  !same.isEmpty && !same.any (·.hash == node.hash)

def divergesFromSiblings (t : Tracker) (node : Node) : Bool :=
  let siblings := group (parentKey node) t.children
  node.parentId.isSome && !siblings.isEmpty
    && !siblings.any fun s => s.epochId == node.epochId && s.hash == node.hash

def isFork (t : Tracker) (node : Node) : Bool :=
  t.divergesInEpoch node || t.divergesFromSiblings node

/-- Only the first fork is recorded. -/
def detect (t : Tracker) (event : Event) : Tracker :=
  match t.detection with
  | some _ => t
  | none =>
    { t with detection := some ⟨event.time, Word.wrap event.seenAt⟩ }.emit .forkDetected

/-- Whether a node names another hash than that of its parent. -/
def breaksChain (g : Graph) (node : Node) : Bool :=
  match node.previousHash, node.parentId.bind g.get? with
  | some previous, some parent => parent.hash != previous
  | _, _ => false

def issue (g : Graph) (t : Tracker) (node : Node) (event : Event) : Tracker :=
  let fork := t.isFork node
  let t := { t with
    epochs := addTo node.epochId node t.epochs
    children := addTo (parentKey node) node t.children }
  let t := if fork then t.detect event else t
  if breaksChain g node then t.emit .chainBreak else t

def merge (t : Tracker) (event : Event) : Tracker :=
  { t with mergedAt := t.mergedAt.or (some event.time) }

/-- How many messages are dropped by the end of a replay attempt. -/
def dropsTo (t : Tracker) (event : Event) : Int :=
  t.messagesDropped + event.count.getD 0

def drop (t : Tracker) (event : Event) : Tracker :=
  { t with messagesDropped := Word.wrap (t.dropsTo event) }

def issued (t : Tracker) : List Node :=
  t.epochs.flatMap (·.2)

end Tracker

/-- By depth, then by epoch, then the earlier one, then by hash. -/
def rank (g : Graph) (a b : Node) : Ordering :=
  (compare (g.depth a.nodeId) (g.depth b.nodeId)).then <|
    (compare a.epochId b.epochId).then <|
      (compare b.timestampMs a.timestampMs).then (compare a.hash b.hash)

/-- The first of the nodes that no other one outranks. -/
def best? (g : Graph) (nodes : List Node) : Option Node :=
  nodes.foldl (fun best node =>
    match best with
    | none => some node
    | some b => if rank g node b = .gt then some node else some b) none

namespace Tracker

def winner (g : Graph) (t : Tracker) : Option Winner :=
  (best? g t.issued).map fun node => ⟨node.nodeId, node.epochId, node.hash⟩

def finish (g : Graph) (reference : Reference) (t : Tracker) : Outcome :=
  { detection := t.detection.isSome
    detectionMs := t.detection.map fun d =>
      match reference with
      | .observable => 0
      | .created => max (Word.wrap d.lag) 0
    reconciliationMs := do
      let d ← t.detection
      let merged ← t.mergedAt
      return max (Word.wrap (d.healing merged)) 0
    winner := t.winner g
    messagesDropped := t.messagesDropped
    errors := t.errors.map Category.name }

end Tracker

inductive Refusal
  | graph (reason : GraphRefusal)
  | unknownIssue (time : Int) (nodeId : Option String)
  deriving DecidableEq

def Refusal.detail : Refusal → String
  | .graph reason => reason.detail
  | .unknownIssue time nodeId =>
    "epoch_issue at t=" ++ toString time ++ " names unknown node " ++ nodeId.getD "<none>"

def Refusal.fault (scenarioId : String) (r : Refusal) : Fault :=
  Fault.within scenarioId ⟨.corpus, r.detail⟩

/-- One event; a kind outside the vocabulary changes nothing. -/
def step (g : Graph) (t : Tracker) (event : Event) : Except Refusal Tracker :=
  match event.kind with
  | "epoch_issue" =>
    if event.isDropped then .ok t
    else match event.nodeId.bind g.get? with
      | some node => .ok (t.issue g node event)
      | none => .error (.unknownIssue event.time event.nodeId)
  | "replay_attempt" => .ok (t.drop event)
  | "merge" => .ok (t.merge event)
  | _ => .ok t

def inOrder (events : List Event) : List Event :=
  events.mergeSort fun a b => a.time ≤ b.time

def simulate (g : Graph) (reference : Reference) (events : List Event) :
    Except Refusal Outcome := do
  match g.refusal? with
  | some reason => .error (.graph reason)
  | none =>
    let t ← (inOrder events).foldlM (step g) .new
    return t.finish g reference

namespace Tracker

/-- The sum that a step takes, if it takes one. -/
def sum? (g : Graph) (t : Tracker) (event : Event) : Option Int :=
  if (event.issued? g).any t.isFork && t.detection.isNone then some event.seenAt
  else if event.kind = "replay_attempt" then some (t.dropsTo event)
  else none

/-- The differences that are taken at the end. -/
def differences (reference : Reference) (t : Tracker) : List Int :=
  match t.detection with
  | none => []
  | some d =>
    (if reference = .created then [d.lag] else []) ++ (t.mergedAt.map d.healing).toList

end Tracker

/-- A replay by a program that checks its sums; there is none if one of them does not fit. -/
def replayChecked (g : Graph) (t : Tracker) : List Event → Option (Except Refusal Tracker)
  | [] => some (.ok t)
  | event :: rest =>
    if (t.sum? g event).all Word.fitsSigned then
      match step g t event with
      | .ok t => replayChecked g t rest
      | .error refusal => some (.error refusal)
    else none

/-- A simulation by a program that checks its sums; there is none if one of them does not fit. -/
def simulateChecked (g : Graph) (reference : Reference) (events : List Event) :
    Option (Except Refusal Outcome) :=
  match g.refusal? with
  | some reason => some (.error (.graph reason))
  | none =>
    match replayChecked g .new (inOrder events) with
    | none => none
    | some (.error refusal) => some (.error refusal)
    | some (.ok t) =>
      if (t.differences reference).all Word.fitsSigned then some (.ok (t.finish g reference))
      else none

end Conformance.EpochFork
