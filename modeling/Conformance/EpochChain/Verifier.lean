import Conformance.EpochChain.Scenario
/-!
# Epoch chain verification

The nodes are put into the order of their epochs and each is given the
corruptions that name it, then those that name every node. The verifier walks the
chain once: a node that does not name the hash of the node before it is rejected,
and every corruption is reported by the code of its kind.
-/
namespace Conformance.EpochChain
open Conformance

inductive Code
  | invalidSignature
  | invalidProof
  | chainBreak
  | truncated
  | extraFields
  | payloadTampered
  | staleReference
  deriving DecidableEq

namespace Code

def name : Code → String
  | invalidSignature => "INVALID_SIGNATURE"
  | invalidProof => "INVALID_POP"
  | chainBreak => "HASH_CHAIN_BREAK"
  | truncated => "TRUNCATED_EARE"
  | extraFields => "EXTRA_FIELDS"
  | payloadTampered => "PAYLOAD_TAMPERED"
  | staleReference => "STALE_EPOCH_REF"

/-- All codes, in the order of their registry. -/
def all : List Code :=
  [invalidSignature, invalidProof, chainBreak, truncated, extraFields, payloadTampered,
    staleReference]

def ofName? (name : String) : Option Code :=
  all.find? (·.name == name)

def isRegistered (name : String) : Bool :=
  (ofName? name).isSome

end Code

/-- What a directive asks for: a corruption with a code, or something outside the vocabulary. -/
inductive Corruption
  | known (code : Code)
  | unknown (kind : String)
  deriving DecidableEq

/-- Kinds are matched without regard to case, and one of them has a second name. -/
def Corruption.ofKind (kind : String) : Corruption :=
  let upper := kind.toUpper
  if upper = "TAMPER_PAYLOAD" then .known .payloadTampered
  else match Code.ofName? upper with
    | some code => .known code
    | none => .unknown upper

def Directive.corruption (d : Directive) : Corruption :=
  .ofKind d.kind

/-- A node with the corruptions that reach it. Overrides are kept beside the node, whose hashes they
do not change. -/
structure ViewNode where
  node : Node
  overrides : Json.Object
  corruptions : List Directive

/-- The directives for a node: those that name it, then those for every node. -/
def directivesFor (directives : List Directive) (nodeId : String) : List Directive :=
  directives.filter (·.target == nodeId) ++ directives.filter (·.target == wildcard)

/-- Entries of a patch win over those of an object; any other patch replaces the payload. -/
def mergePatch : (payload : Option Json) → (patch : Json) → Json
  | some (.object base), .object patch => .object (Json.Object.extend base patch)
  | _, patch => patch

def patchedPayload (payload : Option Json) (directives : List Directive) : Option Json :=
  (directives.filterMap (·.payloadPatch)).foldl
    (fun payload patch => some (mergePatch payload patch))
    payload

def viewNode (directives : List Directive) (node : Node) : ViewNode :=
  let corruptions := directivesFor directives node.nodeId
  { node := { node with payload := patchedPayload node.payload corruptions }
    overrides := (corruptions.filterMap (·.fields)).foldl Json.Object.extend []
    corruptions }

def Scenario.sortedNodes (s : Scenario) : List Node :=
  s.nodes.mergeSort fun a b => a.epochId ≤ b.epochId

def Scenario.view (s : Scenario) : List ViewNode :=
  s.sortedNodes.map (viewNode s.corruptions)

/-- Targets that are no node, each of them once. -/
def Scenario.unknownTargets (s : Scenario) : List String :=
  (s.corruptions.map (·.target)).eraseDups.filter fun target =>
    target ≠ wildcard ∧ ¬ s.nodes.any (·.nodeId == target)

def Scenario.viewNotes (s : Scenario) : List String :=
  (s.unknownTargets.map ("corruption targets unknown node " ++ ·)).mergeSort (· ≤ ·)

structure Metrics where
  chainLength : Nat
  hashChainBreaks : Nat
  corruptionsApplied : Nat
  acceptedNodes : Nat
  rejectedNodes : Nat
  deriving DecidableEq

def Metrics.none : Metrics :=
  ⟨0, 0, 0, 0, 0⟩

def Metrics.toObject (m : Metrics) : Json.Object :=
  Json.Object.ofEntries [("chain_length", .ofNat m.chainLength),
    ("hash_chain_breaks", .ofNat m.hashChainBreaks),
    ("corruptions_applied", .ofNat m.corruptionsApplied),
    ("accepted_nodes", .ofNat m.acceptedNodes), ("rejected_nodes", .ofNat m.rejectedNodes)]

structure Result where
  detection : Bool
  detectionMs : Option Nat
  errors : List String
  metrics : Metrics
  notes : List String
  deriving DecidableEq

/-- The hash of the node before, and what was found so far. -/
structure Verifier where
  predecessor : Option String
  errors : List Code
  notes : List String
  metrics : Metrics
  deriving DecidableEq

namespace Verifier

def new : Verifier :=
  ⟨none, [], [], .none⟩

/-- A code is listed where it is first seen. -/
def emit (v : Verifier) (code : Code) : Verifier :=
  if v.errors.contains code then v else { v with errors := v.errors ++ [code] }

def isLinked (v : Verifier) (node : Node) : Bool :=
  match v.predecessor with
  | some hash => node.previousHash == hash
  | none => true

/-- Checks a node against its predecessor and makes it the predecessor of the next one. -/
def link (v : Verifier) (node : Node) : Verifier :=
  let m := { v.metrics with chainLength := v.metrics.chainLength + 1 }
  let v := if v.isLinked node then
      { v with metrics := { m with acceptedNodes := m.acceptedNodes + 1 } }
    else
      { v.emit .chainBreak with
        metrics := { m with
          hashChainBreaks := m.hashChainBreaks + 1
          rejectedNodes := m.rejectedNodes + 1 } }
  { v with predecessor := some node.hash }

/-- A stated break counts as a break without rejecting the node, a truncation rejects it. -/
def count (m : Metrics) : Code → Metrics
  | .chainBreak => { m with hashChainBreaks := m.hashChainBreaks + 1 }
  | .truncated => { m with rejectedNodes := m.rejectedNodes + 1 }
  | _ => m

def apply (v : Verifier) (directive : Directive) : Verifier :=
  match directive.corruption with
  | .known code => { v.emit code with metrics := count v.metrics code }
  | .unknown kind => { v with notes := v.notes ++ ["unhandled corruption " ++ kind] }

def push (v : Verifier) (node : Node) (corruptions : List Directive) : Verifier :=
  corruptions.foldl apply (v.link node)

def walk (v : Verifier) (view : List ViewNode) : Verifier :=
  view.foldl (fun v n => v.push n.node n.corruptions) v

/-- Whatever is found at all is found at once. -/
def finish (v : Verifier) (corruptionsApplied : Nat) : Result :=
  { detection := !v.errors.isEmpty
    detectionMs := if v.errors.isEmpty then none else some 0
    errors := v.errors.map Code.name
    metrics := { v.metrics with corruptionsApplied }
    notes := v.notes }

end Verifier

def Scenario.simulate (s : Scenario) : Result :=
  let result := (Verifier.new.walk s.view).finish s.corruptions.length
  { result with notes := s.viewNotes ++ result.notes }

end Conformance.EpochChain
