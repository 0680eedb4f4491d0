import Conformance.Fault
/-!
# Epoch graphs

The nodes of a graph are epochs, each of which may name a parent. A graph is
checked before it is used: node names are distinct, and edges and parents name
nodes. Parents may form cycles.
-/
namespace Conformance.EpochFork
open Conformance

structure Node where
  nodeId : String
  epochId : Int
  hash : String
  previousHash : Option String
  membershipDigest : Option String
  parentId : Option String
  issuedBy : String
  timestampMs : Int
  deriving DecidableEq

structure Edge where
  source : String
  target : String
  kind : Option String
  deriving DecidableEq

structure Graph where
  nodes : List Node
  edges : List Edge
  deriving DecidableEq

inductive GraphRefusal
  | duplicateNode (nodeId : String)
  | unknownEnd (nodeId : String)
  | unknownParent (nodeId parentId : String)
  deriving DecidableEq

def GraphRefusal.detail : GraphRefusal → String
  | .duplicateNode nodeId => "duplicate node_id " ++ nodeId
  | .unknownEnd nodeId => "edge references unknown node " ++ nodeId
  | .unknownParent nodeId parentId => s!"node {nodeId} references unknown parent {parentId}"

/-- The first node of a list that has a name, and the list without it. -/
def pick? (nodeId : String) : List Node → Option (Node × List Node)
  | [] => none
  | node :: rest =>
    if node.nodeId = nodeId then some (node, rest)
    else (pick? nodeId rest).map fun (found, others) => (found, node :: others)

theorem pick?_length {nodeId : String} {nodes rest : List Node} {node : Node}
    (h : pick? nodeId nodes = some (node, rest)) : rest.length < nodes.length := by
  induction nodes generalizing rest with
  | nil => simp [pick?] at h
  | cons first others ih =>
    simp only [pick?] at h
    split at h
    · simp only [Option.some.injEq, Prod.mk.injEq] at h
      simp [h.2]
    · obtain ⟨⟨found, left⟩, hp, he⟩ := Option.map_eq_some_iff.1 h
      simp only [Prod.mk.injEq] at he
      have := ih (he.1 ▸ hp)
      simp only [← he.2, List.length_cons]
      omega

namespace Graph

def get? (g : Graph) (nodeId : String) : Option Node :=
  g.nodes.find? (·.nodeId == nodeId)

def has (g : Graph) (nodeId : String) : Bool :=
  (g.get? nodeId).isSome

/-- The first name that an earlier node of the list has already. -/
def repeatedName? (earlier : List String) : List Node → Option String
  | [] => none
  | node :: rest =>
    if earlier.contains node.nodeId then some node.nodeId
    else repeatedName? (node.nodeId :: earlier) rest

def unknownEnd? (g : Graph) : Option String :=
  (g.edges.flatMap fun e => [e.source, e.target]).find? (!g.has ·)

def unknownParent? (g : Graph) : Option (String × String) :=
  g.nodes.findSome? fun node =>
    match node.parentId with
    | some parent => if g.has parent then none else some (node.nodeId, parent)
    | none => none

/-- The first fault of a graph: of its names, then of its edges, then of its parents. -/
def refusal? (g : Graph) : Option GraphRefusal :=
  match repeatedName? [] g.nodes with
  | some name => some (.duplicateNode name)
  | none =>
    match g.unknownEnd? with
    | some name => some (.unknownEnd name)
    | none => g.unknownParent?.map fun (node, parent) => .unknownParent node parent

/-- Hops from parent to parent among the nodes that were not visited yet. -/
def hops (unvisited : List Node) (nodeId : String) : Nat :=
  match _ : pick? nodeId unvisited with
  | none => 0
  | some (node, rest) =>
    match node.parentId with
    | none => 0
    | some parent => hops rest parent + 1
termination_by unvisited.length
decreasing_by exact pick?_length ‹_›

/-- Parent hops to a root; a cycle ends the walk where it closes. -/
def depth (g : Graph) (nodeId : String) : Nat :=
  hops g.nodes nodeId

end Graph
end Conformance.EpochFork
