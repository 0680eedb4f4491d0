import Conformance.Proofs.EpochChain.Order
import Conformance.Proofs.Json.Order
import Mathlib

/-!
# What the verifier is shown

The nodes are shown in the stable order of their epochs, each of them with the
directives that target it, with a payload that these have patched one after the other
and with the overrides they add up to. A directive reaches a node once, except that a
node whose name is that for every node is looked up under this name twice.
-/
namespace Conformance.EpochChain
open Conformance

/-- What some patches make of a payload, one after the other: the entries of an object are added to
an object, and anything else takes the place of what was there. -/
inductive Patched : Option Json → List Json → Option Json → Prop
  | done (payload : Option Json) : Patched payload [] payload
  | merge {base additions o : Json.Object} {rest : List Json} {result : Option Json}
      (h : base.Extended additions o) (hrest : Patched (some (.object o)) rest result) :
      Patched (some (.object base)) (.object additions :: rest) result
  | replace {payload : Option Json} {patch : Json} {rest : List Json} {result : Option Json}
      (h : ∀ base additions, payload = some (.object base) → patch ≠ .object additions)
      (hrest : Patched (some patch) rest result) : Patched payload (patch :: rest) result

theorem mergePatch_of_not_objects {payload : Option Json} {patch : Json}
    (h : ∀ base additions, payload = some (.object base) → patch ≠ .object additions) :
    mergePatch payload patch = patch := by
  unfold mergePatch
  split
  · exact absurd rfl (h _ _ rfl)
  · rfl

theorem patched_foldl (payload : Option Json) (patches : List Json) :
    Patched payload patches
      (patches.foldl (fun payload patch => some (mergePatch payload patch)) payload) := by
  induction patches generalizing payload with
  | nil => exact .done payload
  | cons patch rest ih =>
    rw [List.foldl_cons]
    by_cases h : ∃ base additions, payload = some (.object base) ∧ patch = .object additions
    · obtain ⟨base, additions, rfl, rfl⟩ := h
      exact .merge (Json.Object.extended_extend base additions) (ih _)
    · have hnot : ∀ base additions, payload = some (.object base) → patch ≠ .object additions :=
        fun base additions hbase hadditions => h ⟨base, additions, hbase, hadditions⟩
      rw [mergePatch_of_not_objects hnot]
      exact .replace hnot (ih _)

namespace Scenario
variable (s : Scenario) (nodeId : String)

/-- The directive at `i` is for nodes of this name. -/
def Targets (i : Fin s.corruptions.length) : Prop :=
  s.corruptions[i].target = nodeId ∨ s.corruptions[i].target = wildcard

/-- For nodes of this name the directive at `i` comes before the one at `j`: it names them and the
other does not, or they are alike in this and it stands earlier. -/
def AttachedBefore (i j : Fin s.corruptions.length) : Prop :=
  (s.corruptions[i].target = nodeId ∧ s.corruptions[j].target ≠ nodeId) ∨
    ((s.corruptions[i].target = nodeId ↔ s.corruptions[j].target = nodeId) ∧ i < j)

/-- These are the directives for nodes of this name, each of them once: those that name them first,
and otherwise as they stand in the scenario. -/
def AttachesOnce (directives : List Directive) : Prop :=
  ∃ positions : List (Fin s.corruptions.length),
    positions.Pairwise (s.AttachedBefore nodeId) ∧ (∀ i, i ∈ positions ↔ s.Targets nodeId i) ∧
    directives = positions.map fun i => s.corruptions[i]

variable {s nodeId} in
theorem AttachesOnce.length_le {directives : List Directive}
    (h : s.AttachesOnce nodeId directives) : directives.length ≤ s.corruptions.length := by
  obtain ⟨positions, hbefore, -, rfl⟩ := h
  have hnodup : positions.Nodup := by
    refine hbefore.imp ?_
    rintro i j (⟨hi, hj⟩ | ⟨-, hlt⟩) rfl
    · exact hj hi
    · exact lt_irrefl _ hlt
  rw [List.length_map]
  exact hnodup.length_le_card.trans_eq (Fintype.card_fin _)

/-- Where the directives of some kind stand. -/
def standing (p : Directive → Bool) : List (Fin s.corruptions.length) :=
  (List.finRange s.corruptions.length).filter fun i => p s.corruptions[i]

variable {s} in
theorem mem_standing_iff {p : Directive → Bool} {i : Fin s.corruptions.length} :
    i ∈ s.standing p ↔ p s.corruptions[i] = true := by
  simp [standing]

/-- Directives that are alike in naming the nodes come as they stand. -/
theorem pairwise_standing {p : Directive → Bool} {named : Prop}
    (h : ∀ d, p d = true → (d.target = nodeId ↔ named)) :
    (s.standing p).Pairwise (s.AttachedBefore nodeId) := by
  have hlt : (s.standing p).Pairwise (· < ·) := (List.pairwise_lt_finRange _).filter _
  refine hlt.imp_of_mem fun {i j} hi hj hij => .inr ⟨?_, hij⟩
  exact (h _ (mem_standing_iff.mp hi)).trans (h _ (mem_standing_iff.mp hj)).symm

theorem map_standing (p : Directive → Bool) :
    (s.standing p).map (fun i => s.corruptions[i]) = s.corruptions.filter p := by
  have hall : (List.finRange s.corruptions.length).map (fun i => s.corruptions[i]) =
      s.corruptions := List.map_getElem_finRange s.corruptions
  conv_rhs => rw [← hall, List.filter_map]
  rfl

/-- The directives that name the nodes, and then the others that are for every node. -/
theorem attachesOnce_groups :
    s.AttachesOnce nodeId (s.corruptions.filter (·.target = nodeId) ++
      s.corruptions.filter fun d => d.target ≠ nodeId ∧ d.target = wildcard) := by
  refine ⟨s.standing (·.target = nodeId) ++
    s.standing fun d => d.target ≠ nodeId ∧ d.target = wildcard, ?_, ?_, ?_⟩
  · refine List.pairwise_append.mpr ⟨?_, ?_, ?_⟩
    · exact s.pairwise_standing nodeId fun d hd => iff_true_intro (of_decide_eq_true hd)
    · exact s.pairwise_standing nodeId fun d hd => iff_false_intro (of_decide_eq_true hd).1
    · intro i hi j hj
      rw [mem_standing_iff, decide_eq_true_eq] at hi hj
      exact .inl ⟨hi, hj.1⟩
  · intro i
    rw [List.mem_append, mem_standing_iff, mem_standing_iff, decide_eq_true_eq,
      decide_eq_true_eq, Targets]
    tauto
  · rw [List.map_append, map_standing, map_standing]

variable {nodeId} in
theorem attachesOnce_directivesFor (h : nodeId ≠ wildcard) :
    s.AttachesOnce nodeId (directivesFor s.corruptions nodeId) := by
  have hothers (d : Directive) :
      (d.target == wildcard) = decide (d.target ≠ nodeId ∧ d.target = wildcard) := by
    by_cases hd : d.target = wildcard
    · simp [hd, h.symm]
    · simp [hd]
  have hgroups := s.attachesOnce_groups nodeId
  simp only [← hothers] at hgroups
  exact hgroups

/-- Both look-ups for a node of this name find the same directives. -/
theorem directivesFor_wildcard :
    ∃ once, s.AttachesOnce wildcard once ∧
      directivesFor s.corruptions wildcard = once ++ once := by
  have hnone : (s.corruptions.filter fun d => d.target ≠ wildcard ∧ d.target = wildcard) = [] := by
    simp
  have hgroups := s.attachesOnce_groups wildcard
  rw [hnone, List.append_nil] at hgroups
  exact ⟨_, hgroups, rfl⟩

/-- What the verifier is shown of a node: nothing but its payload is changed, the directives for it
are attached once, or twice if it bears the name for every node, and the payload and the overrides
are what these make of them in their order. -/
structure Presents (node : Node) (seen : ViewNode) : Prop where
  unchanged : seen.node = { node with payload := seen.node.payload }
  once : node.nodeId ≠ wildcard → s.AttachesOnce node.nodeId seen.corruptions
  twice : node.nodeId = wildcard →
    ∃ once, s.AttachesOnce wildcard once ∧ seen.corruptions = once ++ once
  payload : Patched node.payload (seen.corruptions.filterMap Directive.payloadPatch)
    seen.node.payload
  overrides : Json.Object.Extended [] (seen.corruptions.filterMap Directive.fields).flatten
    seen.overrides

theorem presents_viewNode (node : Node) : s.Presents node (viewNode s.corruptions node) where
  unchanged := rfl
  once := s.attachesOnce_directivesFor
  twice h := by
    rw [viewNode, h]
    exact s.directivesFor_wildcard
  payload := patched_foldl _ _
  overrides := by
    rw [viewNode, Json.Object.foldl_extend]
    exact Json.Object.extended_extend _ _

namespace NameOfAll

def node : Node := .plain "*" 1 "h1" "h0"

/-- One node, which bears the name for every node, and one directive for every node. -/
def scenario : Scenario := .plain [node] [.plain "TRUNCATED_EARE" none]

end NameOfAll

open NameOfAll in
/-- The directive is attached to the node twice, and the node is rejected twice. -/
theorem directive_attached_twice :
    (∃ seen ∈ scenario.view, seen.corruptions.length = 2 ∧
      ¬ scenario.AttachesOnce seen.node.nodeId seen.corruptions) ∧
    scenario.nodes.length = 1 ∧ scenario.simulate.metrics.rejectedNodes = 2 := by
  have hlisted : node ∈ scenario.nodes := List.mem_singleton_self node
  refine ⟨⟨viewNode scenario.corruptions node, ?_, rfl, fun honce => ?_⟩, rfl, by cbv⟩
  · exact List.mem_map_of_mem (scenario.sortedNodes_perm.mem_iff.mpr hlisted)
  · exact absurd honce.length_le (by decide)

/-- The nodes are shown in their stable order and each with its own directives: once, unless the
node bears the name for every node, and then twice. -/
theorem view_presents_nodes (s : Scenario) :
    ∃ ordered, StableOrder s.nodes ordered ∧ List.Forall₂ s.Presents ordered s.view := by
  refine ⟨s.sortedNodes, s.stableOrder_sortedNodes, ?_⟩
  rw [view, List.forall₂_map_right_iff, List.forall₂_same]
  exact fun node _ => s.presents_viewNode node

end Scenario
end Conformance.EpochChain
