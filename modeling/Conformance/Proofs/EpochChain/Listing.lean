import Conformance.Proofs.EpochChain.Order
import Mathlib

/-!
# The listing of a scenario

The verifier walks the nodes in the stable order of their epochs, and it sorts its
notes on unknown targets. So the result does not depend on how the nodes are listed,
as far as nodes of one epoch keep their order, nor on the order in which the targets
of the corruptions are gone through.
-/
namespace Conformance.EpochChain
open Conformance

namespace Scenario
variable (s : Scenario)

/-- The targets of the corruptions, each of them once, in any order. -/
structure ListsTargets (targets : List String) : Prop where
  nodup : targets.Nodup
  mem_iff : ∀ target, target ∈ targets ↔ ∃ d ∈ s.corruptions, d.target = target

/-- The notes on unknown targets when they are gone through in some order. -/
def notesOn (targets : List String) : List String :=
  ((targets.filter fun target => target ≠ wildcard ∧ ¬ s.nodes.any (·.nodeId == target)).map
    ("corruption targets unknown node " ++ ·)).mergeSort (· ≤ ·)

/-- The result when the targets are gone through and the nodes are walked in some order. -/
def resultIn (targets : List String) (ordered : List Node) : Result :=
  let result := (Verifier.new.walk (ordered.map (viewNode s.corruptions))).finish
    s.corruptions.length
  { result with notes := s.notesOn targets ++ result.notes }

theorem listsTargets_eraseDups : s.ListsTargets (s.corruptions.map (·.target)).eraseDups where
  nodup := nodup_eraseDups _
  mem_iff target := by rw [List.mem_eraseDups, List.mem_map]

theorem simulate_eq_resultIn :
    s.simulate = s.resultIn (s.corruptions.map (·.target)).eraseDups s.sortedNodes := rfl

theorem mergeSort_eq_of_perm {as bs : List String} (h : as.Perm bs) :
    as.mergeSort (· ≤ ·) = bs.mergeSort (· ≤ ·) := by
  have hperm : (as.mergeSort (· ≤ ·)).Perm (bs.mergeSort (· ≤ ·)) :=
    (List.mergeSort_perm as _).trans (h.trans (List.mergeSort_perm bs _).symm)
  exact hperm.eq_of_pairwise' (List.pairwise_mergeSort' (· ≤ ·) as)
    (List.pairwise_mergeSort' (· ≤ ·) bs)

variable {s}

theorem ListsTargets.notesOn_eq {targets others : List String} (h : s.ListsTargets targets)
    (hothers : s.ListsTargets others) : s.notesOn targets = s.notesOn others := by
  have hperm : targets.Perm others := by
    refine (List.perm_ext_iff_of_nodup h.nodup hothers.nodup).mpr fun target => ?_
    rw [h.mem_iff, hothers.mem_iff]
  exact mergeSort_eq_of_perm ((hperm.filter _).map _)

theorem notesOn_of_perm {nodes : List Node} (h : nodes.Perm s.nodes) (targets : List String) :
    { s with nodes }.notesOn targets = s.notesOn targets := by
  simp only [notesOn, h.any_eq]

/-- The result is that of the stable order of the nodes, and of any order of the targets. -/
theorem simulate_of_stableOrder {targets : List String} {ordered : List Node}
    (htargets : s.ListsTargets targets) (hordered : StableOrder s.nodes ordered) :
    s.simulate = s.resultIn targets ordered := by
  rw [simulate_eq_resultIn, resultIn, resultIn,
    s.listsTargets_eraseDups.notesOn_eq htargets, s.stableOrder_sortedNodes.unique hordered]

theorem simulate_of_sortedNodes_eq {nodes : List Node} (h : nodes.Perm s.nodes)
    (hsorted : { s with nodes }.sortedNodes = s.sortedNodes) :
    { s with nodes }.simulate = s.simulate := by
  rw [simulate_eq_resultIn, simulate_eq_resultIn, resultIn, resultIn, hsorted, notesOn_of_perm h]

/-- The nodes may be listed in any order if no two are of one epoch, with the same result, and
however they are listed the result is that of the one list which holds them by epoch and leaves
those of one epoch as they stand, in whatever order the targets of the corruptions are gone
through. -/
theorem simulate_independent_of_listing (s : Scenario) :
    (∀ nodes : List Node, nodes.Perm s.nodes → (s.nodes.map Node.epochId).Nodup →
      { s with nodes }.simulate = s.simulate) ∧
    (∃! ordered, StableOrder s.nodes ordered) ∧
    ∀ targets ordered, s.ListsTargets targets → StableOrder s.nodes ordered →
      s.simulate = s.resultIn targets ordered := by
  refine ⟨fun nodes hnodes hdistinct => ?_, ?_, fun targets ordered => simulate_of_stableOrder⟩
  · refine simulate_of_sortedNodes_eq hnodes ?_
    have hperm : { s with nodes }.sortedNodes.Perm s.sortedNodes :=
      ({ s with nodes }.sortedNodes_perm.trans hnodes).trans s.sortedNodes_perm.symm
    refine eq_of_perm_of_nodup_epochId hperm ?_ (pairwise_sortedNodes _) s.pairwise_sortedNodes
    exact (s.sortedNodes_perm.map _).nodup_iff.mpr hdistinct
  · exact ⟨s.sortedNodes, s.stableOrder_sortedNodes, fun _ h => h.unique s.stableOrder_sortedNodes⟩

namespace ThreeNodes

/-- Three linked nodes, the last of them listed first, and two targets that are no node. -/
def scenario : Scenario :=
  .plain [.plain "n3" 3 "h3" "h2", .plain "n1" 1 "h1" "h0", .plain "n2" 2 "h2" "h1"]
    [.plain "INVALID_POP" (some "n9"), .plain "INVALID_POP" (some "n8")]

def inOrder : List Node :=
  [.plain "n1" 1 "h1" "h0", .plain "n2" 2 "h2" "h1", .plain "n3" 3 "h3" "h2"]

theorem sortedNodes_scenario : scenario.sortedNodes = inOrder := by cbv

theorem listsTargets_inOrder : scenario.ListsTargets ["n8", "n9"] where
  nodup := by decide
  mem_iff target := by
    simp [scenario, Scenario.plain, Directive.plain, Directive.target, eq_comm, or_comm]

end ThreeNodes

open ThreeNodes in
theorem simulate_independent_of_listing_three_nodes :
    { scenario with nodes := inOrder }.simulate = scenario.simulate ∧
    scenario.simulate = scenario.resultIn ["n8", "n9"] inOrder := by
  have hperm : inOrder.Perm scenario.nodes := sortedNodes_scenario ▸ scenario.sortedNodes_perm
  have hordered : StableOrder scenario.nodes inOrder :=
    sortedNodes_scenario ▸ scenario.stableOrder_sortedNodes
  obtain ⟨hlisting, -, horder⟩ := simulate_independent_of_listing scenario
  exact ⟨hlisting inOrder hperm (by decide), horder _ _ listsTargets_inOrder hordered⟩

end Scenario
end Conformance.EpochChain
