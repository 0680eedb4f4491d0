import Conformance.Proofs.EpochChain.Corruptions
import Mathlib

/-!
# Tampering with a chain

A node takes part in two links at most: the one to the node before it, which reads
its previous hash, and the one from the node after it, which reads its hash. So a
change of one node of an intact chain, or its removal, breaks one link or none, and
all other links stay.
-/
namespace Conformance.EpochChain
open Conformance

/-- Each node names the hash of the one before it, and the epochs increase. -/
structure Intact (chain : List Node) : Prop where
  increasing : chain.Pairwise fun a b => a.epochId < b.epochId
  linked : chain.IsChain fun before node => node.previousHash = before.hash

theorem brokenLinks_cons_cons_eq_zero_iff (first second : Node) (rest : List Node) :
    brokenLinks (first :: second :: rest) = 0 ↔
      second.previousHash = first.hash ∧ brokenLinks (second :: rest) = 0 := by
  rw [brokenLinks_cons_cons, Nat.add_eq_zero_iff, and_comm]
  by_cases h : second.previousHash = first.hash <;> simp [Breaks, h]

theorem brokenLinks_eq_zero_iff (nodes : List Node) :
    brokenLinks nodes = 0 ↔ nodes.IsChain fun before node => node.previousHash = before.hash := by
  induction nodes with
  | nil => simp [brokenLinks]
  | cons first rest ih =>
    cases rest with
    | nil => simp [brokenLinks]
    | cons second rest =>
      rw [brokenLinks_cons_cons_eq_zero_iff, List.isChain_cons_cons, ih]

/-- Links are either before or after a node. -/
theorem brokenLinks_append_cons (front : List Node) (node : Node) (back : List Node) :
    brokenLinks (front ++ node :: back) =
      brokenLinks (front ++ [node]) + brokenLinks (node :: back) := by
  induction front with
  | nil => simp [brokenLinks]
  | cons first front ih =>
    cases front with
    | nil =>
      rw [List.singleton_append, List.singleton_append, brokenLinks_cons_cons,
        brokenLinks_cons_cons, Nat.add_comm]
      simp [brokenLinks]
    | cons second front =>
      simp only [List.cons_append, brokenLinks_cons_cons] at ih ⊢
      omega

/-- The links up to a node do not read its hash. -/
theorem brokenLinks_snoc_hash (front : List Node) (node : Node) (hash : String) :
    brokenLinks (front ++ [{ node with hash }]) = brokenLinks (front ++ [node]) := by
  rw [brokenLinks_snoc, brokenLinks_snoc]
  rfl

/-- The links from a node on do not read its previous hash. -/
theorem brokenLinks_cons_previousHash (node : Node) (back : List Node) (previousHash : String) :
    brokenLinks ({ node with previousHash } :: back) = brokenLinks (node :: back) := by
  cases back with
  | nil => rfl
  | cons after back =>
    rw [brokenLinks_cons_cons, brokenLinks_cons_cons]
    rfl

/-- Another previous hash breaks the link to the node before, if there is one. -/
theorem brokenLinks_of_previousHash_ne {front : List Node} {node : Node} {previousHash : String}
    (h : brokenLinks (front ++ [node]) = 0) (hne : previousHash ≠ node.previousHash) :
    brokenLinks (front ++ [{ node with previousHash }]) = if front = [] then 0 else 1 := by
  rcases List.eq_nil_or_concat front with rfl | ⟨front, before, rfl⟩
  · simp [brokenLinks]
  · rw [List.concat_eq_append, List.append_assoc, List.singleton_append] at h ⊢
    rw [brokenLinks_append_cons, Nat.add_eq_zero_iff, brokenLinks_cons_cons_eq_zero_iff] at h
    obtain ⟨hfront, hlinked, hnode⟩ := h
    have hbreaks : Breaks before { node with previousHash } := by
      simpa [Breaks, ← hlinked] using hne
    rw [brokenLinks_append_cons, hfront, brokenLinks_cons_cons, if_pos hbreaks, if_neg (by simp)]
    simp [brokenLinks]

/-- Another hash breaks the link from the node after, if there is one. -/
theorem brokenLinks_of_hash_ne {node : Node} {back : List Node} {hash : String}
    (h : brokenLinks (node :: back) = 0) (hne : hash ≠ node.hash) :
    brokenLinks ({ node with hash } :: back) = if back = [] then 0 else 1 := by
  cases back with
  | nil => simp [brokenLinks]
  | cons after back =>
    obtain ⟨hlinked, hafter⟩ := (brokenLinks_cons_cons_eq_zero_iff node after back).mp h
    have hbreaks : Breaks { node with hash } after := by
      simpa [Breaks, hlinked] using hne.symm
    rw [brokenLinks_cons_cons, hafter, if_pos hbreaks, if_neg (by simp)]

/-- Without an inner node, the one after it is linked if the one before has the same hash. -/
theorem brokenLinks_of_removed {front back : List Node} {before node after : Node}
    (h : brokenLinks (front ++ before :: node :: after :: back) = 0) :
    brokenLinks (front ++ before :: after :: back) = if before.hash = node.hash then 0 else 1 := by
  rw [brokenLinks_append_cons, Nat.add_eq_zero_iff, brokenLinks_cons_cons_eq_zero_iff,
    brokenLinks_cons_cons_eq_zero_iff] at h
  obtain ⟨hfront, -, hlinked, hafter⟩ := h
  have hbreaks : Breaks before after ↔ before.hash ≠ node.hash := by
    rw [Breaks, hlinked, ne_comm]
  rw [brokenLinks_append_cons, hfront, brokenLinks_cons_cons, hafter, if_congr hbreaks rfl rfl,
    ite_not, Nat.zero_add, Nat.zero_add]

/-- What is found of so many nodes if so many links are broken and nothing else is wrong. -/
def Result.ofLinks (nodes links : ℕ) : Result where
  detection := links ≠ 0
  detectionMs := if links = 0 then none else some 0
  errors := if links = 0 then [] else ["HASH_CHAIN_BREAK"]
  metrics := {
    chainLength := nodes
    hashChainBreaks := links
    corruptionsApplied := 0
    acceptedNodes := nodes - links
    rejectedNodes := links }
  notes := []

namespace Scenario
variable {s : Scenario}

theorem corruptions_pushes_eq_nil (h : s.corruptions = []) :
    s.pushes.flatMap Push.corruptions = [] := by
  simp [corruptions_pushes, h, lookUp]

theorem walk_errors_of_no_corruptions (h : s.corruptions = []) :
    (Verifier.new.walk s.view).errors =
      if brokenLinks s.sortedNodes = 0 then [] else [.chainBreak] := by
  have hmem (code : Code) : code ∈ (Verifier.new.walk s.view).errors ↔
      code = .chainBreak ∧ brokenLinks s.sortedNodes ≠ 0 := by
    rw [s.found_walk.errors, List.mem_eraseDups, mem_codesFrom_iff, brokenLinks_pushes,
      corruptions_pushes_eq_nil h]
    simp
  by_cases hlinks : brokenLinks s.sortedNodes = 0
  · rw [if_pos hlinks, List.eq_nil_iff_forall_not_mem]
    exact fun code hcode => ((hmem code).mp hcode).2 hlinks
  · rw [if_neg hlinks, ← List.perm_singleton]
    have hnodup : (Verifier.new.walk s.view).errors.Nodup :=
      s.found_walk.errors ▸ nodup_eraseDups _
    refine (List.perm_ext_iff_of_nodup hnodup (List.nodup_singleton _)).mpr fun code => ?_
    rw [hmem, List.mem_singleton, and_iff_left hlinks]

theorem viewNotes_of_no_corruptions (h : s.corruptions = []) : s.viewNotes = [] := by
  simp [viewNotes, unknownTargets, h]

theorem simulate_of_no_corruptions (h : s.corruptions = []) :
    s.simulate = Result.ofLinks s.nodes.length (brokenLinks s.sortedNodes) := by
  have hstatements (code : Code) : s.statements code = 0 := by simp [statements, h]
  have hnotes : (Verifier.new.walk s.view).notes = [] := by
    rw [s.found_walk.notes, corruptions_pushes_eq_nil h]
    rfl
  have hmetrics : s.simulate.metrics =
      (Result.ofLinks s.nodes.length (brokenLinks s.sortedNodes)).metrics := by
    rw [simulate_metrics, hstatements, hstatements, h]
    rfl
  rw [simulate] at hmetrics ⊢
  simp only [Verifier.finish, Result.ofLinks, Result.mk.injEq, hnotes,
    viewNotes_of_no_corruptions h, walk_errors_of_no_corruptions h] at hmetrics ⊢
  refine ⟨?_, ?_, ?_, hmetrics, rfl⟩ <;> by_cases hlinks : brokenLinks s.sortedNodes = 0 <;>
    simp [hlinks, Code.name]

end Scenario

/-- However these nodes are listed, without corruptions so many broken links are found. -/
def Gives (chain : List Node) (links : ℕ) : Prop :=
  ∀ s : Scenario, s.corruptions = [] → s.nodes.Perm chain →
    s.simulate = Result.ofLinks chain.length links

theorem gives_brokenLinks {chain : List Node}
    (h : chain.Pairwise fun a b => a.epochId < b.epochId) : Gives chain (brokenLinks chain) := by
  intro s hcorruptions hlisted
  have hdistinct : (chain.map Node.epochId).Nodup := List.pairwise_map.mpr (h.imp ne_of_lt)
  have hsorted : s.sortedNodes = chain :=
    eq_of_perm_of_nodup_epochId (s.sortedNodes_perm.trans hlisted) hdistinct
      s.pairwise_sortedNodes (h.imp le_of_lt)
  rw [Scenario.simulate_of_no_corruptions hcorruptions, hsorted, hlisted.length_eq]

/-- A change that leaves the epochs leaves the order. -/
theorem gives_of_same_epochs {chain changed : List Node} {links : ℕ}
    (h : chain.Pairwise fun a b => a.epochId < b.epochId)
    (hepochs : changed.map Node.epochId = chain.map Node.epochId)
    (hlinks : brokenLinks changed = links) : Gives changed links := by
  rw [← hlinks]
  refine gives_brokenLinks ?_
  rw [← List.pairwise_map (R := (· < ·)), hepochs, List.pairwise_map]
  exact h

/-- An intact chain is accepted as it is. Another hash of one node breaks the link from the node
after it and another previous hash that to the node before it, and nothing is found if there is no
such node. Without one of its inner nodes the chain breaks there, unless the node before has the
same hash. -/
theorem tampering_breaks_one_link {chain : List Node} (h : Intact chain) :
    Gives chain 0 ∧
    (∀ front node back, chain = front ++ node :: back →
      (∀ hash ≠ node.hash,
        Gives (front ++ { node with hash } :: back) (if back = [] then 0 else 1)) ∧
      ∀ previousHash ≠ node.previousHash,
        Gives (front ++ { node with previousHash } :: back) (if front = [] then 0 else 1)) ∧
    ∀ front before node after back, chain = front ++ before :: node :: after :: back →
      Gives (front ++ before :: after :: back) (if before.hash = node.hash then 0 else 1) := by
  have hlinks : brokenLinks chain = 0 := (brokenLinks_eq_zero_iff chain).mpr h.linked
  refine ⟨?_, ?_, ?_⟩
  · exact hlinks ▸ gives_brokenLinks h.increasing
  · rintro front node back rfl
    rw [brokenLinks_append_cons, Nat.add_eq_zero_iff] at hlinks
    obtain ⟨hfront, hback⟩ := hlinks
    constructor
    · intro hash hne
      refine gives_of_same_epochs h.increasing (by simp) ?_
      rw [brokenLinks_append_cons, brokenLinks_snoc_hash, hfront, brokenLinks_of_hash_ne hback hne,
        Nat.zero_add]
    · intro previousHash hne
      refine gives_of_same_epochs h.increasing (by simp) ?_
      rw [brokenLinks_append_cons, brokenLinks_cons_previousHash, hback,
        brokenLinks_of_previousHash_ne hfront hne, Nat.add_zero]
  · rintro front before node after back rfl
    rw [← brokenLinks_of_removed hlinks]
    refine gives_brokenLinks (h.increasing.sublist ?_)
    exact ((List.sublist_cons_self node (after :: back)).cons_cons before).append_left front

namespace ThreeLinked

def before : Node := .plain "n1" 1 "h1" "h0"
def middle : Node := .plain "n2" 2 "h2" "h1"
def after : Node := .plain "n3" 3 "h3" "h2"

theorem intact : Intact [before, middle, after] where
  increasing := by decide
  linked := by decide

end ThreeLinked

open ThreeLinked in
theorem tampering_breaks_one_link_of_three :
    Intact [before, middle, after] ∧ "forged" ≠ middle.hash ∧ "forged" ≠ before.previousHash ∧
    (Scenario.plain [before, { middle with hash := "forged" }, after].reverse []).simulate =
      .ofLinks 3 1 ∧
    (Scenario.plain [{ before with previousHash := "forged" }, middle, after] []).simulate =
      .ofLinks 3 0 ∧
    (Scenario.plain [before, after] []).simulate = .ofLinks 2 1 := by
  obtain ⟨-, hchanged, hremoved⟩ := tampering_breaks_one_link intact
  have hhash : "forged" ≠ middle.hash := by decide
  have hprevious : "forged" ≠ before.previousHash := by decide
  refine ⟨intact, hhash, hprevious, ?_, ?_, ?_⟩
  · exact (hchanged [before] middle [after] rfl).1 _ hhash _ rfl (List.reverse_perm _)
  · exact (hchanged [] before [middle, after] rfl).2 _ hprevious _ rfl (List.Perm.refl _)
  · exact hremoved [] before middle after [] rfl _ rfl (List.Perm.refl _)

end Conformance.EpochChain
