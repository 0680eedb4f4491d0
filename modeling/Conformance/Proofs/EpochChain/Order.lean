import Conformance.Proofs.EpochChain.Walk
import Conformance.Proofs.StableOrder
import Mathlib

/-!
# Nodes in the order of their epochs

The verifier sorts the nodes by epoch and leaves nodes of one epoch as they stand.
Here that order is a relation between the positions of a scenario, so that the links
of the sorted chain are found without sorting anything: a node follows another one if
there is none between them. The sorted list itself is known by two properties, that
epochs do not decrease and that each epoch has its nodes as they stood.
-/
namespace Conformance.EpochChain
open Conformance

section Neighbours
variable {α : Type*} {r : α → α → Prop} [Std.Asymm r] {l : List α}

theorem rel_getElem_iff (h : l.Pairwise r) {i j : ℕ} (hi : i < l.length) (hj : j < l.length) :
    r l[i] l[j] ↔ i < j := by
  have hpairwise := List.pairwise_iff_getElem.mp h
  constructor
  · intro hr
    rcases Nat.lt_trichotomy i j with hlt | rfl | hgt
    · exact hlt
    · exact absurd hr (Std.Asymm.asymm _ _ hr)
    · exact absurd hr (Std.Asymm.asymm _ _ (hpairwise j i hj hi hgt))
  · exact hpairwise i j hi hj

/-- In a list that is sorted strictly, the neighbours are those without an element between them. -/
theorem mem_zip_tail_iff (h : l.Pairwise r) (a b : α) :
    (a, b) ∈ l.zip l.tail ↔ a ∈ l ∧ b ∈ l ∧ r a b ∧ ∀ c ∈ l, ¬ (r a c ∧ r c b) := by
  constructor
  · intro hmem
    obtain ⟨k, hk, heq⟩ := List.mem_iff_getElem.mp hmem
    rw [List.length_zip, List.length_tail] at hk
    rw [List.getElem_zip, List.getElem_tail, Prod.mk.injEq] at heq
    obtain ⟨rfl, rfl⟩ := heq
    refine ⟨List.getElem_mem _, List.getElem_mem _, ?_, ?_⟩
    · exact (rel_getElem_iff h _ _).mpr k.lt_succ_self
    · rintro c hc ⟨hbefore, hafter⟩
      obtain ⟨m, hm, rfl⟩ := List.mem_iff_getElem.mp hc
      rw [rel_getElem_iff h] at hbefore hafter
      omega
  · rintro ⟨ha, hb, hr, hnone⟩
    obtain ⟨i, hi, rfl⟩ := List.mem_iff_getElem.mp ha
    obtain ⟨j, hj, rfl⟩ := List.mem_iff_getElem.mp hb
    rw [rel_getElem_iff h] at hr
    have hnext : i + 1 < l.length := by omega
    have hj' : j = i + 1 := by
      by_contra hne
      refine hnone l[i + 1] (List.getElem_mem _) ⟨?_, ?_⟩
      · exact (rel_getElem_iff h _ _).mpr i.lt_succ_self
      · exact (rel_getElem_iff h _ _).mpr (by omega)
    subst hj'
    refine List.mem_iff_getElem.mpr ⟨i, ?_, ?_⟩
    · rw [List.length_zip, List.length_tail]
      omega
    · rw [List.getElem_zip, List.getElem_tail]

end Neighbours

/-- The list holds the nodes by epoch, and those of one epoch as they stand among the nodes. -/
structure StableOrder (nodes ordered : List Node) : Prop where
  sorted : ordered.Pairwise fun a b => a.epochId ≤ b.epochId
  stable : ∀ epoch, ordered.filter (·.epochId = epoch) = nodes.filter (·.epochId = epoch)

/-- A list that is sorted by epoch is known by the nodes of each epoch. -/
theorem eq_of_filter_epochId {as bs : List Node}
    (ha : as.Pairwise fun a b => a.epochId ≤ b.epochId)
    (hb : bs.Pairwise fun a b => a.epochId ≤ b.epochId)
    (h : ∀ epoch, as.filter (·.epochId = epoch) = bs.filter (·.epochId = epoch)) : as = bs :=
  eq_of_filter_key ha hb h

theorem StableOrder.unique {nodes as bs : List Node} (ha : StableOrder nodes as)
    (hb : StableOrder nodes bs) : as = bs :=
  eq_of_filter_epochId ha.sorted hb.sorted fun epoch =>
    (ha.stable epoch).trans (hb.stable epoch).symm

/-- Nodes of different epochs are sorted in one way only. -/
theorem eq_of_perm_of_nodup_epochId {as bs : List Node} (h : as.Perm bs)
    (hdistinct : (bs.map Node.epochId).Nodup)
    (ha : as.Pairwise fun a b => a.epochId ≤ b.epochId)
    (hb : bs.Pairwise fun a b => a.epochId ≤ b.epochId) : as = bs := by
  refine h.eq_of_pairwise (fun a b hmem hmem' hab hba => ?_) ha hb
  exact List.inj_on_of_nodup_map hdistinct (h.mem_iff.mp hmem) hmem' (le_antisymm hab hba)

/-- The first node's epoch is not after that of the second. -/
def Node.noLater (a b : Node) : Bool := a.epochId ≤ b.epochId

theorem Node.noLater_trans (a b c : Node) (hab : a.noLater b) (hbc : b.noLater c) :
    a.noLater c := by
  simp only [noLater, decide_eq_true_eq] at hab hbc ⊢
  omega

theorem Node.noLater_total (a b : Node) : (a.noLater b || b.noLater a) = true := by
  simp only [noLater, Bool.or_eq_true, decide_eq_true_eq]
  omega

namespace Scenario
variable (s : Scenario)

theorem sortedNodes_perm : s.sortedNodes.Perm s.nodes :=
  List.mergeSort_perm _ _

theorem stableOrder_sortedNodes : StableOrder s.nodes s.sortedNodes := by
  have h := sortsBy_mergeSort Node.epochId s.nodes
  exact ⟨h.sorted, h.stable⟩

theorem pairwise_sortedNodes : s.sortedNodes.Pairwise fun a b => a.epochId ≤ b.epochId :=
  s.stableOrder_sortedNodes.sorted

end Scenario

namespace Scenario
variable (s : Scenario)

/-- The node at `i` comes before the one at `j`: its epoch is earlier, or it is the same and the
node stands earlier in the scenario. -/
def Precedes (i j : Fin s.nodes.length) : Prop :=
  s.nodes[i].epochId < s.nodes[j].epochId ∨ (s.nodes[i].epochId = s.nodes[j].epochId ∧ i < j)

instance (i j : Fin s.nodes.length) : Decidable (s.Precedes i j) :=
  inferInstanceAs (Decidable (_ ∨ _))

/-- The node at `j` is the next one after that at `i`. -/
def Follows (i j : Fin s.nodes.length) : Prop :=
  s.Precedes i j ∧ ∀ k, ¬ (s.Precedes i k ∧ s.Precedes k j)

instance (i j : Fin s.nodes.length) : Decidable (s.Follows i j) :=
  inferInstanceAs (Decidable (_ ∧ _))

/-- The node at `j` does not name the hash of the node before it. -/
def Broken (j : Fin s.nodes.length) : Prop :=
  ∃ i, s.Follows i j ∧ Breaks s.nodes[i] s.nodes[j]

instance (j : Fin s.nodes.length) : Decidable (s.Broken j) :=
  inferInstanceAs (Decidable (∃ _, _))

instance : Std.Asymm s.Precedes where
  asymm i j hij hji := by
    unfold Precedes at hij hji
    omega

/-- The epoch at `i` is not after that at `j`. -/
def noLater (i j : Fin s.nodes.length) : Bool := s.nodes[i].epochId ≤ s.nodes[j].epochId

theorem noLater_trans (i j k : Fin s.nodes.length) (hij : s.noLater i j) (hjk : s.noLater j k) :
    s.noLater i k :=
  Node.noLater_trans _ _ _ hij hjk

theorem noLater_total (i j : Fin s.nodes.length) : (s.noLater i j || s.noLater j i) = true :=
  Node.noLater_total _ _

/-- The positions in the order of the verifier. -/
def positions : List (Fin s.nodes.length) :=
  (List.finRange s.nodes.length).mergeSort s.noLater

theorem mem_positions (i : Fin s.nodes.length) : i ∈ s.positions :=
  (List.mergeSort_perm _ _).mem_iff.mpr (List.mem_finRange i)

theorem nodup_positions : s.positions.Nodup :=
  (List.mergeSort_perm _ _).nodup_iff.mpr (List.nodup_finRange _)

theorem sortedNodes_eq : s.sortedNodes = s.positions.map fun i => s.nodes[i] := by
  have hnodes : (List.finRange s.nodes.length).map (fun i => s.nodes[i]) = s.nodes :=
    List.map_getElem_finRange s.nodes
  have hsort := List.map_mergeSort (f := fun i : Fin s.nodes.length => s.nodes[i])
    (r := s.noLater) (s := fun a b => a.epochId ≤ b.epochId) (l := List.finRange s.nodes.length)
    fun _ _ _ _ => rfl
  rw [positions, hsort, hnodes, sortedNodes]

/-- The positions with their numbers, which decide between positions of one epoch. -/
def numbered : List (Fin s.nodes.length × ℕ) :=
  (List.finRange s.nodes.length).zipIdx.mergeSort (List.zipIdxLE s.noLater)

theorem positions_eq : s.positions = s.numbered.map Prod.fst :=
  List.mergeSort_zipIdx.symm

theorem snd_eq_of_mem_numbered {a : Fin s.nodes.length × ℕ} (ha : a ∈ s.numbered) :
    a.2 = a.1.val := by
  have hget := List.mem_zipIdx_iff_getElem?.mp ((List.mergeSort_perm _ _).mem_iff.mp ha)
  obtain ⟨hlt, hget⟩ := List.getElem?_eq_some_iff.mp hget
  rw [← hget, List.getElem_finRange]
  rfl

theorem pairwise_numbered : s.numbered.Pairwise fun a b => List.zipIdxLE s.noLater a b :=
  List.pairwise_mergeSort (List.zipIdxLE_trans s.noLater_trans)
    (List.zipIdxLE_total s.noLater_total) _

theorem pairwise_positions : s.positions.Pairwise s.Precedes := by
  have hnodup := s.nodup_positions
  rw [positions_eq, List.Nodup, List.pairwise_map] at hnodup
  rw [positions_eq, List.pairwise_map]
  refine (s.pairwise_numbered.and hnodup).imp_of_mem ?_
  rintro ⟨i, m⟩ ⟨j, n⟩ hi hj ⟨hle, hne⟩
  obtain rfl : m = i.val := s.snd_eq_of_mem_numbered hi
  obtain rfl : n = j.val := s.snd_eq_of_mem_numbered hj
  have hepochs : s.nodes[i].epochId ≤ s.nodes[j].epochId ∧
      (s.nodes[i].epochId < s.nodes[j].epochId ∨ i ≤ j) := by
    simpa [List.zipIdxLE, noLater] using hle
  change i ≠ j at hne
  change s.Precedes i j
  unfold Precedes
  omega

/-- The sorted chain has a broken link exactly where a node departs from the one it follows. -/
theorem brokenLinks_pos_iff : 0 < brokenLinks s.sortedNodes ↔ ∃ j, s.Broken j := by
  have hlinks (i j : Fin s.nodes.length) :
      (i, j) ∈ s.positions.zip s.positions.tail ↔ s.Follows i j := by
    simp [mem_zip_tail_iff s.pairwise_positions, mem_positions, Follows]
  rw [sortedNodes_eq, brokenLinks_map, List.countP_pos_iff]
  constructor
  · rintro ⟨⟨i, j⟩, hmem, hbreak⟩
    exact ⟨j, i, (hlinks i j).mp hmem, by simpa using hbreak⟩
  · rintro ⟨j, i, hfollows, hbreak⟩
    exact ⟨(i, j), (hlinks i j).mpr hfollows, by simpa using hbreak⟩

end Scenario

/-- A node with nothing but its name, its epoch and its links. -/
def Node.plain (nodeId : String) (epochId : ℤ) (hash previousHash : String) : Node :=
  ⟨nodeId, epochId, hash, "", previousHash, "", none⟩

/-- A directive with nothing but its kind and its target. -/
def Directive.plain (kind : String) (targetNode : Option String) : Directive :=
  ⟨kind, targetNode, none, none, none⟩

/-- A scenario with nothing but nodes and corruptions. -/
def Scenario.plain (nodes : List Node) (corruptions : List Directive) : Scenario where
  scenarioId := ""
  tags := []
  group := ⟨"", 0, 0⟩
  nodes
  corruptions
  expectations := ⟨false, [], 0, false, false⟩

end Conformance.EpochChain
