import Conformance.Proofs.EpochFork.Refusal

/-!
# Depth

The walk from a node to its parents ends at a root, where it has made one hop for
each node below the root, or at the first node that it meets again, where it has
made one hop for each node on the way. Every chain of an accepted graph comes to
one or the other, since no parent is missing and there are finitely many nodes.
-/
namespace Conformance.EpochFork
open Conformance

namespace Graph

/-- The second node is in the graph, and the first one names it as its parent. -/
def IsParent (g : Graph) (child parent : Node) : Prop :=
  parent ∈ g.nodes ∧ child.parentId = some parent.nodeId

/-- In so many hops from parent to parent, the chain of the first node comes to the second. -/
inductive Climbs (g : Graph) : Node → ℕ → Node → Prop
  | here (node : Node) : Climbs g node 0 node
  | hop {child parent top : Node} {n : ℕ} (hparent : g.IsParent child parent)
    (hrest : Climbs g parent n top) : Climbs g child (n + 1) top

/-- The chain of the node comes to a root in so many hops. -/
def ReachesRoot (g : Graph) (node : Node) (hops : ℕ) : Prop :=
  ∃ root, g.Climbs node hops root ∧ root.parentId = none

/-- The chain of the node comes to a node whose own chain comes back to it. -/
def EntersCycle (g : Graph) (node : Node) : Prop :=
  ∃ m n entry, g.Climbs node m entry ∧ 0 < n ∧ g.Climbs entry n entry

/-- The nodes on the chain of a node, the node itself included. -/
def chain (g : Graph) (node : Node) : Set Node :=
  {a | ∃ n, g.Climbs node n a}

variable {g : Graph}

theorem IsParent.unique (h : (g.nodes.map Node.nodeId).Nodup) {child a b : Node}
    (ha : g.IsParent child a) (hb : g.IsParent child b) : a = b := by
  have hname : a.nodeId = b.nodeId := Option.some.inj (ha.2.symm.trans hb.2)
  exact List.inj_on_of_nodup_map h ha.1 hb.1 hname

namespace Climbs

variable {node a b : Node} {m n : ℕ}

theorem mem (h : g.Climbs node n a) (hnode : node ∈ g.nodes) : a ∈ g.nodes := by
  induction h with
  | here => exact hnode
  | hop hparent _ ih => exact ih hparent.1

theorem trans (h : g.Climbs node m a) (hrest : g.Climbs a n b) : g.Climbs node (m + n) b := by
  induction h with
  | here => rwa [Nat.zero_add]
  | @hop _ _ _ m hparent _ ih =>
    rw [Nat.add_right_comm]
    exact .hop hparent (ih hrest)

/-- A chain can be left at each of its hops. -/
theorem exists_between (h : g.Climbs node (m + n) b) : ∃ a, g.Climbs node m a ∧ g.Climbs a n b := by
  induction m generalizing node with
  | zero => exact ⟨node, .here node, by rwa [Nat.zero_add] at h⟩
  | succ m ih =>
    rw [Nat.add_right_comm] at h
    cases h with
    | hop hparent hrest =>
      obtain ⟨a, hfirst, hlast⟩ := ih hrest
      exact ⟨a, .hop hparent hfirst, hlast⟩

theorem unique (hnames : (g.nodes.map Node.nodeId).Nodup) (ha : g.Climbs node n a)
    (hb : g.Climbs node n b) : a = b := by
  induction ha with
  | here =>
    cases hb
    rfl
  | hop hparent _ ih =>
    cases hb with
    | hop hother hrest =>
      obtain rfl := hparent.unique hnames hother
      exact ih hrest

/-- What lies further up a chain is above what lies lower on it. -/
theorem from_lower (hnames : (g.nodes.map Node.nodeId).Nodup) (ha : g.Climbs node m a)
    (hb : g.Climbs node (m + n) b) : g.Climbs a n b := by
  obtain ⟨c, hc, hrest⟩ := hb.exists_between
  rwa [ha.unique hnames hc]

theorem not_root (h : g.Climbs node n a) (hn : 0 < n) : node.parentId ≠ none := by
  cases h with
  | here => exact absurd hn (Nat.lt_irrefl 0)
  | hop hparent _ => simp [hparent.2]

theorem round (h : g.Climbs a n a) (times : ℕ) : g.Climbs a (n * times) a := by
  induction times with
  | zero => exact .here a
  | succ times ih => exact ih.trans h

end Climbs

/-- Above a cycle there is no root, as the chain goes round once more after every hop. -/
theorem EntersCycle.not_reachesRoot (hnames : (g.nodes.map Node.nodeId).Nodup) {node : Node}
    (h : g.EntersCycle node) (hops : ℕ) : ¬ g.ReachesRoot node hops := by
  obtain ⟨m, n, entry, hentry, hn, hcycle⟩ := h
  rintro ⟨root, hroot, hnone⟩
  have hlater : hops < m + n * (hops + 1) := by
    have := Nat.le_mul_of_pos_left (hops + 1) hn
    omega
  obtain ⟨rest, hrest⟩ := Nat.exists_eq_add_of_lt hlater
  have hround := hentry.trans (hcycle.round (hops + 1))
  rw [hrest, Nat.add_assoc] at hround
  exact (hroot.from_lower hnames hround).not_root (Nat.succ_pos rest) hnone

theorem ReachesRoot.unique (hnames : (g.nodes.map Node.nodeId).Nodup) {node : Node} {m n : ℕ}
    (hm : g.ReachesRoot node m) (hn : g.ReachesRoot node n) : m = n := by
  obtain ⟨a, ha, hrootA⟩ := hm
  obtain ⟨b, hb, hrootB⟩ := hn
  by_contra hne
  rcases Nat.lt_or_gt_of_ne hne with hlt | hlt
  · obtain ⟨k, rfl⟩ := Nat.exists_eq_add_of_lt hlt
    exact (ha.from_lower hnames hb).not_root (Nat.succ_pos k) hrootA
  · obtain ⟨k, rfl⟩ := Nat.exists_eq_add_of_lt hlt
    exact (hb.from_lower hnames ha).not_root (Nat.succ_pos k) hrootB

end Graph

/-- A walk over parents: the hops it has made, the names it has seen, and the node where it is. -/
structure Walk where
  hops : ℕ
  seen : List String
  cursor : Option Node

namespace Walk

def start (g : Graph) (name : String) : Walk := ⟨0, [], g.get? name⟩

/-- One turn of the walk. There is none at a root, at a node that was seen, and nowhere. -/
def turn (g : Graph) (w : Walk) : Option Walk := do
  let node ← w.cursor
  let parent ← node.parentId
  if node.nodeId ∈ w.seen then none
  else some ⟨w.hops + 1, node.nodeId :: w.seen, g.get? parent⟩

/-- Turn by turn, the walk comes to its end, having made so many hops. -/
inductive Ends (g : Graph) : Walk → ℕ → Prop
  | done {w : Walk} (h : w.turn g = none) : Ends g w w.hops
  | turn {w next : Walk} {hops : ℕ} (h : w.turn g = some next) (hrest : Ends g next hops) :
    Ends g w hops

theorem turn_eq_some_iff (g : Graph) (w next : Walk) :
    w.turn g = some next ↔ ∃ node, w.cursor = some node ∧
      ∃ parent, node.parentId = some parent ∧ node.nodeId ∉ w.seen ∧
        ⟨w.hops + 1, node.nodeId :: w.seen, g.get? parent⟩ = next := by
  simp [turn, Option.bind_eq_some_iff]

theorem turn_eq_none_iff (g : Graph) (w : Walk) :
    w.turn g = none ↔ ∀ node, w.cursor = some node →
      node.parentId = none ∨ node.nodeId ∈ w.seen := by
  cases hcursor : w.cursor with
  | none => simp [turn, hcursor]
  | some node => cases hparent : node.parentId <;> simp [turn, hcursor, hparent]

end Walk

theorem pick?_eq_none_iff (name : String) (nodes : List Node) :
    pick? name nodes = none ↔ ∀ node ∈ nodes, node.nodeId ≠ name := by
  induction nodes with
  | nil => simp [pick?]
  | cons first rest ih =>
    rw [pick?, List.forall_mem_cons, ← ih]
    by_cases h : first.nodeId = name <;> simp [h]

/-- Under distinct names, the nodes that are left when one is picked are those of other names. -/
theorem eq_filter_of_pick? {nodes rest : List Node} (hnames : (nodes.map Node.nodeId).Nodup)
    {name : String} {node : Node} (h : pick? name nodes = some (node, rest)) :
    node ∈ nodes ∧ node.nodeId = name ∧ rest = nodes.filter (·.nodeId ≠ name) := by
  induction nodes generalizing rest with
  | nil => cases h
  | cons first others ih =>
    obtain ⟨hfirst, hothers⟩ := List.nodup_cons.mp hnames
    rw [pick?] at h
    split at h
    · rename_i hname
      cases h
      have hleft : ∀ other ∈ others, other.nodeId ≠ name := fun other hother hsame =>
        hfirst (hname.trans hsame.symm ▸ List.mem_map_of_mem hother)
      refine ⟨List.mem_cons_self, hname, ?_⟩
      rw [List.filter_cons_of_neg (by simpa using hname), List.filter_eq_self.mpr]
      exact fun other hother => by simpa using hleft other hother
    · rename_i hname
      obtain ⟨⟨found, left⟩, hpick, hpair⟩ := Option.map_eq_some_iff.mp h
      obtain ⟨rfl, rfl⟩ := Prod.mk.inj hpair
      obtain ⟨hmem, hfound, rfl⟩ := ih hothers hpick
      refine ⟨List.mem_cons_of_mem first hmem, hfound, ?_⟩
      rw [List.filter_cons_of_pos (by simpa using hname)]

theorem Graph.hops_le_length (nodes : List Node) (name : String) :
    Graph.hops nodes name ≤ nodes.length := by
  fun_induction Graph.hops nodes name with
  | case1 => exact Nat.zero_le _
  | case2 => exact Nat.zero_le _
  | case3 nodes name node rest hpick parent hparent ih =>
    have := pick?_length hpick
    omega

section
variable {g : Graph} {node : Node} {w next : Walk}

/-- Under an accepted graph, a parent that is named is found. -/
theorem Graph.exists_parent (hgraph : g.refusal? = none) {child : Node} (hchild : child ∈ g.nodes)
    {name : String} (hname : child.parentId = some name) :
    ∃ parent, g.get? name = some parent ∧ g.IsParent child parent := by
  obtain ⟨hnames, -, hparents⟩ := g.refusal?_eq_none_iff.mp hgraph
  obtain ⟨parent, hmem, rfl⟩ := hparents child hchild name hname
  exact ⟨parent, (Graph.get?_eq_some_iff hnames _ parent).mpr ⟨hmem, rfl⟩, hmem, hname⟩

/-- What a walk has done that began at the node: it has climbed the chain of the node by one node a
hop, all of them different, and seen those that it has left. -/
structure Walk.Follows (g : Graph) (node : Node) (w : Walk) : Prop where
  cursor : ∃ a, w.cursor = some a ∧ g.Climbs node w.hops a
  seen : ∀ name, name ∈ w.seen ↔ ∃ k < w.hops, ∃ a, g.Climbs node k a ∧ a.nodeId = name
  distinct : ∀ i < w.hops, ∀ j < w.hops, ∀ a, g.Climbs node i a → g.Climbs node j a → i = j

/-- The first so many nodes on the chain are different, and then it comes to a root or to one of
them. -/
structure Graph.Stops (g : Graph) (node : Node) (n : ℕ) : Prop where
  distinct : ∀ i < n, ∀ j < n, ∀ a, g.Climbs node i a → g.Climbs node j a → i = j
  stop : ∃ a, g.Climbs node n a ∧ (a.parentId = none ∨ ∃ k < n, g.Climbs node k a)

namespace Walk.Follows

theorem start (hnames : (g.nodes.map Node.nodeId).Nodup) (hnode : node ∈ g.nodes) :
    (Walk.start g node.nodeId).Follows g node where
  cursor := ⟨node, (Graph.get?_eq_some_iff hnames _ node).mpr ⟨hnode, rfl⟩, .here node⟩
  seen name := by simp [Walk.start]
  distinct i hi := absurd hi (Nat.not_lt_zero i)

theorem turn (hgraph : g.refusal? = none) (hnode : node ∈ g.nodes) (h : w.Follows g node)
    (hturn : w.turn g = some next) : next.Follows g node := by
  have hnames := Graph.nodup_of_refusal? hgraph
  obtain ⟨a, hcursor, name, hname, hnew, rfl⟩ := (w.turn_eq_some_iff g next).mp hturn
  obtain ⟨b, hb, hclimb⟩ := h.cursor
  obtain rfl : b = a := Option.some.inj (hb.symm.trans hcursor)
  obtain ⟨parent, hget, hparent⟩ := Graph.exists_parent hgraph (hclimb.mem hnode) hname
  have hfresh : ∀ k < w.hops, ¬ g.Climbs node k b := fun k hk hkb =>
    hnew ((h.seen b.nodeId).mpr ⟨k, hk, b, hkb, rfl⟩)
  refine ⟨⟨parent, hget, hclimb.trans (.hop hparent (.here parent))⟩, fun seen => ?_, ?_⟩
  · rw [List.mem_cons, h.seen, Nat.exists_lt_succ_right, or_comm]
    refine or_congr_right ⟨?_, ?_⟩
    · rintro rfl
      exact ⟨b, hclimb, rfl⟩
    · rintro ⟨c, hc, rfl⟩
      rw [hc.unique hnames hclimb]
  · intro i hi j hj c hic hjc
    rcases Nat.lt_succ_iff_lt_or_eq.mp hi with hi | rfl
    · rcases Nat.lt_succ_iff_lt_or_eq.mp hj with hj | rfl
      · exact h.distinct i hi j hj c hic hjc
      · exact absurd (hclimb.unique hnames hjc ▸ hic) (hfresh i hi)
    · rcases Nat.lt_succ_iff_lt_or_eq.mp hj with hj | rfl
      · exact absurd (hclimb.unique hnames hic ▸ hjc) (hfresh j hj)
      · rfl

theorem stops (hnames : (g.nodes.map Node.nodeId).Nodup) (hnode : node ∈ g.nodes)
    (h : w.Follows g node) (hend : w.turn g = none) : g.Stops node w.hops := by
  obtain ⟨a, hcursor, hclimb⟩ := h.cursor
  refine ⟨h.distinct, a, hclimb, ?_⟩
  refine ((w.turn_eq_none_iff g).mp hend a hcursor).imp_right fun hseen => ?_
  obtain ⟨k, hk, b, hb, hname⟩ := (h.seen a.nodeId).mp hseen
  rw [← List.inj_on_of_nodup_map hnames (hb.mem hnode) (hclimb.mem hnode) hname]
  exact ⟨k, hk, hb⟩

end Walk.Follows

theorem Walk.Ends.stops (hgraph : g.refusal? = none) (hnode : node ∈ g.nodes) {hops : ℕ}
    (h : w.Ends g hops) (hfollows : w.Follows g node) : g.Stops node hops := by
  induction h with
  | done hend => exact hfollows.stops (Graph.nodup_of_refusal? hgraph) hnode hend
  | turn hturn _ ih => exact ih (hfollows.turn hgraph hnode hturn)

/-- The hops that are left are those among the nodes that the walk has not seen. -/
theorem Walk.ends_hops (hgraph : g.refusal? = none) (hops : ℕ) (seen : List String)
    (name : String) :
    (Walk.mk hops seen (g.get? name)).Ends g
      (hops + Graph.hops (g.nodes.filter (·.nodeId ∉ seen)) name) := by
  have hnames := Graph.nodup_of_refusal? hgraph
  have hmem (seen : List String) (node : Node) :
      node ∈ g.nodes.filter (·.nodeId ∉ seen) ↔ node ∈ g.nodes ∧ node.nodeId ∉ seen := by
    simp
  have hdistinct (seen : List String) :
      ((g.nodes.filter (·.nodeId ∉ seen)).map Node.nodeId).Nodup :=
    hnames.sublist (List.filter_sublist.map Node.nodeId)
  generalize hunvisited : g.nodes.filter (·.nodeId ∉ seen) = unvisited
  fun_induction Graph.hops unvisited name generalizing hops seen with
  | case1 unvisited name hpick =>
    subst hunvisited
    refine .done ((Walk.turn_eq_none_iff g _).mpr fun node hget => .inr ?_)
    obtain ⟨hnode, hname⟩ := (Graph.get?_eq_some_iff hnames name node).mp hget
    by_contra hnew
    exact (pick?_eq_none_iff name _).mp hpick node ((hmem seen node).mpr ⟨hnode, hnew⟩) hname
  | case2 unvisited name node rest hpick hroot =>
    subst hunvisited
    obtain ⟨hnode, hname, -⟩ := eq_filter_of_pick? (hdistinct seen) hpick
    have hget := (Graph.get?_eq_some_iff hnames name node).mpr
      ⟨((hmem seen node).mp hnode).1, hname⟩
    refine .done ((Walk.turn_eq_none_iff g _).mpr fun other hother => .inl ?_)
    rwa [← Option.some.inj (hget.symm.trans hother)]
  | case3 unvisited name node rest hpick parent hparent ih =>
    subst hunvisited
    obtain ⟨hnode, rfl, rfl⟩ := eq_filter_of_pick? (hdistinct seen) hpick
    obtain ⟨hnode, hnew⟩ := (hmem seen node).mp hnode
    have hget := (Graph.get?_eq_some_iff hnames _ node).mpr ⟨hnode, rfl⟩
    have hleft : g.nodes.filter (·.nodeId ∉ node.nodeId :: seen) =
        (g.nodes.filter (·.nodeId ∉ seen)).filter (·.nodeId ≠ node.nodeId) := by
      rw [List.filter_filter]
      simp
    refine .turn ((Walk.turn_eq_some_iff g _ _).mpr ⟨node, hget, parent, hparent, hnew, rfl⟩) ?_
    rw [← Nat.add_assoc, Nat.add_right_comm]
    exact ih (hops + 1) (node.nodeId :: seen) hleft

theorem Walk.ends_depth (hgraph : g.refusal? = none) (name : String) :
    (Walk.start g name).Ends g (g.depth name) := by
  have hall : g.nodes.filter (·.nodeId ∉ ([] : List String)) = g.nodes := by simp
  have hends := Walk.ends_hops hgraph 0 [] name
  rwa [hall, Nat.zero_add] at hends

end

namespace Graph

variable {g : Graph} {node : Node}

theorem stops_depth (hgraph : g.refusal? = none) (hnode : node ∈ g.nodes) :
    g.Stops node (g.depth node.nodeId) :=
  (Walk.ends_depth hgraph node.nodeId).stops hgraph hnode
    (Walk.Follows.start (nodup_of_refusal? hgraph) hnode)

namespace Stops

variable {n : ℕ}

theorem reachesRoot_or_entersCycle (hnames : (g.nodes.map Node.nodeId).Nodup)
    (h : g.Stops node n) : g.ReachesRoot node n ∨ g.EntersCycle node := by
  obtain ⟨a, hclimb, hroot | ⟨k, hk, hagain⟩⟩ := h.stop
  · exact .inl ⟨a, hclimb, hroot⟩
  · obtain ⟨m, rfl⟩ := Nat.exists_eq_add_of_lt hk
    exact .inr ⟨k, m + 1, a, hagain, Nat.succ_pos m, hagain.from_lower hnames hclimb⟩

/-- Where there is no root, the chain repeats the nodes that it stopped at. -/
theorem exists_climbs_lt (hnames : (g.nodes.map Node.nodeId).Nodup) (h : g.Stops node n)
    (hcycle : g.EntersCycle node) {a : Node} (ha : a ∈ g.chain node) :
    ∃ k < n, g.Climbs node k a := by
  obtain ⟨i, hi⟩ := ha
  induction i using Nat.strong_induction_on generalizing a with
  | h i ih =>
    rcases Nat.lt_or_ge i n with hlt | hge
    · exact ⟨i, hlt, hi⟩
    · obtain ⟨b, hclimb, hroot | ⟨k, hk, hagain⟩⟩ := h.stop
      · exact (hcycle.not_reachesRoot hnames n ⟨b, hclimb, hroot⟩).elim
      · obtain ⟨m, rfl⟩ := Nat.exists_eq_add_of_le hge
        have hshort := hagain.trans (hclimb.from_lower hnames hi)
        exact ih (k + m) (by omega) hshort

theorem encard_chain (hnames : (g.nodes.map Node.nodeId).Nodup) (hnode : node ∈ g.nodes)
    (h : g.Stops node n) (hcycle : g.EntersCycle node) : (g.chain node).encard = n := by
  have hfinite : (g.chain node).Finite :=
    (List.finite_toSet g.nodes).subset fun a ⟨_, ha⟩ => ha.mem hnode
  rw [← hfinite.cast_ncard_eq, Nat.cast_inj]
  obtain ⟨top, hclimb, -⟩ := h.stop
  have hbelow (i : ℕ) (hi : i < n) : ∃ a, g.Climbs node i a := by
    obtain ⟨k, rfl⟩ := Nat.exists_eq_add_of_lt hi
    rw [Nat.add_assoc] at hclimb
    exact hclimb.exists_between.imp fun a ha => ha.1
  choose nodeAt hnodeAt using hbelow
  refine Set.ncard_eq_of_bijective nodeAt ?_ ?_ ?_
  · intro a ha
    obtain ⟨k, hk, hka⟩ := h.exists_climbs_lt hnames hcycle ha
    exact ⟨k, hk, (hnodeAt k hk).unique hnames hka⟩
  · exact fun i hi => ⟨i, hnodeAt i hi⟩
  · intro i j hi hj hsame
    exact h.distinct i hi j hj _ (hnodeAt i hi) (hsame ▸ hnodeAt j hj)

end Stops

theorem depth_eq_of_reachesRoot (hgraph : g.refusal? = none) (hnode : node ∈ g.nodes) {hops : ℕ}
    (h : g.ReachesRoot node hops) : g.depth node.nodeId = hops := by
  have hnames := nodup_of_refusal? hgraph
  rcases (stops_depth hgraph hnode).reachesRoot_or_entersCycle hnames with hroot | hcycle
  · exact hroot.unique hnames h
  · exact (hcycle.not_reachesRoot hnames hops h).elim

theorem ReachesRoot.parent (hnames : (g.nodes.map Node.nodeId).Nodup) {child parent : Node}
    {hops : ℕ} (h : g.ReachesRoot child hops) (hparent : g.IsParent child parent) :
    ∃ n, hops = n + 1 ∧ g.ReachesRoot parent n := by
  obtain ⟨root, hclimb, hroot⟩ := h
  cases hclimb with
  | here => simp [hparent.2] at hroot
  | @hop _ other _ n hother hrest =>
    rw [hother.unique hnames hparent] at hrest
    exact ⟨n, rfl, root, hrest, hroot⟩

theorem depth_of_unknown {name : String} (h : ¬ g.Names name) : g.depth name = 0 := by
  have hpick := (pick?_eq_none_iff name g.nodes).mpr fun node hnode hname => h ⟨node, hnode, hname⟩
  rw [depth, hops]
  split
  · rfl
  · rename_i hfound
    cases hpick.symm.trans hfound

/-- The walk from any name ends, with the depth of the name as its hops, and in no more hops than
there are nodes. A chain of parents comes to a root, which is then so many hops away, or it enters a
cycle, and then the hops are the nodes of the chain and the cycle. A name that no node has is of
depth zero. -/
theorem depth_exact (g : Graph) (hgraph : g.refusal? = none) :
    (∀ name, (Walk.start g name).Ends g (g.depth name) ∧ g.depth name ≤ g.nodes.length) ∧
    (∀ node ∈ g.nodes, (∃ hops, g.ReachesRoot node hops) ∨ g.EntersCycle node) ∧
    (∀ node ∈ g.nodes, ∀ hops, g.ReachesRoot node hops → g.depth node.nodeId = hops ∧
      (node.parentId = none → g.depth node.nodeId = 0) ∧
      ∀ parent, g.IsParent node parent → g.depth node.nodeId = g.depth parent.nodeId + 1) ∧
    (∀ node ∈ g.nodes, g.EntersCycle node → (g.chain node).encard = g.depth node.nodeId) ∧
    ∀ name, ¬ g.Names name → g.depth name = 0 := by
  have hnames := nodup_of_refusal? hgraph
  refine ⟨fun name => ⟨Walk.ends_depth hgraph name, hops_le_length g.nodes name⟩, ?_, ?_, ?_, ?_⟩
  · intro node hnode
    exact ((stops_depth hgraph hnode).reachesRoot_or_entersCycle hnames).imp_left fun h => ⟨_, h⟩
  · intro node hnode hops hroot
    have hdepth := depth_eq_of_reachesRoot hgraph hnode hroot
    refine ⟨hdepth, fun hnone => ?_, fun parent hparent => ?_⟩
    · exact depth_eq_of_reachesRoot hgraph hnode ⟨node, .here node, hnone⟩
    · obtain ⟨n, rfl, habove⟩ := hroot.parent hnames hparent
      rw [hdepth, depth_eq_of_reachesRoot hgraph hparent.1 habove]
  · intro node hnode hcycle
    exact (stops_depth hgraph hnode).encard_chain hnames hnode hcycle
  · exact fun name hname => depth_of_unknown hname

/-- A node with a name and a parent, and nothing else. -/
def nodeOf (name : String) (parent : Option String) : Node :=
  ⟨name, 0, "", none, none, parent, "", 0⟩

/-- A root with a child, two nodes that are each other's parent, and a node before these. -/
def rootAndRing : Graph where
  nodes := [nodeOf "root" none, nodeOf "child" (some "root"), nodeOf "tail" (some "left"),
    nodeOf "left" (some "right"), nodeOf "right" (some "left")]
  edges := []

theorem depth_exact_rootAndRing :
    rootAndRing.refusal? = none ∧ rootAndRing.depth "child" = 1 ∧
      rootAndRing.depth "child" = rootAndRing.depth "root" + 1 ∧
      (rootAndRing.chain (nodeOf "tail" (some "left"))).encard = 3 ∧
      rootAndRing.depth "stranger" = 0 := by
  have hgraph : rootAndRing.refusal? = none := by decide
  have htail : rootAndRing.depth "tail" = 3 := by cbv
  have hparent : rootAndRing.IsParent (nodeOf "child" (some "root")) (nodeOf "root" none) :=
    ⟨by decide, rfl⟩
  have hleft : rootAndRing.IsParent (nodeOf "left" (some "right")) (nodeOf "right" (some "left")) :=
    ⟨by decide, rfl⟩
  have hright : rootAndRing.IsParent (nodeOf "right" (some "left")) (nodeOf "left" (some "right")) :=
    ⟨by decide, rfl⟩
  have hbefore : rootAndRing.IsParent (nodeOf "tail" (some "left")) (nodeOf "left" (some "right")) :=
    ⟨by decide, rfl⟩
  have hring : rootAndRing.EntersCycle (nodeOf "tail" (some "left")) :=
    ⟨1, 2, _, .hop hbefore (.here _), by decide, .hop hleft (.hop hright (.here _))⟩
  obtain ⟨-, -, hroot, hcycle, hunknown⟩ := depth_exact rootAndRing hgraph
  obtain ⟨hdepth, -, habove⟩ :=
    hroot _ (by decide) 1 ⟨nodeOf "root" none, .hop hparent (.here _), rfl⟩
  refine ⟨hgraph, hdepth, habove _ hparent, ?_, hunknown "stranger" (by decide)⟩
  rw [hcycle _ (by decide) hring, nodeOf, htail]
  rfl

end Graph
end Conformance.EpochFork
