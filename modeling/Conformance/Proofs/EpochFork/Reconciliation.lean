import Conformance.Proofs.EpochFork.Issue
import Conformance.Proofs.Word

/-!
# Reconciliation in any order

The issued nodes are kept epoch by epoch, and the first of them that stands
highest wins. Nodes that stand equally high are of one epoch, where they are kept
in order of issue, so the winner is the first such node that was issued. Its
standing is the greatest of a set that the order of the events does not change;
nor does that order change how many messages are dropped or whether a chain is
broken.
-/
namespace Conformance.EpochFork
open Conformance

section
variable (g : Graph)

/-- What nodes compete by: the depth, then the epoch, then the earlier time, then the hash. -/
def standing (node : Node) : ℕ ×ₗ ℤ ×ₗ ℤᵒᵈ ×ₗ String :=
  toLex (g.depth node.nodeId, toLex (node.epochId, toLex (.toDual node.timestampMs, node.hash)))

theorem rank_eq_gt_iff (a b : Node) : rank g a b = .gt ↔ standing g b < standing g a := by
  simp only [rank, standing, Ordering.then_eq_gt, compare_gt_iff_gt, compare_eq_iff_eq,
    Prod.Lex.toLex_lt_toLex, OrderDual.toDual_lt_toDual, OrderDual.toDual_inj]
  grind

variable {g}

theorem standing_eq_iff (a b : Node) :
    standing g a = standing g b ↔
      g.depth a.nodeId = g.depth b.nodeId ∧ a.epochId = b.epochId ∧
        a.timestampMs = b.timestampMs ∧ a.hash = b.hash := by
  simp only [standing, EmbeddingLike.apply_eq_iff_eq, Prod.mk.injEq]

/-- The node stands above all that come before it in the list, and none that comes after it stands
above the node. -/
def Leads (g : Graph) (nodes : List Node) (node : Node) : Prop :=
  ∃ earlier later, nodes = earlier ++ node :: later ∧
    (∀ other ∈ earlier, standing g other < standing g node) ∧
    ∀ other ∈ later, standing g other ≤ standing g node

namespace Leads

variable {nodes : List Node} {node : Node}

theorem mem (h : Leads g nodes node) : node ∈ nodes := by
  obtain ⟨earlier, later, rfl, -, -⟩ := h
  exact List.mem_append_right _ List.mem_cons_self

theorem standing_le (h : Leads g nodes node) {other : Node} (hother : other ∈ nodes) :
    standing g other ≤ standing g node := by
  obtain ⟨earlier, later, rfl, hearlier, hlater⟩ := h
  rcases List.mem_append.mp hother with hmem | hmem
  · exact (hearlier other hmem).le
  · rcases List.mem_cons.mp hmem with rfl | hmem
    · exact le_rfl
    · exact hlater other hmem

theorem standing_eq {others : List Node} {other : Node} (h : Leads g nodes node)
    (hother : Leads g others other) (hmem : ∀ n, n ∈ nodes ↔ n ∈ others) :
    standing g node = standing g other :=
  le_antisymm (hother.standing_le ((hmem node).mp h.mem))
    (h.standing_le ((hmem other).mpr hother.mem))

theorem append_singleton (h : Leads g nodes node) {last : Node}
    (hlast : ¬ standing g node < standing g last) : Leads g (nodes ++ [last]) node := by
  obtain ⟨earlier, later, rfl, hearlier, hlater⟩ := h
  refine ⟨earlier, later ++ [last], by simp, hearlier, ?_⟩
  intro other hother
  rcases List.mem_append.mp hother with hmem | hmem
  · exact hlater other hmem
  · rw [List.mem_singleton.mp hmem]
    exact not_lt.mp hlast

theorem of_last {last : Node} (h : ∀ other ∈ nodes, standing g other < standing g last) :
    Leads g (nodes ++ [last]) last :=
  ⟨nodes, [], rfl, h, nofun⟩

end Leads

theorem leads_iff (nodes : List Node) (node : Node) :
    Leads g nodes node ↔
      (∀ other ∈ nodes, standing g other ≤ standing g node) ∧
        nodes.find? (fun other => standing g other = standing g node) = some node := by
  constructor
  · intro h
    refine ⟨fun other hother => h.standing_le hother, ?_⟩
    obtain ⟨earlier, later, rfl, hearlier, -⟩ := h
    rw [List.find?_eq_some_iff_append]
    refine ⟨by simp, earlier, later, rfl, ?_⟩
    intro other hother
    simpa using (hearlier other hother).ne
  · rintro ⟨hmax, hfirst⟩
    obtain ⟨-, earlier, later, rfl, hearlier⟩ := List.find?_eq_some_iff_append.mp hfirst
    refine ⟨earlier, later, rfl, ?_, ?_⟩
    · intro other hother
      apply lt_of_le_of_ne
      · exact hmax other (List.mem_append_left _ hother)
      · simpa using hearlier other hother
    · intro other hother
      exact hmax other (List.mem_append_right _ (List.mem_cons_of_mem _ hother))

/-- The leading node can be told from the nodes of each epoch alone, in their order. -/
theorem Leads.of_filter_epochId {nodes others : List Node} {node : Node} (h : Leads g nodes node)
    (hepochs : ∀ epoch, nodes.filter (·.epochId = epoch) = others.filter (·.epochId = epoch)) :
    Leads g others node := by
  obtain ⟨hmax, hfirst⟩ := (leads_iff nodes node).mp h
  have hfind : ∀ l : List Node, l.find? (fun other => standing g other = standing g node) =
      (l.filter (·.epochId = node.epochId)).find?
        (fun other => standing g other = standing g node) := by
    intro l
    rw [List.find?_filter]
    congr 1
    funext other
    by_cases hequal : standing g other = standing g node
    · simp [hequal, ((standing_eq_iff other node).mp hequal).2.1]
    · simp [hequal]
  refine (leads_iff others node).mpr ⟨?_, ?_⟩
  · intro other hother
    have hfiltered : other ∈ others.filter (·.epochId = other.epochId) := by simpa using hother
    rw [← hepochs] at hfiltered
    exact hmax other (List.mem_of_mem_filter hfiltered)
  · rw [hfind, ← hepochs, ← hfind, hfirst]

theorem best?_append_singleton (nodes : List Node) (node : Node) :
    best? g (nodes ++ [node]) =
      match best? g nodes with
      | none => some node
      | some b => if rank g node b = .gt then some node else some b := by
  rw [best?, List.foldl_append, List.foldl_cons, List.foldl_nil]
  rfl

theorem best?_cases (nodes : List Node) :
    (nodes = [] ∧ best? g nodes = none) ∨
      ∃ node, Leads g nodes node ∧ best? g nodes = some node := by
  induction nodes using List.reverseRecOn with
  | nil => exact .inl ⟨rfl, rfl⟩
  | append_singleton nodes last ih =>
    right
    rw [best?_append_singleton]
    rcases ih with ⟨rfl, hnone⟩ | ⟨node, hleads, hsome⟩
    · rw [hnone]
      exact ⟨last, Leads.of_last nofun, rfl⟩
    · rw [hsome]
      by_cases habove : standing g node < standing g last
      · refine ⟨last, Leads.of_last fun other hother => ?_, if_pos ?_⟩
        · exact (hleads.standing_le hother).trans_lt habove
        · exact (rank_eq_gt_iff g last node).mpr habove
      · exact ⟨node, hleads.append_singleton habove,
          if_neg (mt (rank_eq_gt_iff g last node).mp habove)⟩

end

theorem keys_addTo {κ : Type} [DecidableEq κ] (key : κ) (node : Node)
    (groups : List (κ × List Node)) :
    (addTo key node groups).map Prod.fst =
      if key ∈ groups.map Prod.fst then groups.map Prod.fst else groups.map Prod.fst ++ [key] := by
  induction groups with
  | nil => rfl
  | cons first rest ih =>
    obtain ⟨name, members⟩ := first
    by_cases hname : name = key
    · simp [addTo, hname]
    · rw [addTo, if_neg hname, List.map_cons, ih]
      by_cases hmem : key ∈ rest.map Prod.fst
      · simp [hmem]
      · simp [hmem, Ne.symm hname]

theorem nodup_keys_addTo {κ : Type} [DecidableEq κ] {groups : List (κ × List Node)}
    (h : (groups.map Prod.fst).Nodup) (key : κ) (node : Node) :
    ((addTo key node groups).map Prod.fst).Nodup := by
  rw [keys_addTo]
  by_cases hmem : key ∈ groups.map Prod.fst
  · rwa [if_pos hmem]
  · rw [if_neg hmem, ← List.concat_eq_append]
    exact h.concat hmem

theorem group_eq_nil {κ : Type} [DecidableEq κ] {groups : List (κ × List Node)} {key : κ}
    (h : key ∉ groups.map Prod.fst) : group key groups = [] := by
  induction groups with
  | nil => rfl
  | cons first rest ih =>
    obtain ⟨hfirst, hrest⟩ := not_or.mp (mt List.mem_cons.mpr h)
    rw [group_cons, if_neg (Ne.symm hfirst), ih hrest]

/-- Where each epoch has one group, and the group holds the nodes of that epoch, the nodes of all
groups in a row hold those of an epoch as its group does. -/
theorem filter_flatMap_eq_group {groups : List (ℤ × List Node)}
    (hkeys : (groups.map Prod.fst).Nodup)
    (hmembers : ∀ epoch, ∀ node ∈ group epoch groups, node.epochId = epoch) (epoch : ℤ) :
    (groups.flatMap (·.2)).filter (·.epochId = epoch) = group epoch groups := by
  induction groups with
  | nil => rfl
  | cons first rest ih =>
    obtain ⟨key, members⟩ := first
    obtain ⟨hkey, hkeys⟩ := List.nodup_cons.mp hkeys
    have hfirst : ∀ node ∈ members, node.epochId = key := by
      intro node hnode
      apply hmembers key node
      rwa [group_cons, if_pos rfl]
    have hrest : ∀ other, ∀ node ∈ group other rest, node.epochId = other := by
      intro other node hnode
      by_cases hother : key = other
      · subst hother
        rw [group_eq_nil hkey] at hnode
        cases hnode
      · apply hmembers other node
        rwa [group_cons, if_neg hother]
    rw [List.flatMap_cons, List.filter_append, ih hkeys hrest, group_cons]
    by_cases hepoch : key = epoch
    · subst hepoch
      rw [if_pos rfl, group_eq_nil hkey, List.append_nil]
      exact List.filter_eq_self.mpr fun node hnode => by simpa using hfirst node hnode
    · rw [if_neg hepoch, List.filter_eq_nil_iff.mpr, List.nil_append]
      intro node hnode
      simpa [hfirst node hnode] using hepoch

/-- How many messages the event lets go. -/
def Event.lost (e : Event) : ℤ :=
  if e.kind = "replay_attempt" then e.count.getD 0 else 0

theorem Event.lost_eq_zero {e : Event} (h : e.kind = "epoch_issue") : e.lost = 0 := by
  simp [lost, h]

theorem sum_lost_snoc (past : List Event) (e : Event) :
    ((past ++ [e]).map Event.lost).sum = (past.map Event.lost).sum + e.lost := by
  simp

/-- If the event is an issue that is not dropped, it names a node. -/
def Event.Known (g : Graph) (e : Event) : Prop :=
  e.kind = "epoch_issue" → "drop_next_eare" ∉ e.faults →
    ∃ node ∈ g.nodes, e.nodeId = some node.nodeId

theorem Event.issued?_isSome_iff {g : Graph} (hgraph : g.refusal? = none) {e : Event}
    (hknown : e.Known g) :
    (e.issued? g).isSome = true ↔ e.kind = "epoch_issue" ∧ "drop_next_eare" ∉ e.faults := by
  rw [Option.isSome_iff_exists]
  simp only [issued?_eq_some_iff hgraph]
  constructor
  · rintro ⟨node, hkind, hkept, -⟩
    exact ⟨hkind, hkept⟩
  · rintro ⟨hkind, hkept⟩
    obtain ⟨node, hnode, hname⟩ := hknown hkind hkept
    exact ⟨node, hkind, hkept, hnode, hname⟩

theorem exists_step_eq_ok_iff (g : Graph) (t : Tracker) (e : Event) :
    (∃ t', step g t e = .ok t') ↔ e.Known g := by
  have hget : (∃ node, e.nodeId.bind g.get? = some node) ↔
      ∃ node ∈ g.nodes, e.nodeId = some node.nodeId := by
    rw [← Option.isSome_iff_exists]
    cases e.nodeId with
    | none => simp
    | some name =>
      simp only [Option.bind_some, Graph.get?, List.find?_isSome, beq_iff_eq, Option.some.injEq]
      exact exists_congr fun node => and_congr_right fun _ => eq_comm
  have hdrop : e.isDropped = true ↔ "drop_next_eare" ∈ e.faults := by simp [Event.isDropped]
  unfold step Event.Known
  split
  · rename_i hkind
    by_cases hdropped : "drop_next_eare" ∈ e.faults
    · simp [hdrop.mpr hdropped, hdropped]
    · rw [if_neg (mt hdrop.mp hdropped)]
      simp only [hkind, hdropped, not_false_eq_true, forall_const, ← hget]
      cases e.nodeId.bind g.get? <;> simp
  · rename_i hkind
    simp [hkind]
  · rename_i hkind
    simp [hkind]
  · rename_i hissue _ _
    exact ⟨fun _ hkind => (hissue hkind).elim, fun _ => ⟨t, rfl⟩⟩

theorem exists_run_eq_ok_iff (g : Graph) (t : Tracker) (events : List Event) :
    (∃ t', events.foldlM (step g) t = .ok t') ↔ ∀ e ∈ events, e.Known g := by
  induction events generalizing t with
  | nil => exact ⟨fun _ => nofun, fun _ => ⟨t, rfl⟩⟩
  | cons e events ih =>
    rw [List.forall_mem_cons, ← exists_step_eq_ok_iff g t e]
    simp only [List.foldlM_cons, bind_eq_ok_iff]
    constructor
    · rintro ⟨t', middle, hfirst, hrest⟩
      exact ⟨⟨middle, hfirst⟩, (ih middle).mp ⟨t', hrest⟩⟩
    · rintro ⟨⟨middle, hfirst⟩, hall⟩
      obtain ⟨t', hrest⟩ := (ih middle).mpr hall
      exact ⟨t', middle, hfirst, hrest⟩

theorem exists_simulate_eq_ok_iff (g : Graph) (reference : Reference) (events : List Event) :
    (∃ outcome, simulate g reference events = .ok outcome) ↔
      g.refusal? = none ∧ ∀ e ∈ events, e.Known g := by
  have hevents : (∀ e ∈ events, e.Known g) ↔ ∀ e ∈ inOrder events, e.Known g := by
    simp only [mem_inOrder]
  rw [hevents, ← exists_run_eq_ok_iff g .new]
  simp only [simulate_eq_ok_iff]
  constructor
  · rintro ⟨outcome, hgraph, t, hrun, -⟩
    exact ⟨hgraph, t, hrun⟩
  · rintro ⟨hgraph, t, hrun⟩
    exact ⟨_, hgraph, t, hrun, rfl⟩

/-- The epoch and the hash by which a winner is agreed on. -/
def Winner.branch (w : Winner) : ℤ × String := (w.epochId, w.hash)

/-- What a tracker has gathered from the events so far, in any case. -/
structure Tracker.Gathers (g : Graph) (t : Tracker) (past : List Event) : Prop where
  holds : t.Holds (issuedNodes g past)
  keys : (t.epochs.map Prod.fst).Nodup
  chainBreak : .chainBreak ∈ t.errors ↔ ∃ node ∈ issuedNodes g past, breaksChain g node = true
  messagesDropped : t.messagesDropped = Word.wrap (past.map Event.lost).sum

namespace Tracker.Gathers

variable {g : Graph} {t t' : Tracker} {past : List Event} {e : Event}

theorem step (h : t.Gathers g past) (hs : step g t e = .ok t') : t'.Gathers g (past ++ [e]) := by
  have hholds := h.holds.step hs
  rw [← issuedNodes_snoc] at hholds
  have hlost : Word.wrap ((past ++ [e]).map Event.lost).sum =
      Word.wrap (t.messagesDropped + e.lost) := by
    rw [h.messagesDropped, Word.wrap_wrap_add, sum_lost_snoc]
  have hkept : Word.wrap (t.messagesDropped + 0) = t.messagesDropped := by
    rw [h.messagesDropped, Word.wrap_wrap_add, add_zero]
  rcases step_cases hs with ⟨node, hissued, rfl⟩ | ⟨hissued, hrest⟩
  · have hkind : e.lost = 0 := Event.lost_eq_zero (Option.ite_none_right_eq_some.mp hissued).1.1
    refine ⟨hholds, ?_, ?_, ?_⟩
    · rw [issue_epochs]
      exact nodup_keys_addTo h.keys node.epochId node
    · rw [chainBreak_mem_issue_errors, h.chainBreak, issuedNodes_snoc, hissued]
      simp [or_and_right, exists_or]
    · rw [hlost, hkind, issue_messagesDropped, hkept]
  · have hbreak : .chainBreak ∈ t.errors ↔
        ∃ node ∈ issuedNodes g (past ++ [e]), breaksChain g node = true := by
      rw [h.chainBreak, issuedNodes_snoc, hissued, Option.toList_none, List.append_nil]
    rcases hrest with ⟨hkind, rfl⟩ | ⟨hkind, rfl⟩ | ⟨hreplay, -, rfl⟩
    · refine ⟨hholds, h.keys, hbreak, ?_⟩
      rw [hlost, Event.lost, if_pos hkind, Tracker.drop, Tracker.dropsTo]
    · refine ⟨hholds, h.keys, hbreak, ?_⟩
      rw [hlost, Event.lost, if_neg (by simp [hkind]), hkept, Tracker.merge]
    · refine ⟨hholds, h.keys, hbreak, ?_⟩
      rw [hlost, Event.lost, if_neg hreplay, hkept]

theorem run {events : List Event} (h : events.foldlM (EpochFork.step g) new = .ok t) :
    t.Gathers g events := by
  have hstart : new.Gathers g [] := ⟨holds_new, List.nodup_nil, by simp [new, issuedNodes], rfl⟩
  exact run_invariant (fun _ _ _ _ hpast hs => hpast.step hs) h hstart

theorem filter_issued (h : t.Gathers g past) (epoch : ℤ) :
    t.issued.filter (·.epochId = epoch) = (issuedNodes g past).filter (·.epochId = epoch) := by
  have hgroup := h.holds.epochs
  rw [issued, filter_flatMap_eq_group h.keys, hgroup]
  intro other node hnode
  rw [hgroup] at hnode
  simpa using List.of_mem_filter hnode

/-- There is a winner if a node was issued: the first of the highest. -/
theorem winner_cases (h : t.Gathers g past) :
    (issuedNodes g past = [] ∧ t.winner g = none) ∨
      ∃ node, Leads g (issuedNodes g past) node ∧
        t.winner g = some ⟨node.nodeId, node.epochId, node.hash⟩ := by
  unfold winner
  rcases best?_cases (g := g) t.issued with ⟨hempty, hnone⟩ | ⟨node, hleads, hsome⟩
  · left
    rw [hnone]
    refine ⟨?_, rfl⟩
    rw [List.eq_nil_iff_forall_not_mem]
    intro node hnode
    have hfiltered : node ∈ (issuedNodes g past).filter (·.epochId = node.epochId) := by
      simpa using hnode
    rw [← h.filter_issued, hempty] at hfiltered
    cases hfiltered
  · right
    rw [hsome]
    exact ⟨node, hleads.of_filter_epochId h.filter_issued, rfl⟩

theorem isSome_winner_iff (h : t.Gathers g past) (hgraph : g.refusal? = none)
    (hknown : ∀ e ∈ past, e.Known g) :
    (t.winner g).isSome = true ↔
      ∃ e ∈ past, e.kind = "epoch_issue" ∧ "drop_next_eare" ∉ e.faults := by
  have hissues : (∃ node, node ∈ issuedNodes g past) ↔
      ∃ e ∈ past, e.kind = "epoch_issue" ∧ "drop_next_eare" ∉ e.faults := by
    simp only [issuedNodes, List.mem_filterMap]
    constructor
    · rintro ⟨node, e, he, hissued⟩
      refine ⟨e, he, (Event.issued?_isSome_iff hgraph (hknown e he)).mp ?_⟩
      rw [hissued, Option.isSome_some]
    · rintro ⟨e, he, hkept⟩
      have hsome := (Event.issued?_isSome_iff hgraph (hknown e he)).mpr hkept
      obtain ⟨node, hissued⟩ := Option.isSome_iff_exists.mp hsome
      exact ⟨node, e, he, hissued⟩
  rw [← hissues]
  rcases h.winner_cases with ⟨hempty, hnone⟩ | ⟨node, hleads, hsome⟩
  · simp [hempty, hnone]
  · simp only [hsome, Option.isSome_some, true_iff]
    exact ⟨node, hleads.mem⟩

/-- The winning branch depends on which nodes were issued, and not on their order. -/
theorem winner_branch_eq {u : Tracker} {other : List Event} (h : t.Gathers g past)
    (hu : u.Gathers g other) (hperm : (issuedNodes g past).Perm (issuedNodes g other)) :
    (t.winner g).map Winner.branch = (u.winner g).map Winner.branch := by
  rcases h.winner_cases with ⟨hempty, hnone⟩ | ⟨node, hleads, hsome⟩ <;>
    rcases hu.winner_cases with ⟨hempty', hnone'⟩ | ⟨node', hleads', hsome'⟩
  · rw [hnone, hnone']
  · have hmem := hperm.mem_iff.mpr hleads'.mem
    rw [hempty] at hmem
    cases hmem
  · have hmem := hperm.mem_iff.mp hleads.mem
    rw [hempty'] at hmem
    cases hmem
  · have hstanding := hleads.standing_eq hleads' fun _ => hperm.mem_iff
    obtain ⟨-, hepoch, -, hhash⟩ := (standing_eq_iff node node').mp hstanding
    rw [hsome, hsome', Option.map_some, Option.map_some, Winner.branch, Winner.branch, hepoch,
      hhash]

end Tracker.Gathers

def Event.untimed (e : Event) : Event := { e with time := 0 }

/-- The streams hold the same events, in any order and at any times. -/
def SameEvents (events others : List Event) : Prop :=
  (events.map Event.untimed).Perm (others.map Event.untimed)

namespace SameEvents

variable {events others : List Event}

theorem symm (h : SameEvents events others) : SameEvents others events := List.Perm.symm h

theorem inOrder (h : SameEvents events others) :
    SameEvents (EpochFork.inOrder events) (EpochFork.inOrder others) := by
  have hsorted : ∀ l : List Event, SameEvents (EpochFork.inOrder l) l := fun l =>
    (List.mergeSort_perm l _).map Event.untimed
  exact ((hsorted events).trans h).trans (hsorted others).symm

theorem map {β : Type} {f : Event → β} (h : SameEvents events others)
    (hf : ∀ e : Event, f e.untimed = f e) : (events.map f).Perm (others.map f) := by
  have hperm := List.Perm.map f h
  rw [List.map_map, List.map_map] at hperm
  have huntimed : f ∘ Event.untimed = f := funext hf
  rwa [huntimed] at hperm

theorem issuedNodes (h : SameEvents events others) (g : Graph) :
    (issuedNodes g events).Perm (issuedNodes g others) := by
  have hoptions : (events.map (Event.issued? g)).Perm (others.map (Event.issued? g)) :=
    h.map fun _ => rfl
  have hnodes := hoptions.filterMap id
  rwa [List.filterMap_map, List.filterMap_map] at hnodes

theorem forall_mem {P : Event → Prop} (h : SameEvents events others)
    (hP : ∀ e : Event, P e.untimed = P e) (hevents : ∀ e ∈ events, P e) : ∀ e ∈ others, P e := by
  intro e he
  have hmem : P e ∈ events.map P := (h.map hP).mem_iff.mpr (List.mem_map_of_mem he)
  obtain ⟨other, hother, heq⟩ := List.mem_map.mp hmem
  rw [← heq]
  exact hevents other hother

end SameEvents

theorem Category.name_injective : Function.Injective Category.name := by
  intro a b h
  cases a <;> cases b <;> simp_all [Category.name]

theorem gathers_of_simulate {g : Graph} {reference : Reference} {events : List Event}
    {outcome : Outcome} (h : simulate g reference events = .ok outcome) :
    ∃ t : Tracker, t.Gathers g (inOrder events) ∧ outcome.winner = t.winner g ∧
      outcome.messagesDropped = t.messagesDropped ∧
      ("HASH_CHAIN_BREAK" ∈ outcome.errors ↔ .chainBreak ∈ t.errors) := by
  obtain ⟨-, t, hrun, rfl⟩ := (simulate_eq_ok_iff g reference events outcome).mp h
  refine ⟨t, Tracker.Gathers.run hrun, rfl, rfl, ?_⟩
  change Category.chainBreak.name ∈ t.errors.map Category.name ↔ _
  exact List.mem_map_of_injective Category.name_injective

/-- Two streams of the same events are both replayed or both refused, and their outcomes have one
winning branch, let go equally many messages and both report a broken chain or neither. There is a
winner exactly if some issue is not dropped, and it is the first issued of the highest nodes. -/
theorem reconciliation_in_any_order {g : Graph} {events others : List Event}
    (h : SameEvents events others) (reference other : Reference) :
    ((∃ outcome, simulate g reference events = .ok outcome) ↔
      ∃ outcome, simulate g other others = .ok outcome) ∧
    (∀ outcome result, simulate g reference events = .ok outcome →
      simulate g other others = .ok result →
        outcome.winner.map Winner.branch = result.winner.map Winner.branch ∧
        outcome.messagesDropped = result.messagesDropped ∧
        ("HASH_CHAIN_BREAK" ∈ outcome.errors ↔ "HASH_CHAIN_BREAK" ∈ result.errors)) ∧
    ∀ outcome, simulate g reference events = .ok outcome →
      (outcome.winner.isSome = true ↔
        ∃ e ∈ events, e.kind = "epoch_issue" ∧ "drop_next_eare" ∉ e.faults) ∧
      ∀ winner, outcome.winner = some winner →
        ∃ node, Leads g (issuedNodes g (inOrder events)) node ∧
          winner = ⟨node.nodeId, node.epochId, node.hash⟩ := by
  have hsame := h.inOrder
  have hnodes := hsame.issuedNodes g
  refine ⟨?_, ?_, ?_⟩
  · rw [exists_simulate_eq_ok_iff, exists_simulate_eq_ok_iff]
    refine and_congr_right fun _ => ⟨?_, ?_⟩
    · exact h.forall_mem fun _ => rfl
    · exact h.symm.forall_mem fun _ => rfl
  · intro outcome result houtcome hresult
    obtain ⟨t, ht, hwinner, hdropped, hbreak⟩ := gathers_of_simulate houtcome
    obtain ⟨u, hu, hwinner', hdropped', hbreak'⟩ := gathers_of_simulate hresult
    refine ⟨?_, ?_, ?_⟩
    · rw [hwinner, hwinner']
      exact ht.winner_branch_eq hu hnodes
    · rw [hdropped, hdropped', ht.messagesDropped, hu.messagesDropped,
        (hsame.map fun _ => rfl).sum_eq]
    · rw [hbreak, hbreak', ht.chainBreak, hu.chainBreak]
      simp only [hnodes.mem_iff]
  · intro outcome houtcome
    obtain ⟨hgraph, hknown⟩ := (exists_simulate_eq_ok_iff g reference events).mp ⟨_, houtcome⟩
    obtain ⟨t, ht, hwinner, -⟩ := gathers_of_simulate houtcome
    rw [hwinner]
    refine ⟨?_, ?_⟩
    · rw [ht.isSome_winner_iff hgraph fun e he => hknown e ((mem_inOrder events e).mp he)]
      simp only [mem_inOrder]
    · intro winner hwins
      rcases ht.winner_cases with ⟨-, hnone⟩ | ⟨node, hleads, hsome⟩
      · cases hnone.symm.trans hwins
      · exact ⟨node, hleads, Option.some.inj (hwins.symm.trans hsome)⟩

/-- Two children that differ in their names only; neither names the hash of the root. -/
def twins : Graph where
  nodes := [⟨"root", 1, "r", none, none, none, "", 0⟩,
    ⟨"left", 2, "x", some "other", none, some "root", "", 5⟩,
    ⟨"right", 2, "x", some "other", none, some "root", "", 5⟩]
  edges := []

def issueAt (time : ℤ) (name : String) : Event :=
  ⟨time, "epoch_issue", none, none, some name, [], none, none, []⟩

def loseTwoAt (time : ℤ) : Event :=
  ⟨time, "replay_attempt", none, none, none, [], none, some 2, []⟩

/-- The twin that is issued first wins, and the branch is the same. -/
theorem reconciliation_of_twins :
    let events := [issueAt 3 "left", loseTwoAt 1, issueAt 4 "right"]
    let others := [issueAt 0 "right", issueAt 9 "left", loseTwoAt 7]
    SameEvents events others ∧
    ∃ outcome result, simulate twins .created events = .ok outcome ∧
      simulate twins .created others = .ok result ∧
      outcome.winner = some ⟨"left", 2, "x"⟩ ∧ result.winner = some ⟨"right", 2, "x"⟩ ∧
      outcome.winner.map Winner.branch = result.winner.map Winner.branch ∧
      outcome.messagesDropped = result.messagesDropped ∧
      ("HASH_CHAIN_BREAK" ∈ outcome.errors ↔ "HASH_CHAIN_BREAK" ∈ result.errors) ∧
      ∃ node, Leads twins (issuedNodes twins (inOrder events)) node ∧ node.nodeId = "left" := by
  intro events others
  have hsame : SameEvents events others := by
    change ([_, _] ++ [_]).Perm ([_] ++ [_, _])
    exact List.perm_append_comm
  have hevents : ∃ outcome, simulate twins .created events = .ok outcome ∧
      outcome.winner = some ⟨"left", 2, "x"⟩ := ⟨_, by cbv, rfl⟩
  have hothers : ∃ result, simulate twins .created others = .ok result ∧
      result.winner = some ⟨"right", 2, "x"⟩ := ⟨_, by cbv, rfl⟩
  obtain ⟨outcome, houtcome, hleft⟩ := hevents
  obtain ⟨result, hresult, hright⟩ := hothers
  obtain ⟨-, hagree, hwinner⟩ := reconciliation_in_any_order hsame (g := twins) .created .created
  obtain ⟨hbranch, hdropped, hbreak⟩ := hagree outcome result houtcome hresult
  obtain ⟨node, hleads, hnode⟩ := (hwinner outcome houtcome).2 _ hleft
  exact ⟨hsame, outcome, result, houtcome, hresult, hleft, hright, hbranch, hdropped, hbreak, node,
    hleads, (congrArg Winner.nodeId hnode).symm⟩

end Conformance.EpochFork
