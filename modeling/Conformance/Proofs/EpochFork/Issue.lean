import Conformance.EpochFork.Verdict
import Conformance.Proofs.Sequencing
import Conformance.Proofs.StableOrder
import Mathlib

/-!
# Issued nodes

An event that is an issue and is not dropped issues the node that it names. A run
that succeeds has kept every issued node under its epoch and under its parent, in
order of issue.
-/
namespace Conformance.EpochFork
open Conformance

theorem Graph.repeatedName?_eq_none_iff (earlier : List String) (nodes : List Node) :
    Graph.repeatedName? earlier nodes = none ↔
      (nodes.map Node.nodeId).Nodup ∧ ∀ node ∈ nodes, node.nodeId ∉ earlier := by
  induction nodes generalizing earlier with
  | nil => simp [Graph.repeatedName?]
  | cons first rest ih =>
    rw [Graph.repeatedName?]
    by_cases h : first.nodeId ∈ earlier
    · simp [h]
    · simp only [List.contains_iff_mem, h, if_false, ih, List.map_cons, List.nodup_cons,
        List.mem_map, List.mem_cons, not_or]
      grind

theorem Graph.nodup_of_refusal? {g : Graph} (h : g.refusal? = none) :
    (g.nodes.map Node.nodeId).Nodup := by
  unfold Graph.refusal? at h
  split at h
  · cases h
  · rename_i hnames
    exact ((Graph.repeatedName?_eq_none_iff [] g.nodes).mp hnames).1

/-- Under distinct names, a name finds the node that has it. -/
theorem Graph.get?_eq_some_iff {g : Graph} (h : (g.nodes.map Node.nodeId).Nodup)
    (nodeId : String) (node : Node) :
    g.get? nodeId = some node ↔ node ∈ g.nodes ∧ node.nodeId = nodeId := by
  constructor
  · intro hget
    exact ⟨List.mem_of_find?_eq_some hget, by simpa using List.find?_some hget⟩
  · rintro ⟨hmem, rfl⟩
    obtain ⟨found, hfound⟩ : ∃ found, g.get? node.nodeId = some found := by
      rw [← Option.isSome_iff_exists, Graph.get?, List.find?_isSome]
      exact ⟨node, hmem, by simp⟩
    have hname : found.nodeId = node.nodeId := by simpa using List.find?_some hfound
    rw [hfound, List.inj_on_of_nodup_map h (List.mem_of_find?_eq_some hfound) hmem hname]

namespace Event

/-- The event issues the node: it is an issue that is not dropped and names the node. -/
def Issues (g : Graph) (e : Event) (node : Node) : Prop :=
  e.kind = "epoch_issue" ∧ "drop_next_eare" ∉ e.faults ∧ node ∈ g.nodes ∧
    e.nodeId = some node.nodeId

theorem issued?_eq_some_iff {g : Graph} (h : g.refusal? = none) (e : Event) (node : Node) :
    e.issued? g = some node ↔ e.Issues g node := by
  have hget := Graph.get?_eq_some_iff (Graph.nodup_of_refusal? h)
  have hdrop : e.isDropped = false ↔ "drop_next_eare" ∉ e.faults := by simp [isDropped]
  rw [issued?, Option.ite_none_right_eq_some, hdrop, Option.bind_eq_some_iff]
  constructor
  · rintro ⟨⟨hkind, hkept⟩, name, hname, hnode⟩
    obtain ⟨hmem, rfl⟩ := (hget name node).mp hnode
    exact ⟨hkind, hkept, hmem, hname⟩
  · rintro ⟨hkind, hkept, hmem, hname⟩
    exact ⟨⟨hkind, hkept⟩, node.nodeId, hname, (hget _ node).mpr ⟨hmem, rfl⟩⟩

end Event

/-- An event issues its node, counts messages, marks a merge, or changes nothing. -/
theorem step_cases {g : Graph} {t t' : Tracker} {e : Event} (h : step g t e = .ok t') :
    (∃ node, e.issued? g = some node ∧ t' = t.issue g node e) ∨
    (e.issued? g = none ∧
      ((e.kind = "replay_attempt" ∧ t' = t.drop e) ∨ (e.kind = "merge" ∧ t' = t.merge e) ∨
        (e.kind ≠ "replay_attempt" ∧ e.kind ≠ "merge" ∧ t' = t))) := by
  unfold step at h
  split at h
  · rename_i hkind
    split at h
    · rename_i hdrop
      cases h
      simp [Event.issued?, hkind, hdrop]
    · rename_i hdrop
      split at h
      · rename_i node hnode
        cases h
        left
        exact ⟨node, by simp [Event.issued?, hkind, hdrop, hnode], rfl⟩
      · cases h
  · rename_i hkind
    cases h
    simp [Event.issued?, hkind]
  · rename_i hkind
    cases h
    simp [Event.issued?, hkind]
  · rename_i hissue hreplay hmerge
    cases h
    right
    exact ⟨if_neg fun hi => hissue hi.1, .inr (.inr ⟨hreplay, hmerge, rfl⟩)⟩

section
variable {κ : Type} [DecidableEq κ]

theorem group_cons (key name : κ) (members : List Node) (groups : List (κ × List Node)) :
    group key ((name, members) :: groups) = if name = key then members else group key groups := by
  by_cases h : name = key
  · subst h
    simp [group]
  · have hbeq : (key == name) = false := by simpa using Ne.symm h
    simp [group, List.lookup_cons, hbeq, h]

theorem group_addTo (key k : κ) (node : Node) (groups : List (κ × List Node)) :
    group key (addTo k node groups) =
      if k = key then group key groups ++ [node] else group key groups := by
  induction groups with
  | nil => rw [addTo, group_cons]; rfl
  | cons first rest ih =>
    obtain ⟨name, members⟩ := first
    rw [addTo]
    by_cases hk : name = k
    · subst hk
      rw [if_pos rfl, group_cons, group_cons]
      split <;> rfl
    · rw [if_neg hk, group_cons, group_cons, ih]
      by_cases hn : name = key
      · rw [if_pos hn, if_pos hn, if_neg fun h => hk (hn.trans h.symm)]
      · rw [if_neg hn, if_neg hn]

end

namespace Tracker

variable (g : Graph) (t : Tracker) (node : Node) (e : Event) (c : Category)

@[simp] theorem emit_epochs : (t.emit c).epochs = t.epochs := by
  unfold emit
  split <;> rfl

@[simp] theorem emit_children : (t.emit c).children = t.children := by
  unfold emit
  split <;> rfl

@[simp] theorem emit_detection : (t.emit c).detection = t.detection := by
  unfold emit
  split <;> rfl

@[simp] theorem detect_epochs : (t.detect e).epochs = t.epochs := by
  unfold detect
  split <;> simp

@[simp] theorem detect_children : (t.detect e).children = t.children := by
  unfold detect
  split <;> simp

@[simp] theorem detect_detection :
    (t.detect e).detection = t.detection.or (some ⟨e.time, Word.wrap e.seenAt⟩) := by
  unfold detect
  split <;> simp_all

theorem mem_emit_errors {d : Category} : d ∈ (t.emit c).errors ↔ d ∈ t.errors ∨ d = c := by
  unfold emit
  split
  · rename_i h
    have hmem : c ∈ t.errors := by simpa using h
    grind
  · simp

@[simp] theorem emit_messagesDropped : (t.emit c).messagesDropped = t.messagesDropped := by
  unfold emit
  split <;> rfl

@[simp] theorem detect_messagesDropped : (t.detect e).messagesDropped = t.messagesDropped := by
  unfold detect
  split <;> simp

theorem chainBreak_mem_detect_errors :
    .chainBreak ∈ (t.detect e).errors ↔ .chainBreak ∈ t.errors := by
  unfold detect
  split
  · rfl
  · simp [mem_emit_errors]

theorem issue_messagesDropped : (t.issue g node e).messagesDropped = t.messagesDropped := by
  simp only [issue]
  split <;> split <;> simp

theorem chainBreak_mem_issue_errors :
    .chainBreak ∈ (t.issue g node e).errors ↔
      .chainBreak ∈ t.errors ∨ breaksChain g node = true := by
  simp only [issue]
  split <;> split <;> simp_all [mem_emit_errors, chainBreak_mem_detect_errors]

theorem issue_epochs : (t.issue g node e).epochs = addTo node.epochId node t.epochs := by
  simp only [issue]
  split <;> split <;> simp

theorem issue_children : (t.issue g node e).children = addTo (parentKey node) node t.children := by
  simp only [issue]
  split <;> split <;> simp

theorem issue_detection : (t.issue g node e).detection =
    if t.isFork node then t.detection.or (some ⟨e.time, Word.wrap e.seenAt⟩)
    else t.detection := by
  simp only [issue]
  split <;> split <;> simp_all

/-- What a tracker holds when some nodes were issued, in this order. -/
structure Holds (t : Tracker) (nodes : List Node) : Prop where
  epochs : ∀ epoch, group epoch t.epochs = nodes.filter (·.epochId = epoch)
  children : ∀ parent, group parent t.children = nodes.filter (parentKey · = parent)

theorem holds_new : new.Holds [] := ⟨fun _ => rfl, fun _ => rfl⟩

theorem Holds.issue {t : Tracker} {nodes : List Node} (h : t.Holds nodes) :
    (t.issue g node e).Holds (nodes ++ [node]) where
  epochs epoch := by
    rw [issue_epochs, group_addTo, h.epochs, List.filter_append]
    by_cases hn : node.epochId = epoch <;> simp [hn]
  children parent := by
    rw [issue_children, group_addTo, h.children, List.filter_append]
    by_cases hn : parentKey node = parent <;> simp [hn]

theorem Holds.step {g : Graph} {t t' : Tracker} {e : Event} {nodes : List Node} (h : t.Holds nodes)
    (hs : step g t e = .ok t') : t'.Holds (nodes ++ (e.issued? g).toList) := by
  rcases step_cases hs with ⟨node, hi, rfl⟩ | ⟨hi, ⟨-, rfl⟩ | ⟨-, rfl⟩ | ⟨-, -, rfl⟩⟩
  · rw [hi]
    exact h.issue g node e
  all_goals
    rw [hi, Option.toList_none, List.append_nil]
    exact ⟨h.epochs, h.children⟩

end Tracker

/-- What holds at the start and is kept by each step, the events so far being known, holds at the
end of a run. -/
theorem run_invariant {g : Graph} {P : Tracker → List Event → Prop}
    (hstep : ∀ t t' past e, P t past → step g t e = .ok t' → P t' (past ++ [e]))
    {events past : List Event} {t t' : Tracker} (hrun : events.foldlM (step g) t = .ok t')
    (h : P t past) : P t' (past ++ events) := by
  induction events generalizing t past with
  | nil =>
    cases hrun
    rwa [List.append_nil]
  | cons e events ih =>
    rw [List.foldlM_cons] at hrun
    obtain ⟨middle, hfirst, hrest⟩ := bind_eq_ok_iff.mp hrun
    have := ih hrest (hstep t middle past e h hfirst)
    rwa [List.append_assoc] at this

/-- The nodes that events issue, in the order of the events. -/
def issuedNodes (g : Graph) (events : List Event) : List Node :=
  events.filterMap (Event.issued? g)

theorem issuedNodes_snoc (g : Graph) (past : List Event) (e : Event) :
    issuedNodes g (past ++ [e]) = issuedNodes g past ++ (e.issued? g).toList := by
  rw [issuedNodes, List.filterMap_append]
  cases h : e.issued? g <;> simp [h, issuedNodes]

theorem simulate_eq_ok_iff (g : Graph) (reference : Reference) (events : List Event)
    (outcome : Outcome) :
    simulate g reference events = .ok outcome ↔
      g.refusal? = none ∧ ∃ t, (inOrder events).foldlM (step g) .new = .ok t ∧
        outcome = t.finish g reference := by
  unfold simulate
  split
  · rename_i reason hreason
    simp [hreason]
  · rename_i hnone
    simp only [hnone, bind_eq_ok_iff, true_and]
    refine exists_congr fun t => and_congr_right fun _ => ?_
    exact ⟨fun h => (Except.ok.inj h).symm, fun h => by rw [h]; rfl⟩

theorem sortsBy_inOrder (events : List Event) : SortsBy Event.time events (inOrder events) :=
  sortsBy_mergeSort Event.time events

theorem mem_inOrder (events : List Event) (e : Event) : e ∈ inOrder events ↔ e ∈ events :=
  (List.mergeSort_perm events _).mem_iff

namespace Scenario

/-- Some event of the scenario issues the node. -/
def Issues (s : Scenario) (node : Node) : Prop :=
  ∃ e ∈ s.events, e.Issues s.graph node

theorem simulate_eq_ok_iff (s : Scenario) (outcome : Outcome) :
    s.simulate = .ok outcome ↔
      EpochFork.simulate s.graph (.ofName s.expectations.detectionReference) s.events
        = .ok outcome :=
  mapError_eq_ok_iff

theorem mem_issuedNodes_iff {s : Scenario} (h : s.graph.refusal? = none) (node : Node) :
    node ∈ issuedNodes s.graph (inOrder s.events) ↔ s.Issues node := by
  simp only [issuedNodes, List.mem_filterMap, mem_inOrder, Event.issued?_eq_some_iff h, Issues]

end Scenario

end Conformance.EpochFork
