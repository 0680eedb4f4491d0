import Conformance.Proofs.EpochFork.Issue

/-!
# When a fork is detected

Issue by issue a node is compared with the group of the nodes issued before it,
and a fork is seen when it differs from all of them. In the end that comes to two
issued nodes that contradict each other, in whatever order they came, since a
group without a contradiction has one mark. Nodes without a parent share a group
with the children of a node whose name is empty, so there the two may differ.
-/
namespace Conformance.EpochFork
open Conformance

section
variable {α : Type} {P : List α → α → Prop}

/-- Some element of the list stands to those before it as described. -/
def Occurs (P : List α → α → Prop) (l : List α) : Prop :=
  ∃ earlier a later, l = earlier ++ a :: later ∧ P earlier a

/-- The element is the first of the list that stands so to those before it. -/
def OccursFirst (P : List α → α → Prop) (l : List α) (a : α) : Prop :=
  ∃ earlier later, l = earlier ++ a :: later ∧ P earlier a ∧ ¬ Occurs P earlier

theorem not_occurs_nil : ¬ Occurs P [] := by
  rintro ⟨earlier, a, later, h, -⟩
  simp at h

theorem occurs_snoc (l : List α) (a : α) : Occurs P (l ++ [a]) ↔ Occurs P l ∨ P l a := by
  constructor
  · rintro ⟨earlier, b, later, h, hb⟩
    rcases later.eq_nil_or_concat' with rfl | ⟨later, c, rfl⟩
    · obtain ⟨rfl, hab⟩ := List.append_inj' h rfl
      exact .inr (List.head_eq_of_cons_eq hab ▸ hb)
    · left
      rw [← List.cons_append, ← List.append_assoc] at h
      exact ⟨earlier, b, later, (List.append_inj' h rfl).1, hb⟩
  · rintro (⟨earlier, b, later, rfl, hb⟩ | h)
    · exact ⟨earlier, b, later ++ [a], by simp, hb⟩
    · exact ⟨l, a, [], rfl, h⟩

theorem OccursFirst.occurs {l : List α} {a : α} (h : OccursFirst P l a) : Occurs P l := by
  obtain ⟨earlier, later, hl, ha, -⟩ := h
  exact ⟨earlier, a, later, hl, ha⟩

theorem occursFirst_snoc (l : List α) (a b : α) :
    OccursFirst P (l ++ [a]) b ↔ OccursFirst P l b ∨ (¬ Occurs P l ∧ P l a ∧ b = a) := by
  constructor
  · rintro ⟨earlier, later, h, hb, hnone⟩
    rcases later.eq_nil_or_concat' with rfl | ⟨later, c, rfl⟩
    · obtain ⟨rfl, hab⟩ := List.append_inj' h rfl
      obtain rfl : a = b := List.head_eq_of_cons_eq hab
      exact .inr ⟨hnone, hb, rfl⟩
    · left
      rw [← List.cons_append, ← List.append_assoc] at h
      exact ⟨earlier, later, (List.append_inj' h rfl).1, hb, hnone⟩
  · rintro (⟨earlier, later, rfl, hb, hnone⟩ | ⟨hnone, ha, rfl⟩)
    · exact ⟨earlier, later ++ [a], by simp, hb, hnone⟩
    · exact ⟨l, [], rfl, ha, hnone⟩

theorem exists_occursFirst_iff (l : List α) : (∃ a, OccursFirst P l a) ↔ Occurs P l := by
  induction l using List.reverseRecOn with
  | nil =>
    refine iff_of_false ?_ not_occurs_nil
    rintro ⟨a, ha⟩
    exact not_occurs_nil ha.occurs
  | append_singleton l a ih =>
    simp only [occursFirst_snoc, exists_or, ih, occurs_snoc]
    by_cases h : Occurs P l
    · simp [h]
    · simp [h]

end

section
variable {α μ : Type} {akin : α → α → Prop} {mark : α → μ}

/-- Some earlier element is akin to this one, and each that is has another mark. -/
def Departs (akin : α → α → Prop) (mark : α → μ) (earlier : List α) (a : α) : Prop :=
  (∃ b ∈ earlier, akin b a) ∧ ∀ b ∈ earlier, akin b a → mark b ≠ mark a

/-- Some element of the list departs from those before it. -/
def Departed (akin : α → α → Prop) (mark : α → μ) (l : List α) : Prop :=
  ∃ earlier a later, l = earlier ++ a :: later ∧ Departs akin mark earlier a

theorem not_departed_nil : ¬ Departed akin mark [] := not_occurs_nil

theorem departed_snoc (l : List α) (a : α) :
    Departed akin mark (l ++ [a]) ↔ Departed akin mark l ∨ Departs akin mark l a :=
  occurs_snoc l a

/-- Where being akin is symmetric and transitive, an element departs from those before it exactly
when two akin elements of the list have different marks, wherever they stand: before the first
such pair is complete, elements that are akin have one mark. -/
theorem departed_iff (hsymm : ∀ {a b}, akin a b → akin b a)
    (htrans : ∀ {a b c}, akin a b → akin b c → akin a c) (l : List α) :
    Departed akin mark l ↔ ∃ a ∈ l, ∃ b ∈ l, akin a b ∧ mark a ≠ mark b := by
  induction l using List.reverseRecOn with
  | nil => simp [not_departed_nil]
  | append_singleton l x ih =>
    rw [departed_snoc, ih]
    constructor
    · rintro (⟨a, ha, b, hb, hab⟩ | ⟨⟨b, hb, hbx⟩, hall⟩)
      · exact ⟨a, List.mem_append_left _ ha, b, List.mem_append_left _ hb, hab⟩
      · exact ⟨b, List.mem_append_left _ hb, x, List.mem_append_right _ (List.mem_singleton_self x),
          hbx, hall b hb hbx⟩
    · rintro ⟨a, ha, b, hb, hab, hne⟩
      by_contra hnone
      obtain ⟨hagree, hstay⟩ := not_or.mp hnone
      have hagree : ∀ c ∈ l, ∀ d ∈ l, akin c d → mark c = mark d := by
        intro c hc d hd hcd
        by_contra hne
        exact hagree ⟨c, hc, d, hd, hcd, hne⟩
      have hlast : ∀ c ∈ l, akin c x → mark c = mark x := by
        intro c hc hcx
        by_contra hne
        refine hstay ⟨⟨c, hc, hcx⟩, fun d hd hdx hmark => hne ?_⟩
        rw [hagree c hc d hd (htrans hcx (hsymm hdx)), hmark]
      simp only [List.mem_append, List.mem_singleton] at ha hb
      rcases ha with ha | rfl <;> rcases hb with hb | rfl
      · exact hne (hagree a ha b hb hab)
      · exact hne (hlast a ha hab)
      · exact hne (hlast b hb (hsymm hab)).symm
      · exact hne rfl

theorem departed_congr {akin' : α → α → Prop} {l : List α}
    (h : ∀ a ∈ l, ∀ b ∈ l, akin a b ↔ akin' a b) : Departed akin mark l ↔ Departed akin' mark l := by
  refine exists_congr fun earlier => exists_congr fun a => exists_congr fun later =>
    and_congr_right fun hl => ?_
  subst hl
  have hakin : ∀ b ∈ earlier, akin b a ↔ akin' b a := fun b hb =>
    h b (List.mem_append_left _ hb) a (List.mem_append_right _ List.mem_cons_self)
  exact and_congr (exists_congr fun b => and_congr_right fun hb => hakin b hb)
    (forall₂_congr fun b hb => imp_congr_left (hakin b hb))

end

def SameEpoch (a b : Node) : Prop := a.epochId = b.epochId

/-- The nodes have a parent, and the same one. -/
def Siblings (a b : Node) : Prop :=
  ∃ parent, a.parentId = some parent ∧ b.parentId = some parent

/-- The second node has a parent, and the first stands in the group of that parent. -/
def Grouped (a b : Node) : Prop :=
  b.parentId.isSome = true ∧ Tracker.parentKey a = Tracker.parentKey b

/-- What tells siblings apart. -/
def Node.mark (node : Node) : ℤ × String := (node.epochId, node.hash)

/-- The group of a parent holds its children alone, unless the name of the parent is empty. -/
theorem grouped_iff_siblings {a b : Node} (h : a.parentId = none → b.parentId ≠ some "") :
    Grouped a b ↔ Siblings a b := by
  unfold Grouped Siblings Tracker.parentKey
  cases hb : b.parentId with
  | none => simp
  | some parent =>
    cases ha : a.parentId with
    | some other => simp [eq_comm]
    | none =>
      have hparent : parent ≠ "" := fun heq => h ha (by rw [hb, heq])
      simp [Ne.symm hparent]

namespace Tracker
variable {t : Tracker} {nodes : List Node}

theorem Holds.divergesInEpoch_iff (h : t.Holds nodes) (node : Node) :
    t.divergesInEpoch node = true ↔ Departs SameEpoch Node.hash nodes node := by
  simp only [divergesInEpoch, h.epochs, Departs, SameEpoch]
  simp

theorem Holds.divergesFromSiblings_iff (h : t.Holds nodes) (node : Node) :
    t.divergesFromSiblings node = true ↔ Departs Grouped Node.mark nodes node := by
  simp only [divergesFromSiblings, h.children, Departs, Grouped, Node.mark]
  by_cases hparent : node.parentId.isSome = true
  · simp [hparent]
  · simp [hparent]

/-- The nodes issued so far are held in their groups, and a fork was detected exactly when one of
them departed from those before it. -/
structure Detects (t : Tracker) (nodes : List Node) : Prop where
  holds : t.Holds nodes
  detection : t.detection.isSome = true ↔
    Departed SameEpoch Node.hash nodes ∨ Departed Grouped Node.mark nodes

theorem detects_new : new.Detects [] where
  holds := holds_new
  detection := by simp [new, not_departed_nil]

theorem Detects.issue (h : t.Detects nodes) (g : Graph) (node : Node) (e : Event) :
    (t.issue g node e).Detects (nodes ++ [node]) where
  holds := h.holds.issue g node e
  detection := by
    have hfork : t.isFork node = true ↔
        Departs SameEpoch Node.hash nodes node ∨ Departs Grouped Node.mark nodes node := by
      rw [isFork, Bool.or_eq_true, h.holds.divergesInEpoch_iff, h.holds.divergesFromSiblings_iff]
    have hdetect : (t.issue g node e).detection.isSome = true ↔
        t.detection.isSome = true ∨ t.isFork node = true := by
      rw [issue_detection]
      split <;> simp_all
    rw [hdetect, h.detection, hfork, departed_snoc, departed_snoc, or_or_or_comm]

theorem Detects.step {g : Graph} {t' : Tracker} {e : Event} (h : t.Detects nodes)
    (hs : step g t e = .ok t') : t'.Detects (nodes ++ (e.issued? g).toList) := by
  have hholds := h.holds.step hs
  rcases step_cases hs with ⟨node, hi, rfl⟩ | ⟨hi, ⟨-, rfl⟩ | ⟨-, rfl⟩ | ⟨-, -, rfl⟩⟩
  · rw [hi]
    exact h.issue g node e
  all_goals
    refine ⟨hholds, ?_⟩
    rw [hi, Option.toList_none, List.append_nil]
    exact h.detection

theorem detects_run {g : Graph} {events : List Event} (h : events.foldlM (step g) new = .ok t) :
    t.Detects (issuedNodes g events) := by
  have hstep : ∀ t t' past e, t.Detects (issuedNodes g past) → step g t e = .ok t' →
      t'.Detects (issuedNodes g (past ++ [e])) := by
    intro t t' past e hpast hs
    rw [issuedNodes_snoc]
    exact hpast.step hs
  have hstart : new.Detects (issuedNodes g []) := detects_new
  exact run_invariant hstep h hstart

end Tracker

instance (a b : Node) : Decidable (Siblings a b) :=
  decidable_of_iff (a.parentId.isSome = true ∧ a.parentId = b.parentId) <| by
    unfold Siblings
    cases a.parentId <;> simp [eq_comm]

/-- Two nodes of one epoch with different hashes, or two children of one parent with different
epochs or hashes. -/
def Node.Contradicts (a b : Node) : Prop :=
  (SameEpoch a b ∧ a.hash ≠ b.hash) ∨ (Siblings a b ∧ (a.epochId, a.hash) ≠ (b.epochId, b.hash))

instance (a b : Node) : Decidable (a.Contradicts b) :=
  inferInstanceAs (Decidable ((a.epochId = b.epochId ∧ _) ∨ _))

theorem departed_sameEpoch_iff (nodes : List Node) :
    Departed SameEpoch Node.hash nodes ↔
      ∃ a ∈ nodes, ∃ b ∈ nodes, SameEpoch a b ∧ a.hash ≠ b.hash :=
  departed_iff (fun h => h.symm) (fun h k => h.trans k) nodes

theorem departed_siblings_iff (nodes : List Node) :
    Departed Siblings Node.mark nodes ↔
      ∃ a ∈ nodes, ∃ b ∈ nodes, Siblings a b ∧ a.mark ≠ b.mark := by
  apply departed_iff
  · rintro a b ⟨parent, ha, hb⟩
    exact ⟨parent, hb, ha⟩
  · rintro a b c ⟨parent, ha, hb⟩ ⟨other, hb', hc⟩
    exact ⟨parent, ha, by rw [hc, ← hb', hb]⟩

/-- Siblings under a parent whose name is not empty. -/
def NamedSiblings (a b : Node) : Prop := Siblings a b ∧ b.parentId ≠ some ""

theorem departed_grouped_of_named {nodes : List Node}
    (h : ∃ a ∈ nodes, ∃ b ∈ nodes, NamedSiblings a b ∧ a.mark ≠ b.mark) :
    Departed Grouped Node.mark nodes := by
  have hdeparted : Departed NamedSiblings Node.mark nodes := by
    refine (departed_iff ?_ ?_ nodes).mpr h
    · rintro a b ⟨⟨parent, ha, hb⟩, hname⟩
      exact ⟨⟨parent, hb, ha⟩, by rwa [ha, ← hb]⟩
    · rintro a b c ⟨⟨parent, ha, hb⟩, -⟩ ⟨⟨other, hb', hc⟩, hname⟩
      exact ⟨⟨parent, ha, by rw [hc, ← hb', hb]⟩, hname⟩
  obtain ⟨earlier, node, later, hnodes, ⟨b, hb, hsiblings, hname⟩, hall⟩ := hdeparted
  have hgrouped : ∀ c, Grouped c node ↔ NamedSiblings c node := fun c => by
    rw [grouped_iff_siblings fun _ => hname, NamedSiblings, and_iff_left hname]
  exact ⟨earlier, node, later, hnodes, ⟨b, hb, (hgrouped b).mpr ⟨hsiblings, hname⟩⟩,
    fun c hc hcn => hall c hc ((hgrouped c).mp hcn)⟩

namespace Scenario
variable {s : Scenario} {outcome : Outcome}

/-- No issued node without a parent stands beside an issued child of a node whose name is empty. -/
def RootsApart (s : Scenario) : Prop :=
  ∀ root child, s.Issues root → s.Issues child → root.parentId = none → child.parentId ≠ some ""

def Forked (s : Scenario) : Prop :=
  ∃ a b, s.Issues a ∧ s.Issues b ∧ a.Contradicts b

instance (s : Scenario) (node : Node) : Decidable (s.Issues node) :=
  inferInstanceAs (Decidable (∃ e ∈ s.events, e.kind = "epoch_issue" ∧ _ ∧ _ ∧ _))

theorem Issues.mem_nodes {node : Node} (h : s.Issues node) : node ∈ s.graph.nodes := by
  obtain ⟨e, -, -, -, hmem, -⟩ := h
  exact hmem

instance (s : Scenario) : Decidable s.Forked :=
  decidable_of_iff (∃ a ∈ s.graph.nodes, ∃ b ∈ s.graph.nodes,
      s.Issues a ∧ s.Issues b ∧ a.Contradicts b) <| by
    constructor
    · rintro ⟨a, -, b, -, h⟩
      exact ⟨a, b, h⟩
    · rintro ⟨a, b, ha, hb, hab⟩
      exact ⟨a, ha.mem_nodes, b, hb.mem_nodes, ha, hb, hab⟩

instance (s : Scenario) : Decidable s.RootsApart :=
  decidable_of_iff (∀ root ∈ s.graph.nodes, ∀ child ∈ s.graph.nodes, s.Issues root →
      s.Issues child → root.parentId = none → child.parentId ≠ some "") <| by
    constructor
    · intro h root child hroot hchild
      exact h root hroot.mem_nodes child hchild.mem_nodes hroot hchild
    · intro h root _ child _
      exact h root child

theorem detection_iff_departed (h : s.simulate = .ok outcome) :
    ∃ nodes, (∀ node, node ∈ nodes ↔ s.Issues node) ∧ (outcome.detection = true ↔
      Departed SameEpoch Node.hash nodes ∨ Departed Grouped Node.mark nodes) := by
  obtain ⟨hgraph, t, hrun, rfl⟩ := (EpochFork.simulate_eq_ok_iff _ _ _ _).mp
    ((s.simulate_eq_ok_iff _).mp h)
  exact ⟨issuedNodes s.graph (inOrder s.events), mem_issuedNodes_iff hgraph,
    (Tracker.detects_run hrun).detection⟩

theorem detection_iff_of_rootsApart (h : s.simulate = .ok outcome) (hapart : s.RootsApart) :
    outcome.detection = true ↔ s.Forked := by
  obtain ⟨nodes, hnodes, hdetection⟩ := detection_iff_departed h
  have hgrouped : ∀ a ∈ nodes, ∀ b ∈ nodes, Grouped a b ↔ Siblings a b := fun a ha b hb =>
    grouped_iff_siblings (hapart a b ((hnodes a).mp ha) ((hnodes b).mp hb))
  rw [hdetection, departed_congr hgrouped, departed_sameEpoch_iff, departed_siblings_iff]
  simp only [hnodes, Forked, Node.Contradicts, Node.mark]
  constructor
  · rintro (⟨a, ha, b, hb, hab⟩ | ⟨a, ha, b, hb, hab⟩)
    · exact ⟨a, b, ha, hb, .inl hab⟩
    · exact ⟨a, b, ha, hb, .inr hab⟩
  · rintro ⟨a, b, ha, hb, hab | hab⟩
    · exact .inl ⟨a, ha, b, hb, hab⟩
    · exact .inr ⟨a, ha, b, hb, hab⟩

/-- Without any condition, a contradiction is detected if it is one of hashes in an epoch or lies
under a parent whose name is not empty. -/
theorem detection_of_contradicts (h : s.simulate = .ok outcome) {a b : Node} (ha : s.Issues a)
    (hb : s.Issues b) (hab : a.Contradicts b)
    (hname : a.parentId = some "" → a.epochId = b.epochId) : outcome.detection = true := by
  obtain ⟨nodes, hnodes, hdetection⟩ := detection_iff_departed h
  rw [hdetection]
  by_cases hepoch : a.epochId = b.epochId
  · left
    have hhash : a.hash ≠ b.hash := by
      rcases hab with ⟨-, hhash⟩ | ⟨-, hmark⟩
      · exact hhash
      · exact fun heq => hmark (Prod.ext hepoch heq)
    exact (departed_sameEpoch_iff nodes).mpr
      ⟨a, (hnodes a).mpr ha, b, (hnodes b).mpr hb, hepoch, hhash⟩
  · right
    rcases hab with ⟨hsame, -⟩ | ⟨⟨parent, hpa, hpb⟩, hmark⟩
    · exact absurd hsame hepoch
    · have hnamed : b.parentId ≠ some "" := by
        rw [hpb, ← hpa]
        exact mt hname hepoch
      exact departed_grouped_of_named
        ⟨a, (hnodes a).mpr ha, b, (hnodes b).mpr hb, ⟨⟨parent, hpa, hpb⟩, hnamed⟩, hmark⟩

/-- A root whose name is empty with two children, and a second root that looks like the younger
child; some of them are issued, in the order given. -/
def namelessRoot (issued : List String) : Scenario where
  scenarioId := "nameless-root"
  tags := []
  groupContext := []
  graph := {
    nodes := [⟨"", 1, "root", none, none, none, "", 0⟩,
      ⟨"elder", 2, "first", none, none, some "", "", 0⟩,
      ⟨"younger", 3, "second", none, none, some "", "", 0⟩,
      ⟨"apart", 3, "second", none, none, none, "", 0⟩]
    edges := [] }
  events := issued.map fun name => ⟨0, "epoch_issue", none, none, some name, [], none, none, []⟩
  expectations := .unchecked

theorem issues_namelessRoot_iff (issued : List String) (node : Node) :
    (namelessRoot issued).Issues node ↔
      node.nodeId ∈ issued ∧ node ∈ (namelessRoot issued).graph.nodes := by
  unfold Issues Event.Issues
  constructor
  · rintro ⟨e, he, -, -, hmem, hname⟩
    obtain ⟨name, hissued, rfl⟩ := List.mem_map.mp he
    exact ⟨Option.some.inj hname ▸ hissued, hmem⟩
  · rintro ⟨hissued, hmem⟩
    exact ⟨_, List.mem_map_of_mem hissued, rfl, by simp, hmem, rfl⟩

/-- A root is taken for a sibling of its child, and a second root hides the fork of the children. -/
theorem detection_beside_nameless_root :
    ((∃ outcome, (namelessRoot ["", "elder"]).simulate = .ok outcome ∧
      outcome.detection = true) ∧ ¬ (namelessRoot ["", "elder"]).Forked) ∧
    (∃ outcome, (namelessRoot ["elder", "apart", "younger"]).simulate = .ok outcome ∧
      outcome.detection = false) ∧ (namelessRoot ["elder", "apart", "younger"]).Forked :=
  ⟨⟨⟨_, by cbv, rfl⟩, by decide⟩, ⟨_, by cbv, rfl⟩, by decide⟩

/-- A fork is detected exactly when two issued nodes contradict each other, whatever the order, the
times and the number of their issues, unless roots are issued beside children of a node whose name
is empty. Even beside such roots no other contradiction is missed than one of the epochs of such
children. -/
theorem detection_iff_forked (h : s.simulate = .ok outcome) :
    (s.RootsApart → (outcome.detection = true ↔ s.Forked)) ∧
    (∀ a b, s.Issues a → s.Issues b → a.Contradicts b →
      (a.parentId = some "" → a.epochId = b.epochId) → outcome.detection = true) ∧
    (∀ (other : Scenario) (result : Outcome), other.simulate = .ok result →
      (∀ node, other.Issues node ↔ s.Issues node) → s.RootsApart →
        result.detection = outcome.detection) := by
  refine ⟨detection_iff_of_rootsApart h, ?_, ?_⟩
  · intro a b ha hb hab hname
    exact detection_of_contradicts h ha hb hab hname
  · intro other result hother hsame hapart
    have hapart' : other.RootsApart := by
      simp only [RootsApart, hsame]
      exact hapart
    rw [Bool.eq_iff_iff, detection_iff_of_rootsApart hother hapart',
      detection_iff_of_rootsApart h hapart]
    simp only [Forked, hsame]

theorem children_fork_in_any_order :
    ∃ outcome result, (namelessRoot ["elder", "younger"]).simulate = .ok outcome ∧
      (namelessRoot ["younger", "elder", "younger"]).simulate = .ok result ∧
      outcome.detection = true ∧ result.detection = true := by
  have hfirst : ∃ outcome, (namelessRoot ["elder", "younger"]).simulate = .ok outcome :=
    ⟨_, by cbv⟩
  have hagain : ∃ result, (namelessRoot ["younger", "elder", "younger"]).simulate = .ok result :=
    ⟨_, by cbv⟩
  obtain ⟨outcome, h⟩ := hfirst
  obtain ⟨result, hresult⟩ := hagain
  obtain ⟨hexact, -, hsame⟩ := detection_iff_forked h
  have hapart : (namelessRoot ["elder", "younger"]).RootsApart := by decide
  have hdetected : outcome.detection = true := (hexact hapart).mpr (by decide)
  have hissues : ∀ node, (namelessRoot ["younger", "elder", "younger"]).Issues node ↔
      (namelessRoot ["elder", "younger"]).Issues node := by
    intro node
    rw [issues_namelessRoot_iff, issues_namelessRoot_iff]
    refine and_congr_left' ⟨fun h => ?_, fun h => List.mem_cons_of_mem _ h⟩
    rcases List.mem_cons.mp h with hname | h
    · exact hname ▸ List.mem_cons_of_mem _ List.mem_cons_self
    · exact h
  have hequal := hsame _ result hresult hissues hapart
  exact ⟨outcome, result, h, hresult, hdetected, hequal.trans hdetected⟩

end Scenario
end Conformance.EpochFork
