import Conformance.Proofs.EpochFork.Detection
import Conformance.Proofs.EpochFork.Reconciliation

/-!
# When things happened

The events are replayed by time, and those of one time as they stand in the
stream. The first event that is judged a fork fixes the time of detection, and the
first merge that of reconciliation; whatever comes later moves neither. What is
reported are differences of these times, none of them negative, and exact where
they fit a signed word.
-/
namespace Conformance

theorem Text.fitsSigned_of_signed64? {chars : List Char} {n : ℤ}
    (h : signed64? chars = some n) : Word.fitsSigned n = true := by
  unfold signed64? at h
  grind

namespace EpochFork

/-- The event issues a node that differs from all nodes of its epoch, or from all nodes beside it
under its parent, of those that were issued before. -/
def Event.Forks (g : Graph) (past : List Event) (e : Event) : Prop :=
  ∃ node, e.issued? g = some node ∧
    (Departs SameEpoch Node.hash (issuedNodes g past) node ∨
      Departs Grouped Node.mark (issuedNodes g past) node)

def FirstFork (g : Graph) (events : List Event) (e : Event) : Prop :=
  OccursFirst (Event.Forks g) events e

def Event.isMerge (e : Event) : Bool := e.kind = "merge"

theorem Event.fitsSigned_validationDelay (e : Event) :
    Word.fitsSigned e.validationDelay = true := by
  unfold Event.validationDelay
  split
  · rename_i stated _
    cases h : Text.signed64? (Text.trimBlank (String.ofList stated)).toList with
    | none => rfl
    | some n => exact Text.fitsSigned_of_signed64? h
  · rfl

/-- The lag of a fork is the delay that its event states, even where the time at which it is seen
wraps. -/
theorem Event.wrap_lag (e : Event) :
    Word.wrap (Detection.lag ⟨e.time, Word.wrap e.seenAt⟩) = e.validationDelay := by
  rw [Detection.lag, Word.wrap_wrap_sub, seenAt, add_sub_cancel_left,
    Word.wrap_eq_self e.fitsSigned_validationDelay]

namespace Tracker

variable {g : Graph} {t t' : Tracker} {node : Node} {e : Event} {past : List Event}

@[simp] theorem emit_mergedAt (c : Category) : (t.emit c).mergedAt = t.mergedAt := by
  unfold emit
  split <;> rfl

@[simp] theorem detect_mergedAt : (t.detect e).mergedAt = t.mergedAt := by
  unfold detect
  split <;> simp

theorem issue_mergedAt : (t.issue g node e).mergedAt = t.mergedAt := by
  simp only [issue]
  split <;> split <;> simp

theorem nodup_emit (h : t.errors.Nodup) (c : Category) : (t.emit c).errors.Nodup := by
  by_cases hc : c ∈ t.errors
  · simpa [emit, hc] using h
  · simp only [emit, List.contains_iff_mem, hc, if_false, ← List.concat_eq_append]
    exact h.concat hc

/-- Each error is on record once, and a fork is among them exactly when it is dated. -/
structure Reports (t : Tracker) : Prop where
  nodup : t.errors.Nodup
  forkDetected : .forkDetected ∈ t.errors ↔ t.detection.isSome = true

namespace Reports

theorem emit_chainBreak (h : t.Reports) : (t.emit .chainBreak).Reports where
  nodup := nodup_emit h.nodup .chainBreak
  forkDetected := by simp [mem_emit_errors, h.forkDetected]

theorem detect (h : t.Reports) : (t.detect e).Reports := by
  unfold Tracker.detect
  split
  · exact h
  · apply Reports.mk
    · apply nodup_emit
      exact h.nodup
    · simp [mem_emit_errors]

theorem issue (h : t.Reports) : (t.issue g node e).Reports := by
  have hkept : Reports { t with
      epochs := addTo node.epochId node t.epochs
      children := addTo (parentKey node) node t.children } := ⟨h.nodup, h.forkDetected⟩
  simp only [Tracker.issue]
  split <;> split
  · exact hkept.detect.emit_chainBreak
  · exact hkept.emit_chainBreak
  · exact hkept.detect
  · exact hkept

end Reports

/-- The first fork and the first merge of the events so far are on record. -/
structure Dates (g : Graph) (t : Tracker) (past : List Event) : Prop where
  holds : t.Holds (issuedNodes g past)
  detection : ∀ d, t.detection = some d ↔
    ∃ e, FirstFork g past e ∧ d = ⟨e.time, Word.wrap e.seenAt⟩
  mergedAt : t.mergedAt = (past.find? Event.isMerge).map Event.time
  reports : t.Reports

namespace Dates

theorem detection_eq_none_iff (h : t.Dates g past) :
    t.detection = none ↔ ¬ Occurs (Event.Forks g) past := by
  rw [← exists_occursFirst_iff, Option.eq_none_iff_forall_ne_some]
  constructor
  · rintro hnone ⟨e, he⟩
    exact hnone _ ((h.detection _).mpr ⟨e, he, rfl⟩)
  · rintro hnone d hd
    obtain ⟨e, he, -⟩ := (h.detection d).mp hd
    exact hnone ⟨e, he⟩

theorem isFork_iff (h : t.Dates g past) (hissued : e.issued? g = some node) :
    t.isFork node = true ↔ e.Forks g past := by
  rw [isFork, Bool.or_eq_true, h.holds.divergesInEpoch_iff, h.holds.divergesFromSiblings_iff]
  simp [Event.Forks, hissued]

theorem not_forks (hissued : e.issued? g = none) : ¬ e.Forks g past := by
  rintro ⟨node, hnode, -⟩
  cases hissued.symm.trans hnode

/-- An event that makes no fork leaves the first fork as it is. -/
theorem firstFork_snoc_of_not_forks (he : ¬ e.Forks g past) (f : Event) :
    FirstFork g (past ++ [e]) f ↔ FirstFork g past f := by
  rw [FirstFork, occursFirst_snoc, FirstFork]
  simp [he]

theorem detection_issue (h : t.Dates g past) (hissued : e.issued? g = some node)
    (d : Detection) : (t.issue g node e).detection = some d ↔
      ∃ f, FirstFork g (past ++ [e]) f ∧ d = ⟨f.time, Word.wrap f.seenAt⟩ := by
  rw [issue_detection]
  by_cases hforks : e.Forks g past
  · rw [if_pos ((h.isFork_iff hissued).mpr hforks)]
    simp only [FirstFork, occursFirst_snoc, hforks, true_and]
    cases hd : t.detection with
    | some seen =>
      have hoccurs : Occurs (Event.Forks g) past := by
        by_contra hnone
        cases hd.symm.trans (h.detection_eq_none_iff.mpr hnone)
      simp only [hoccurs, not_true, false_and, or_false]
      rw [Option.some_or, ← hd]
      exact h.detection d
    | none =>
      have hnone := h.detection_eq_none_iff.mp hd
      have hfirst : ∀ f, ¬ OccursFirst (Event.Forks g) past f := fun f hf => hnone hf.occurs
      simp [hnone, hfirst, eq_comm]
  · rw [if_neg (mt (h.isFork_iff hissued).mp hforks)]
    simp only [firstFork_snoc_of_not_forks hforks]
    exact h.detection d

theorem find?_snoc_isMerge (past : List Event) (e : Event) :
    ((past ++ [e]).find? Event.isMerge).map Event.time =
      ((past.find? Event.isMerge).map Event.time).or
        (if e.kind = "merge" then some e.time else none) := by
  rw [List.find?_append]
  by_cases he : e.kind = "merge" <;> cases past.find? Event.isMerge <;>
    simp [Event.isMerge, he]

theorem step (h : t.Dates g past) (hs : EpochFork.step g t e = .ok t') :
    t'.Dates g (past ++ [e]) := by
  have hholds := h.holds.step hs
  rw [← issuedNodes_snoc] at hholds
  rcases step_cases hs with ⟨node, hissued, rfl⟩ | ⟨hissued, hrest⟩
  · have hkind : e.kind ≠ "merge" := by
      unfold Event.issued? at hissued
      grind
    refine ⟨hholds, h.detection_issue hissued, ?_, h.reports.issue⟩
    rw [issue_mergedAt, h.mergedAt, find?_snoc_isMerge, if_neg hkind, Option.or_none]
  · have hdetection : ∀ d, t.detection = some d ↔
        ∃ f, FirstFork g (past ++ [e]) f ∧ d = ⟨f.time, Word.wrap f.seenAt⟩ := by
      simp only [firstFork_snoc_of_not_forks (not_forks hissued)]
      exact h.detection
    have hmerged := find?_snoc_isMerge past e
    rw [← h.mergedAt] at hmerged
    rcases hrest with ⟨hkind, rfl⟩ | ⟨hkind, rfl⟩ | ⟨-, hkind, rfl⟩
    · refine ⟨hholds, hdetection, ?_, ⟨h.reports.nodup, h.reports.forkDetected⟩⟩
      rw [hmerged, hkind]
      simp [drop]
    · refine ⟨hholds, hdetection, ?_, ⟨h.reports.nodup, h.reports.forkDetected⟩⟩
      rw [hmerged, if_pos hkind, merge]
    · refine ⟨hholds, hdetection, ?_, ⟨h.reports.nodup, h.reports.forkDetected⟩⟩
      rw [hmerged, if_neg hkind, Option.or_none]

theorem run {events : List Event} (h : events.foldlM (EpochFork.step g) new = .ok t) :
    t.Dates g events := by
  have hstart : new.Dates g [] := by
    refine ⟨holds_new, fun d => ?_, rfl, List.nodup_nil, by simp [new]⟩
    refine iff_of_false (by simp [new]) ?_
    rintro ⟨e, he, -⟩
    exact not_occurs_nil he.occurs
  exact run_invariant (fun _ _ _ _ hpast hs => hpast.step hs) h hstart

theorem isSome_detection_iff (h : t.Dates g past) :
    t.detection.isSome = true ↔ ∃ fork, FirstFork g past fork := by
  rw [Option.isSome_iff_exists]
  simp only [h.detection]
  constructor
  · rintro ⟨-, fork, hfork, -⟩
    exact ⟨fork, hfork⟩
  · rintro ⟨fork, hfork⟩
    exact ⟨_, fork, hfork, rfl⟩

section
variable {events : List Event} (h : t.Dates g past) (hsorted : SortsBy Event.time events past)
include h hsorted

theorem isSome_mergedAt_iff : t.mergedAt.isSome = true ↔ ∃ e ∈ events, e.kind = "merge" := by
  rw [h.mergedAt]
  simp [Event.isMerge, hsorted.mem_iff]

/-- Where the events are replayed by time, the merge on record is the earliest of the stream. -/
theorem mergedAt_eq {merge : Event} (hmem : merge ∈ events) (hkind : merge.kind = "merge")
    (hleast : ∀ e ∈ events, e.kind = "merge" → merge.time ≤ e.time) :
    t.mergedAt = some merge.time := by
  have hsome := (h.isSome_mergedAt_iff hsorted).mpr ⟨merge, hmem, hkind⟩
  rw [h.mergedAt, Option.isSome_map] at hsome
  obtain ⟨first, hfirst⟩ := Option.isSome_iff_exists.mp hsome
  have hle : first.time ≤ merge.time :=
    hsorted.key_le_of_find? hfirst hmem (by simpa [Event.isMerge] using hkind)
  have hge : merge.time ≤ first.time := by
    apply hleast first
    · exact (hsorted.mem_iff first).mp (List.mem_of_find?_eq_some hfirst)
    · simpa [Event.isMerge] using List.find?_some hfirst
  rw [h.mergedAt, hfirst, Option.map_some, le_antisymm hle hge]

end

end Dates
end Tracker

/-- The node names a hash that is not the one of its parent. -/
def Node.LeavesParent (g : Graph) (node : Node) : Prop :=
  ∃ parent ∈ g.nodes, node.parentId = some parent.nodeId ∧
    ∃ previous, node.previousHash = some previous ∧ previous ≠ parent.hash

theorem breaksChain_iff {g : Graph} (h : g.refusal? = none) (node : Node) :
    Tracker.breaksChain g node = true ↔ node.LeavesParent g := by
  have hget := Graph.get?_eq_some_iff (Graph.nodup_of_refusal? h)
  have hparent : ∀ parent, node.parentId.bind g.get? = some parent ↔
      parent ∈ g.nodes ∧ node.parentId = some parent.nodeId := by
    intro parent
    rw [Option.bind_eq_some_iff]
    simp only [hget]
    constructor
    · rintro ⟨name, hname, hmem, rfl⟩
      exact ⟨hmem, hname⟩
    · rintro ⟨hmem, hname⟩
      exact ⟨parent.nodeId, hname, hmem, rfl⟩
  unfold Tracker.breaksChain Node.LeavesParent
  split
  · rename_i previous parent hprevious hfound
    rw [hprevious]
    obtain ⟨hmem, hname⟩ := (hparent parent).mp hfound
    constructor
    · intro hne
      exact ⟨parent, hmem, hname, previous, rfl, (bne_iff_ne.mp hne).symm⟩
    · rintro ⟨other, hother, hname', _, hsome, hne⟩
      have hsame := (hparent other).mpr ⟨hother, hname'⟩
      obtain rfl : parent = other := Option.some.inj (hfound.symm.trans hsame)
      obtain rfl := Option.some.inj hsome
      exact bne_iff_ne.mpr hne.symm
  · rename_i hnone
    refine iff_of_false (by simp) ?_
    rintro ⟨parent, hmem, hname, previous, hprevious, -⟩
    exact hnone previous parent hprevious ((hparent parent).mpr ⟨hmem, hname⟩)

namespace Scenario

variable {s : Scenario} {outcome : Outcome} {replay : List Event}

/-- What an outcome says of the faults and of the times, the events being replayed in an order. -/
structure Timed (s : Scenario) (replay : List Event) (outcome : Outcome) : Prop where
  forkDetected : outcome.detection = true ↔ "EPOCH_FORK_DETECTED" ∈ outcome.errors
  detected : outcome.detection = true ↔ outcome.detectionMs.isSome = true
  forked : outcome.detection = true ↔ ∃ fork, FirstFork s.graph replay fork
  nodup : outcome.errors.Nodup
  chainBreak : "HASH_CHAIN_BREAK" ∈ outcome.errors ↔
    ∃ node, s.Issues node ∧ node.LeavesParent s.graph
  detectionMs : ∀ fork, FirstFork s.graph replay fork → outcome.detectionMs =
    some (if s.expectations.detectionReference = "fork_observable" then 0
      else max 0 fork.validationDelay)
  reconciled : outcome.reconciliationMs.isSome = true ↔
    outcome.detection = true ∧ ∃ e ∈ s.events, e.kind = "merge"
  reconciliationMs : ∀ fork, FirstFork s.graph replay fork → ∀ merge ∈ s.events,
    merge.kind = "merge" → (∀ e ∈ s.events, e.kind = "merge" → merge.time ≤ e.time) →
      outcome.reconciliationMs =
        some (max 0 (Word.wrap (merge.time - (fork.time + fork.validationDelay)))) ∧
      (Word.fitsSigned (merge.time - (fork.time + fork.validationDelay)) = true →
        outcome.reconciliationMs = some (max 0 (merge.time - (fork.time + fork.validationDelay))))

/-- Detection, its error and its time come together, each error comes once, and the times are those
of the first fork and of the earliest merge, whatever else the stream holds. The time of
reconciliation is exact where it fits a signed word, and wraps where it does not. -/
theorem outcome_timed (h : s.simulate = .ok outcome)
    (hreplay : SortsBy Event.time s.events replay) : s.Timed replay outcome := by
  obtain rfl : inOrder s.events = replay := (sortsBy_inOrder s.events).unique hreplay
  obtain ⟨hgraph, t, hrun, rfl⟩ := (EpochFork.simulate_eq_ok_iff _ _ _ _).mp
    ((s.simulate_eq_ok_iff _).mp h)
  have hdates := Tracker.Dates.run hrun
  have hgathers := Tracker.Gathers.run hrun
  have hdated : ∀ fork, FirstFork s.graph (inOrder s.events) fork →
      t.detection = some ⟨fork.time, Word.wrap fork.seenAt⟩ := fun fork hfork =>
    (hdates.detection _).mpr ⟨fork, hfork, rfl⟩
  have hname (c : Category) : c.name ∈ t.errors.map Category.name ↔ c ∈ t.errors :=
    List.mem_map_of_injective Category.name_injective
  constructor
  · exact hdates.reports.forkDetected.symm.trans (hname .forkDetected).symm
  · simp [Tracker.finish]
  · exact hdates.isSome_detection_iff
  · exact hdates.reports.nodup.map Category.name_injective
  · refine (hname .chainBreak).trans ?_
    rw [hgathers.chainBreak]
    simp only [mem_issuedNodes_iff hgraph, breaksChain_iff hgraph]
  · intro fork hfork
    simp only [Tracker.finish, hdated fork hfork, Option.map_some, Reference.ofName]
    by_cases hname : s.expectations.detectionReference = "fork_observable"
    · simp [hname]
    · simp [hname, max_comm, fork.wrap_lag]
  · rw [← hdates.isSome_mergedAt_iff (sortsBy_inOrder s.events)]
    change (t.detection.bind fun d => t.mergedAt.bind fun merged =>
      some (max (Word.wrap (d.healing merged)) 0)).isSome = true ↔ t.detection.isSome = true ∧ _
    cases t.detection <;> cases t.mergedAt <;> simp
  · intro fork hfork merge hmem hkind hleast
    have htime := hdates.mergedAt_eq (sortsBy_inOrder s.events) hmem hkind hleast
    have hwraps : (t.finish s.graph (.ofName s.expectations.detectionReference)).reconciliationMs =
        some (max 0 (Word.wrap (merge.time - (fork.time + fork.validationDelay)))) := by
      simp [Tracker.finish, hdated fork hfork, htime, max_comm, Detection.healing,
        Word.wrap_sub_wrap, Event.seenAt]
    refine ⟨hwraps, fun hfits => ?_⟩
    rw [hwraps, Word.wrap_eq_self hfits]

def mergeAt (time : ℤ) : Event :=
  ⟨time, "merge", none, none, none, [], none, none, []⟩

def issueSeenAfter (delay : String) (time : ℤ) (name : String) : Event :=
  { issueAt time name with faults := ["delay_validation:" ++ delay] }

def lateChild : Node :=
  ⟨"right", 2, "y", some "other", none, some "root", "", 0⟩

/-- Two children of one root, the second of which names another hash than that of the root. It is
issued late and seen later, and merges stand in the stream before and after it. -/
def lateFork : Scenario where
  scenarioId := "late-fork"
  tags := []
  groupContext := []
  graph := {
    nodes := [⟨"root", 1, "r", none, none, none, "", 0⟩,
      ⟨"left", 2, "x", some "r", none, some "root", "", 0⟩, lateChild]
    edges := [] }
  events := [mergeAt 400, issueSeenAfter "40" 105 "right", issueAt 0 "root", mergeAt 300,
    issueAt 100 "left"]
  expectations := .unchecked

theorem firstFork_lateFork :
    FirstFork lateFork.graph (inOrder lateFork.events) (issueSeenAfter "40" 105 "right") := by
  have horder : inOrder lateFork.events = [issueAt 0 "root", issueAt 100 "left",
      issueSeenAfter "40" 105 "right", mergeAt 300, mergeAt 400] := by cbv
  have hrun : ∃ t : Tracker,
      [issueAt 0 "root", issueAt 100 "left"].foldlM (step lateFork.graph) .new = .ok t ∧
        t.detection = none ∧ t.isFork lateChild = true := ⟨_, rfl, rfl, by decide⟩
  obtain ⟨t, hrun, hnone, hfork⟩ := hrun
  have hdates := Tracker.Dates.run hrun
  rw [horder]
  exact ⟨[issueAt 0 "root", issueAt 100 "left"], [mergeAt 300, mergeAt 400], rfl,
    (hdates.isFork_iff rfl).mp hfork, hdates.detection_eq_none_iff.mp hnone⟩

theorem lateFork_timed :
    SortsBy Event.time lateFork.events (inOrder lateFork.events) ∧
    ∃ outcome, lateFork.simulate = .ok outcome ∧ outcome.detection = true ∧
      "EPOCH_FORK_DETECTED" ∈ outcome.errors ∧ "HASH_CHAIN_BREAK" ∈ outcome.errors ∧
      outcome.errors.Nodup ∧ outcome.detectionMs = some 40 ∧
      outcome.reconciliationMs = some 155 := by
  have hfork := firstFork_lateFork
  have hreplay := sortsBy_inOrder lateFork.events
  have hdelay : (issueSeenAfter "40" 105 "right").validationDelay = 40 := by cbv
  have hsimulate : ∃ outcome, EpochFork.simulate lateFork.graph .created lateFork.events =
      .ok outcome := by
    rw [exists_simulate_eq_ok_iff]
    refine ⟨by decide, ?_⟩
    simp [lateFork, lateChild, Event.Known, mergeAt, issueAt, issueSeenAfter]
  obtain ⟨outcome, h⟩ := hsimulate
  have h := (simulate_eq_ok_iff lateFork outcome).mpr h
  have htimed := outcome_timed h hreplay
  have hdetected := htimed.forked.mpr ⟨_, hfork⟩
  obtain ⟨-, hmerge⟩ := htimed.reconciliationMs _ hfork (mergeAt 300) (by simp [lateFork]) rfl
    (by decide)
  refine ⟨hreplay, outcome, h, hdetected, htimed.forkDetected.mp hdetected, ?_, htimed.nodup,
    ?_, ?_⟩
  · refine htimed.chainBreak.mpr ⟨lateChild, ?_, _, List.mem_cons_self, rfl, _, rfl, by decide⟩
    exact ⟨_, List.mem_cons_of_mem _ List.mem_cons_self, rfl, by decide, by decide, rfl⟩
  · rw [htimed.detectionMs _ hfork, hdelay]
    rfl
  · rw [hdelay] at hmerge
    exact hmerge (by decide)

end Scenario
end EpochFork
end Conformance
