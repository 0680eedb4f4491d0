import Conformance.Proofs.EpochFork.Timing

/-!
# Sums that fit

A program that checks its sums stops at the first one that does not fit a signed
word. As long as it runs it does what the program does whose sums wrap around, and
it runs to the end exactly where the messages let go so far, the time at which the
first fork is seen and the time from then to the first merge always fit.
-/
namespace Conformance.EpochFork
open Conformance

variable {g : Graph} {t : Tracker} {past events : List Event} {e : Event}

theorem replayChecked_cases (g : Graph) (t : Tracker) (events : List Event) :
    replayChecked g t events = none ∨
      replayChecked g t events = some (events.foldlM (step g) t) := by
  induction events generalizing t with
  | nil => exact .inr rfl
  | cons e events ih =>
    rw [replayChecked, List.foldlM_cons]
    split
    · cases step g t e with
      | error refusal => exact .inr rfl
      | ok next => exact ih next
    · exact .inl rfl

theorem forall_split_cons {α : Type} {P : List α → α → Prop} (a : α) (l : List α) :
    (∀ earlier b later, a :: l = earlier ++ b :: later → P earlier b) ↔
      P [] a ∧ ∀ earlier b later, l = earlier ++ b :: later → P (a :: earlier) b := by
  constructor
  · intro h
    refine ⟨h [] a l rfl, fun earlier b later hsplit => h (a :: earlier) b later ?_⟩
    rw [hsplit, List.cons_append]
  · rintro ⟨hfirst, hrest⟩ (_ | ⟨c, earlier⟩) b later hsplit
    · obtain ⟨rfl, -⟩ := List.cons.inj hsplit
      exact hfirst
    · obtain ⟨rfl, htail⟩ := List.cons.inj hsplit
      exact hrest earlier b later htail

/-- A replay that checks its sums comes to the end of a stream, or to what is refused in it, if
each sum fits that is taken after some of its events. -/
theorem replayChecked_eq_some_iff (g : Graph) (t : Tracker) (events : List Event) :
    replayChecked g t events = some (events.foldlM (step g) t) ↔
      ∀ earlier e later, events = earlier ++ e :: later → ∀ reached,
        earlier.foldlM (step g) t = .ok reached →
          (reached.sum? g e).all Word.fitsSigned = true := by
  induction events generalizing t with
  | nil =>
    refine iff_of_true rfl fun earlier e later hsplit => ?_
    simp at hsplit
  | cons e events ih =>
    rw [forall_split_cons e events, replayChecked]
    have hfirst : (∀ reached, ([] : List Event).foldlM (step g) t = .ok reached →
        (reached.sum? g e).all Word.fitsSigned = true) ↔
          (t.sum? g e).all Word.fitsSigned = true := by
      simp [pure, Except.pure]
    rw [hfirst]
    by_cases hfit : (t.sum? g e).all Word.fitsSigned = true
    · rw [if_pos hfit, and_iff_right hfit]
      simp only [List.foldlM_cons]
      cases step g t e with
      | error refusal => exact iff_of_true rfl fun _ _ _ _ _ hrun => nomatch hrun
      | ok next => exact ih next
    · rw [if_neg hfit]
      exact iff_of_false (by simp) fun h => hfit h.1

theorem Event.known_of_issued? {node : Node} (h : e.issued? g = some node) : e.Known g := by
  intro _ _
  obtain ⟨name, hname, hget⟩ := Option.bind_eq_some_iff.mp (Option.ite_none_right_eq_some.mp h).2
  have hnode : node.nodeId = name := by simpa using List.find?_some hget
  exact ⟨node, List.mem_of_find?_eq_some hget, by rw [hname, hnode]⟩

theorem Event.Forks.known (h : e.Forks g past) : e.Known g := by
  obtain ⟨node, hissued, -⟩ := h
  exact known_of_issued? hissued

theorem Event.Forks.lost_eq_zero (h : e.Forks g past) : e.lost = 0 := by
  obtain ⟨node, hissued, -⟩ := h
  exact Event.lost_eq_zero (Option.ite_none_right_eq_some.mp hissued).1.1

/-- The sum that a step takes fits if what is let go by its event does, and the time at which its
event is seen if that makes the first fork. -/
theorem all_sum?_iff (hgathers : t.Gathers g past) (hdates : t.Dates g past)
    (hpast : Word.fitsSigned (past.map Event.lost).sum = true) :
    (t.sum? g e).all Word.fitsSigned = true ↔
      Word.fitsSigned ((past ++ [e]).map Event.lost).sum = true ∧
        (e.Forks g past → ¬ Occurs (Event.Forks g) past → Word.fitsSigned e.seenAt = true) := by
  have hfirst : ((e.issued? g).any t.isFork && t.detection.isNone) = true ↔
      e.Forks g past ∧ ¬ Occurs (Event.Forks g) past := by
    rw [Bool.and_eq_true, Option.isNone_iff_eq_none, hdates.detection_eq_none_iff,
      Option.any_eq_true]
    refine and_congr_left fun _ => ⟨?_, ?_⟩
    · rintro ⟨node, hissued, hfork⟩
      exact (hdates.isFork_iff hissued).mp hfork
    · intro hforks
      obtain ⟨node, hissued, -⟩ := id hforks
      exact ⟨node, hissued, (hdates.isFork_iff hissued).mpr hforks⟩
  unfold Tracker.sum?
  by_cases hforks : e.Forks g past ∧ ¬ Occurs (Event.Forks g) past
  · rw [if_pos (hfirst.mpr hforks), sum_lost_snoc, hforks.1.lost_eq_zero, add_zero]
    simp [hpast, hforks]
  · rw [if_neg (mt hfirst.mp hforks), sum_lost_snoc]
    have hseen : e.Forks g past → ¬ Occurs (Event.Forks g) past →
        Word.fitsSigned e.seenAt = true := fun hissue hlater => absurd ⟨hissue, hlater⟩ hforks
    by_cases hkind : e.kind = "replay_attempt"
    · rw [if_pos hkind, Option.all_some, Tracker.dropsTo, hgathers.messagesDropped,
        Word.wrap_eq_self hpast, Event.lost, if_pos hkind]
      exact (and_iff_left hseen).symm
    · rw [if_neg hkind, Event.lost, if_neg hkind, add_zero]
      exact iff_of_true rfl ⟨hpast, hseen⟩

theorem Event.lost_eq_zero_of_not_known (h : ¬ e.Known g) : e.lost = 0 := by
  apply lost_eq_zero
  by_contra hother
  exact h fun hissue => absurd hissue hother

/-- A replay takes only sums that fit if what is let go by any of the events that it comes to fits,
and so does the time at which the first fork among them is seen. -/
theorem replayChecked_new_eq_some_iff (g : Graph) (events : List Event) :
    replayChecked g .new events = some (events.foldlM (step g) .new) ↔
      ∀ earlier later, events = earlier ++ later → (∀ e ∈ earlier, e.Known g) →
        Word.fitsSigned (earlier.map Event.lost).sum = true ∧
          ∀ fork, FirstFork g earlier fork → Word.fitsSigned fork.seenAt = true := by
  rw [replayChecked_eq_some_iff]
  constructor
  · intro h earlier
    induction earlier using List.reverseRecOn with
    | nil =>
      refine fun _ _ _ => ⟨rfl, fun fork hfork => ?_⟩
      exact absurd hfork.occurs not_occurs_nil
    | append_singleton past e ih =>
      intro later hsplit hknown
      rw [List.append_assoc, List.singleton_append] at hsplit
      obtain ⟨hpast, -⟩ := List.forall_mem_append.mp hknown
      obtain ⟨hsum, hseen⟩ := ih _ hsplit hpast
      obtain ⟨t, hrun⟩ := (exists_run_eq_ok_iff g .new past).mpr hpast
      obtain ⟨hdropped, hfork⟩ :=
        (all_sum?_iff (Tracker.Gathers.run hrun) (Tracker.Dates.run hrun) hsum).mp
          (h past e later hsplit t hrun)
      refine ⟨hdropped, fun fork hfirst => ?_⟩
      rcases (occursFirst_snoc past e fork).mp hfirst with hearlier | ⟨hnone, hforks, rfl⟩
      · exact hseen fork hearlier
      · exact hfork hforks hnone
  · intro h past e later hsplit t hrun
    have hpast := (exists_run_eq_ok_iff g .new past).mp ⟨t, hrun⟩
    have hsum := (h past (e :: later) hsplit hpast).1
    rw [all_sum?_iff (Tracker.Gathers.run hrun) (Tracker.Dates.run hrun) hsum]
    by_cases hknown : e.Known g
    · have hnext : events = (past ++ [e]) ++ later := by
        rw [hsplit, List.append_cons]
      obtain ⟨hdropped, hseen⟩ := h (past ++ [e]) later hnext
        (List.forall_mem_append.mpr ⟨hpast, List.forall_mem_singleton.mpr hknown⟩)
      refine ⟨hdropped, fun hforks hnone => hseen e ?_⟩
      exact (occursFirst_snoc past e e).mpr (.inr ⟨hnone, hforks, rfl⟩)
    · refine ⟨?_, fun hforks => absurd hforks.known hknown⟩
      rwa [sum_lost_snoc, Event.lost_eq_zero_of_not_known hknown, add_zero]

/-- The differences that are taken at the end fit if the time to the first merge does. -/
theorem all_differences_iff (hdates : t.Dates g past)
    (hseen : ∀ fork, FirstFork g past fork → Word.fitsSigned fork.seenAt = true)
    (reference : Reference) :
    (t.differences reference).all Word.fitsSigned = true ↔
      ∀ fork, FirstFork g past fork → ∀ merge, past.find? Event.isMerge = some merge →
        Word.fitsSigned (merge.time - fork.seenAt) = true := by
  unfold Tracker.differences
  cases hdetection : t.detection with
  | none =>
    refine iff_of_true rfl fun fork hfork => ?_
    exact absurd hfork.occurs (hdates.detection_eq_none_iff.mp hdetection)
  | some d =>
    obtain ⟨fork, hfork, rfl⟩ := (hdates.detection d).mp hdetection
    have hwrap := Word.wrap_eq_self (hseen fork hfork)
    have hsame : ∀ other, FirstFork g past other → other.seenAt = fork.seenAt := by
      intro other hother
      have hdated := (hdates.detection _).mpr ⟨other, hother, rfl⟩
      rw [hdetection, Option.some.injEq, Detection.mk.injEq, hwrap,
        Word.wrap_eq_self (hseen other hother)] at hdated
      exact hdated.2.symm
    have hlag : Word.fitsSigned (Detection.lag ⟨fork.time, Word.wrap fork.seenAt⟩) = true := by
      rw [Detection.lag, hwrap, Event.seenAt, add_sub_cancel_left]
      exact fork.fitsSigned_validationDelay
    have hhealing : (t.mergedAt.map
        (Detection.healing ⟨fork.time, Word.wrap fork.seenAt⟩)).toList.all Word.fitsSigned = true ↔
        ∀ merge, past.find? Event.isMerge = some merge →
          Word.fitsSigned (merge.time - fork.seenAt) = true := by
      rw [hdates.mergedAt]
      cases past.find? Event.isMerge <;> simp [Detection.healing, hwrap]
    have hlags : (if reference = .created then
        [Detection.lag ⟨fork.time, Word.wrap fork.seenAt⟩] else []).all Word.fitsSigned = true := by
      split_ifs <;> simp [hlag]
    rw [List.all_append, hlags, Bool.true_and, hhealing]
    constructor
    · intro h other hother merge hmerge
      rw [hsame other hother]
      exact h merge hmerge
    · exact fun h merge hmerge => h fork hfork merge hmerge

/-- Of the events up to one that is refused, the messages that are let go by any of them and the
time at which the first fork is seen fit a signed word. So does the time from then to the first
merge, if nothing is refused. -/
structure SumsFit (g : Graph) (events : List Event) : Prop where
  dropped : ∀ earlier later, events = earlier ++ later → (∀ e ∈ earlier, e.Known g) →
    Word.fitsSigned (earlier.map Event.lost).sum = true
  seen : ∀ earlier later, events = earlier ++ later → (∀ e ∈ earlier, e.Known g) →
    ∀ fork, FirstFork g earlier fork → Word.fitsSigned fork.seenAt = true
  healed : (∀ e ∈ events, e.Known g) → ∀ fork, FirstFork g events fork →
    ∀ merge, events.find? Event.isMerge = some merge →
      Word.fitsSigned (merge.time - fork.seenAt) = true

theorem simulateChecked_cases (g : Graph) (reference : Reference) (events : List Event) :
    simulateChecked g reference events = none ∨
      simulateChecked g reference events = some (simulate g reference events) := by
  unfold simulateChecked simulate
  cases g.refusal? with
  | some reason => exact .inr rfl
  | none =>
    rcases replayChecked_cases g .new (inOrder events) with h | h
    · exact .inl (by rw [h])
    · rw [h]
      cases (inOrder events).foldlM (step g) .new with
      | error refusal => exact .inr rfl
      | ok t =>
        by_cases hfit : (t.differences reference).all Word.fitsSigned = true
        · exact .inr (if_pos hfit)
        · exact .inl (if_neg hfit)

theorem simulateChecked_eq_some_iff (g : Graph) (reference : Reference) (events : List Event) :
    simulateChecked g reference events = some (simulate g reference events) ↔
      g.refusal? ≠ none ∨ SumsFit g (inOrder events) := by
  have hreplay := replayChecked_new_eq_some_iff g (inOrder events)
  have hknown := exists_run_eq_ok_iff g .new (inOrder events)
  unfold simulateChecked simulate
  cases g.refusal? with
  | some reason => simp
  | none =>
    simp only [ne_eq, not_true_eq_false, false_or]
    rcases replayChecked_cases g .new (inOrder events) with hstops | hends
    · rw [hstops] at hreplay ⊢
      refine iff_of_false (by simp) fun h => ?_
      cases hreplay.mpr fun earlier later hsplit hearlier =>
        ⟨h.dropped earlier later hsplit hearlier, h.seen earlier later hsplit hearlier⟩
    · have hsums := hreplay.mp hends
      have hfits := SumsFit.mk (fun earlier later hsplit h => (hsums earlier later hsplit h).1)
        (fun earlier later hsplit h => (hsums earlier later hsplit h).2)
      rw [hends]
      cases hrun : (inOrder events).foldlM (step g) .new with
      | error refusal =>
        refine iff_of_true rfl (hfits fun hall => ?_)
        obtain ⟨t, ht⟩ := hknown.mpr hall
        cases hrun.symm.trans ht
      | ok t =>
        have hall := hknown.mp ⟨t, hrun⟩
        have hseen := (hsums (inOrder events) [] (by simp) hall).2
        have hdifferences := all_differences_iff (Tracker.Dates.run hrun) hseen reference
        by_cases hfit : (t.differences reference).all Word.fitsSigned = true
        · exact iff_of_true (if_pos hfit) (hfits fun _ => hdifferences.mp hfit)
        · refine iff_of_false (fun h => ?_) fun h => hfit (hdifferences.mpr (h.healed hall))
          have hstops : (if (t.differences reference).all Word.fitsSigned = true then
              some (.ok (t.finish g reference)) else none : Option (Except Refusal Outcome)) = none :=
            if_neg hfit
          cases hstops.symm.trans h

namespace Scenario

theorem simulateChecked_cases (s : Scenario) :
    s.simulateChecked = none ∨ s.simulateChecked = some s.simulate := by
  unfold simulateChecked simulate
  rcases EpochFork.simulateChecked_cases s.graph
    (.ofName s.expectations.detectionReference) s.events with h | h <;> simp [h]

theorem simulateChecked_eq_some_iff (s : Scenario) :
    s.simulateChecked = some s.simulate ↔
      s.graph.refusal? ≠ none ∨ SumsFit s.graph (inOrder s.events) := by
  rw [← EpochFork.simulateChecked_eq_some_iff s.graph
    (.ofName s.expectations.detectionReference) s.events]
  unfold simulateChecked simulate
  rcases EpochFork.simulateChecked_cases s.graph
    (.ofName s.expectations.detectionReference) s.events with h | h <;> simp [h]

end Scenario
end Conformance.EpochFork
