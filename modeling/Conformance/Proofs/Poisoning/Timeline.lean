import Conformance.Poisoning.Checks
import Mathlib.Tactic

/-!
# Forks of a timeline

A timeline is forked when a parent is mentioned twice. Two mentions come from two
children of the parent, or from one child that is listed under it again.
-/
namespace Conformance.Poisoning

namespace TimelineEntry

def SameParent (a b : TimelineEntry) : Prop :=
  ∃ parent, a.parent = some parent ∧ b.parent = some parent

variable {a b : TimelineEntry}

theorem SameParent.symm (h : SameParent a b) : SameParent b a := by
  obtain ⟨parent, ha, hb⟩ := h
  exact ⟨parent, hb, ha⟩

theorem SameParent.eq_of_epochId (h : SameParent a b) (hepoch : a.epochId = b.epochId) :
    a = b := by
  obtain ⟨parent, ha, hb⟩ := h
  cases a
  cases b
  simp_all

end TimelineEntry

open TimelineEntry

/-- Two children of one parent. -/
def HasSiblings (timeline : List TimelineEntry) : Prop :=
  ∃ a ∈ timeline, ∃ b ∈ timeline, a.epochId ≠ b.epochId ∧ SameParent a b

/-- A child that is listed under its parent more than once. -/
def Retransmits (timeline : List TimelineEntry) : Prop :=
  ∃ e ∈ timeline, e.parent.isSome ∧ 1 < timeline.count e

variable {timeline other : List TimelineEntry}

theorem hasSiblings_congr (h : ∀ e, e ∈ timeline ↔ e ∈ other) :
    HasSiblings timeline ↔ HasSiblings other := by
  simp only [HasSiblings, h]

theorem isForked_iff_not_nodup :
    isForked timeline = true ↔ ¬ (timeline.filterMap (·.parent)).Nodup := by
  simp only [isForked, List.any_eq_true, decide_eq_true_eq, List.nodup_iff_count_le_one, not_forall,
    not_le]
  constructor
  · rintro ⟨parent, -, hcount⟩
    exact ⟨parent, hcount⟩
  · rintro ⟨parent, hcount⟩
    exact ⟨parent, List.count_pos_iff.mp (by omega), hcount⟩

theorem isForked_iff_sublist :
    isForked timeline = true ↔ ∃ a b, [a, b].Sublist timeline ∧ SameParent a b := by
  rw [isForked_iff_not_nodup, List.Nodup, List.pairwise_filterMap, List.pairwise_iff_forall_sublist]
  push Not
  constructor
  · rintro ⟨a, b, hsublist, parent, ha, _, hb, rfl⟩
    exact ⟨a, b, hsublist, parent, ha, hb⟩
  · rintro ⟨a, b, hsublist, parent, ha, hb⟩
    exact ⟨a, b, hsublist, parent, ha, parent, hb, rfl⟩

theorem sublist_or_sublist_of_ne {a b : TimelineEntry} (ha : a ∈ timeline) (hb : b ∈ timeline)
    (h : a ≠ b) : [a, b].Sublist timeline ∨ [b, a].Sublist timeline := by
  let R (x y : TimelineEntry) : Prop := [x, y].Sublist timeline ∨ [y, x].Sublist timeline
  have hpairwise : timeline.Pairwise R := by
    rw [List.pairwise_iff_forall_sublist]
    exact Or.inl
  have hsymm : Std.Symm R := ⟨fun _ _ => Or.symm⟩
  exact hpairwise.forall ha hb h

theorem isForked_of_hasSiblings (h : HasSiblings timeline) : isForked timeline = true := by
  obtain ⟨a, ha, b, hb, hepoch, hparent⟩ := h
  have hne : a ≠ b := by
    rintro rfl
    exact hepoch rfl
  rw [isForked_iff_sublist]
  rcases sublist_or_sublist_of_ne ha hb hne with hsublist | hsublist
  · exact ⟨a, b, hsublist, hparent⟩
  · exact ⟨b, a, hsublist, hparent.symm⟩

theorem isForked_of_retransmits (h : Retransmits timeline) : isForked timeline = true := by
  obtain ⟨e, -, hname, hcount⟩ := h
  obtain ⟨parent, hname⟩ := Option.isSome_iff_exists.mp hname
  have hduplicate := List.duplicate_iff_two_le_count.mpr hcount
  rw [isForked_iff_sublist]
  exact ⟨e, e, List.duplicate_iff_sublist.mp hduplicate, parent, hname, hname⟩

/-- Each fork has one of the two causes. -/
theorem isForked_iff : isForked timeline = true ↔ HasSiblings timeline ∨ Retransmits timeline := by
  constructor
  · rw [isForked_iff_sublist]
    rintro ⟨a, b, hsublist, hparent⟩
    have ha : a ∈ timeline := hsublist.subset (by simp)
    have hb : b ∈ timeline := hsublist.subset (by simp)
    by_cases hepoch : a.epochId = b.epochId
    · right
      obtain rfl := hparent.eq_of_epochId hepoch
      obtain ⟨parent, hname, -⟩ := hparent
      refine ⟨a, ha, by simp [hname], ?_⟩
      exact List.duplicate_iff_two_le_count.mp (List.duplicate_iff_sublist.mpr hsublist)
    · left
      exact ⟨a, ha, b, hb, hepoch, hparent⟩
  · rintro (h | h)
    · exact isForked_of_hasSiblings h
    · exact isForked_of_retransmits h

theorem isForked_perm (h : timeline.Perm other) : isForked timeline = isForked other := by
  rw [Bool.eq_iff_iff, isForked_iff_not_nodup, isForked_iff_not_nodup,
    (h.filterMap fun e => e.parent).nodup_iff]

/-- Without repeated entries only two children make a fork. -/
theorem isForked_dedup : isForked timeline.dedup = true ↔ HasSiblings timeline := by
  rw [isForked_iff, hasSiblings_congr fun e => List.mem_dedup, or_iff_left]
  rintro ⟨e, -, -, hcount⟩
  have hle := List.nodup_iff_count_le_one.mp timeline.nodup_dedup e
  omega

theorem isForked_cons_of_mem {e : TimelineEntry} (h : e ∈ timeline) :
    isForked (e :: timeline) = (isForked timeline || e.parent.isSome) := by
  rw [Bool.eq_iff_iff, Bool.or_eq_true, isForked_iff_not_nodup, isForked_iff_not_nodup]
  cases hname : e.parent with
  | none => simp [hname]
  | some parent =>
    have hparent : parent ∈ timeline.filterMap (·.parent) := List.mem_filterMap.mpr ⟨e, h, hname⟩
    simp [hname, hparent]

/-- A timeline is forked exactly when a parent has two children or an entry with a parent is listed
again. So no two children are ever missed, the order does not matter, and once each entry stands
there only once nothing but two children makes a fork. Listing an entry again makes one unless the
entry has no parent. -/
theorem isForked_causes (timeline : List TimelineEntry) :
    (isForked timeline = true ↔ HasSiblings timeline ∨ Retransmits timeline) ∧
      (isForked timeline.dedup = true ↔ HasSiblings timeline) ∧
      (∀ other, timeline.Perm other → isForked timeline = isForked other) ∧
      ∀ e ∈ timeline, isForked (e :: timeline) = (isForked timeline || e.parent.isSome) := by
  refine ⟨isForked_iff, isForked_dedup, ?_, ?_⟩
  · intro other h
    exact isForked_perm h
  · intro e h
    exact isForked_cons_of_mem h

/-- Two children of one parent are found before and after their parent. -/
theorem twoChildren_isForked :
    isForked [⟨"e1", none⟩, ⟨"e2", some "e1"⟩, ⟨"e3", some "e1"⟩] = true ∧
      isForked [⟨"e3", some "e1"⟩, ⟨"e1", none⟩, ⟨"e2", some "e1"⟩] = true := by
  have hcauses := isForked_causes [⟨"e1", none⟩, ⟨"e2", some "e1"⟩, ⟨"e3", some "e1"⟩]
  have hforked : isForked [⟨"e1", none⟩, ⟨"e2", some "e1"⟩, ⟨"e3", some "e1"⟩] = true := by
    rw [hcauses.1]
    left
    exact ⟨⟨"e2", some "e1"⟩, by simp, ⟨"e3", some "e1"⟩, by simp, by decide, "e1", rfl, rfl⟩
  refine ⟨hforked, ?_⟩
  rw [← hcauses.2.2.1 _ (by decide), hforked]

/-- One child, listed twice under its parent. -/
def listedTwice : List TimelineEntry :=
  [⟨"e1", none⟩, ⟨"e2", some "e1"⟩, ⟨"e2", some "e1"⟩]

/-- A parent whose only child is listed again passes for forked. -/
theorem listedTwice_isForked :
    isForked listedTwice = true ∧ ¬ HasSiblings listedTwice ∧
      isForked listedTwice.dedup = false := by
  have hdedup : isForked listedTwice.dedup = false := by decide
  refine ⟨by decide, ?_, hdedup⟩
  rw [← isForked_dedup, hdedup]
  exact Bool.false_ne_true

end Conformance.Poisoning
