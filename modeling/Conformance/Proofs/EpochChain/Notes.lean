import Conformance.Proofs.EpochChain.Verdict
import Mathlib

/-!
# What is noted of corruptions

A corruption outside the vocabulary is noted by its kind at each node that it
reaches, and one whose target is no node is noted by its target. Between the two,
one corruption leaves no note: that for every node, where there is no node.
-/
namespace Conformance.EpochChain
open Conformance

/-- What is noted of a directive whose target is no node. -/
def Directive.astray (d : Directive) : String := "corruption targets unknown node " ++ d.target

/-- The two kinds of notes differ in their first letter. -/
theorem note_ne_note (kind target : String) :
    "unhandled corruption " ++ kind ≠ "corruption targets unknown node " ++ target := by
  intro h
  have hletters := congrArg String.toList h
  rw [String.toList_append, String.toList_append] at hletters
  simp at hletters

namespace Scenario
variable (s : Scenario)

/-- The directive names a node, but there is none of this name. -/
def Astray (d : Directive) : Prop :=
  d.target ≠ wildcard ∧ ∀ n ∈ s.nodes, d.target ≠ n.nodeId

theorem mem_unknownTargets_iff (target : String) :
    target ∈ s.unknownTargets ↔ ∃ d ∈ s.corruptions, s.Astray d ∧ target = d.target := by
  have hany : s.nodes.any (·.nodeId == target) = true ↔ ∃ n ∈ s.nodes, target = n.nodeId := by
    simp only [List.any_eq_true, beq_iff_eq, eq_comm (a := target)]
  rw [unknownTargets, List.mem_filter, List.mem_eraseDups, List.mem_map, decide_eq_true_eq, hany]
  constructor
  · rintro ⟨⟨d, hd, rfl⟩, hwildcard, hnode⟩
    exact ⟨d, hd, ⟨hwildcard, fun n hn hname => hnode ⟨n, hn, hname⟩⟩, rfl⟩
  · rintro ⟨d, hd, ⟨hwildcard, hnode⟩, rfl⟩
    exact ⟨⟨d, hd, rfl⟩, hwildcard, fun ⟨n, hn, hname⟩ => hnode n hn hname⟩

theorem mem_viewNotes_iff (note : String) :
    note ∈ s.viewNotes ↔ ∃ d ∈ s.corruptions, s.Astray d ∧ note = d.astray := by
  rw [viewNotes, List.mem_mergeSort, List.mem_map]
  simp only [mem_unknownTargets_iff]
  constructor
  · rintro ⟨_, ⟨d, hd, hastray, rfl⟩, rfl⟩
    exact ⟨d, hd, hastray, rfl⟩
  · rintro ⟨d, hd, hastray, rfl⟩
    exact ⟨_, ⟨d, hd, hastray, rfl⟩, rfl⟩

/-- Each note is one on a target that is no node, or one on a kind that reached a node. -/
theorem mem_simulate_notes_iff (note : String) : note ∈ s.simulate.notes ↔
    (∃ d ∈ s.corruptions, s.Astray d ∧ note = d.astray) ∨
      ∃ d ∈ s.corruptions, s.Reached d ∧ d.code? = none ∧ note = d.unhandled := by
  have hnotes : s.simulate.notes = s.viewNotes ++
      ((s.pushes.flatMap Push.corruptions).filter (·.code? = none)).map Directive.unhandled :=
    congrArg (s.viewNotes ++ ·) s.found_walk.notes
  rw [hnotes, List.mem_append, mem_viewNotes_iff, List.mem_map]
  simp only [List.mem_filter, mem_directives_iff, decide_eq_true_eq, and_assoc,
    eq_comm (b := note)]

theorem reached_or_astray_iff (d : Directive) :
    s.Reached d ∨ s.Astray d ↔ ¬ (d.target = wildcard ∧ s.nodes = []) := by
  by_cases hwildcard : d.target = wildcard
  · simp [Reached, Astray, hwildcard, List.eq_nil_iff_forall_not_mem]
  · by_cases hnode : ∃ n ∈ s.nodes, d.target = n.nodeId <;> simp_all [Reached, Astray]

/-- The notes tell of the directive, by its kind, or by its target if that is no node. -/
def Noted (d : Directive) : Prop :=
  d.unhandled ∈ s.simulate.notes ∨ s.Astray d ∧ d.astray ∈ s.simulate.notes

variable {s} {d : Directive}

theorem unhandled_mem_notes (hd : d ∈ s.corruptions) (hcode : d.code? = none)
    (hreached : s.Reached d) : d.unhandled ∈ s.simulate.notes :=
  (s.mem_simulate_notes_iff _).mpr (.inr ⟨d, hd, hreached, hcode, rfl⟩)

theorem astray_mem_notes (hd : d ∈ s.corruptions) (hastray : s.Astray d) :
    d.astray ∈ s.simulate.notes :=
  (s.mem_simulate_notes_iff _).mpr (.inl ⟨d, hd, hastray, rfl⟩)

/-- Where there is no node, no kind is noted. -/
theorem not_noted (hwildcard : d.target = wildcard) (hnodes : s.nodes = []) : ¬ s.Noted d := by
  rintro (hnote | ⟨hastray, -⟩)
  · rcases (s.mem_simulate_notes_iff _).mp hnote with ⟨other, -, -, heq⟩ | ⟨_, -, ⟨n, hn, -⟩, -⟩
    · exact note_ne_note _ _ heq
    · exact List.not_mem_nil (hnodes ▸ hn)
  · exact hastray.1 hwildcard

/-- Of each corruption outside the vocabulary the notes tell, by its kind if it reaches a node and by
its target if that is no node, unless it is for every node and there is none. Nothing else is
noted. -/
theorem unknown_kinds_noted (s : Scenario) :
    (∀ d ∈ s.corruptions, (∀ code, ¬ d.States code) →
      (s.Reached d → d.unhandled ∈ s.simulate.notes) ∧
      (s.Astray d → d.astray ∈ s.simulate.notes) ∧
      (s.Noted d ↔ ¬ (d.target = wildcard ∧ s.nodes = []))) ∧
    ∀ note ∈ s.simulate.notes, ∃ d ∈ s.corruptions,
      (s.Astray d ∧ note = d.astray) ∨
      (s.Reached d ∧ (∀ code, ¬ d.States code) ∧ note = d.unhandled) := by
  constructor
  · intro d hd hunknown
    have hcode := d.code?_eq_none_iff.mpr hunknown
    refine ⟨unhandled_mem_notes hd hcode, astray_mem_notes hd, ?_, fun hnode => ?_⟩
    · rintro hnoted ⟨hwildcard, hnodes⟩
      exact not_noted hwildcard hnodes hnoted
    · rcases (s.reached_or_astray_iff d).mpr hnode with hreached | hastray
      · exact .inl (unhandled_mem_notes hd hcode hreached)
      · exact .inr ⟨hastray, astray_mem_notes hd hastray⟩
  · intro note hnote
    rcases (s.mem_simulate_notes_iff note).mp hnote with
      ⟨d, hd, hastray, heq⟩ | ⟨d, hd, hreached, hcode, heq⟩
    · exact ⟨d, hd, .inl ⟨hastray, heq⟩⟩
    · exact ⟨d, hd, .inr ⟨hreached, d.code?_eq_none_iff.mp hcode, heq⟩⟩

namespace UnknownKind

theorem not_states (targetNode : Option String) (code : Code) :
    ¬ (Directive.plain "Mystery" targetNode).States code := by
  have hupper : (Directive.plain "Mystery" targetNode).kind.toUpper = "MYSTERY" := by cbv
  rw [Directive.states_iff, hupper]
  cases code <;> decide

/-- One corruption of an unknown kind for every node, and no node. -/
def scenario : Scenario := .plain [] [.plain "Mystery" none]

end UnknownKind
open UnknownKind

/-- The corruption is outside the vocabulary, and nothing is noted of it. -/
theorem unknown_kind_without_nodes_not_noted :
    scenario.simulate.notes = [] ∧
    ¬ ∀ (s : Scenario), ∀ d ∈ s.corruptions, (∀ code, ¬ d.States code) → s.Noted d := by
  have hnotes : scenario.simulate.notes = [] := by cbv
  refine ⟨hnotes, fun hall => ?_⟩
  rcases hall scenario _ (List.mem_singleton_self _) (not_states none) with hnote | ⟨hastray, -⟩
  · rw [hnotes] at hnote
    exact List.not_mem_nil hnote
  · exact hastray.1 rfl

/-- With one node, a corruption of it is noted by its kind and one of another node by its target. -/
theorem unknown_kinds_noted_beside_one_node :
    let toAll := Directive.plain "Mystery" none
    let toOther := Directive.plain "Mystery" (some "n9")
    let s := Scenario.plain [.plain "n1" 1 "h1" "h0"] [toAll, toOther]
    (∀ code, ¬ toAll.States code) ∧ toAll.unhandled ∈ s.simulate.notes ∧
    (∀ code, ¬ toOther.States code) ∧ toOther.astray ∈ s.simulate.notes ∧ s.Noted toOther := by
  intro toAll toOther s
  obtain ⟨hunknown, -⟩ := unknown_kinds_noted s
  have hreached : s.Reached toAll := by decide
  have hastray : s.Astray toOther := by
    refine ⟨by decide, fun n hn => ?_⟩
    rw [List.mem_singleton.mp hn]
    decide
  obtain ⟨hall, -, -⟩ := hunknown toAll (by simp [s, Scenario.plain]) (not_states none)
  obtain ⟨-, hother, hnoted⟩ := hunknown toOther (by simp [s, Scenario.plain]) (not_states _)
  exact ⟨not_states none, hall hreached, not_states _, hother hastray,
    hnoted.mpr fun h => hastray.1 h.1⟩

end Scenario
end Conformance.EpochChain
