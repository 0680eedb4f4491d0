import Conformance.Proofs.Runner

/-!
# Names within a corpus

Scenarios are named by the label of their section, two colons and their own name. No
label holds a colon, so the first colon ends the label, whatever the name is. Hence
two scenarios of a corpus have one identifier exactly if they are of one section and
have one name there, and only such a repetition ends a run.
-/
namespace Conformance.Poisoning
open Conformance

/-- The sections of a corpus. -/
inductive Section
  | replayAttacks
  | windowBoundaries
  | injections
  | forks
  | epochRecords
  | rules
  | storms
  deriving DecidableEq

namespace Section

/-- The order in which sections are reported. -/
def all : List Section :=
  [.replayAttacks, .windowBoundaries, .injections, .forks, .epochRecords, .rules, .storms]

def label : Section → String
  | .replayAttacks => "replay_attack"
  | .windowBoundaries => "replay_window"
  | .injections => "poisoning"
  | .forks => "epoch_fork"
  | .epochRecords => "eare"
  | .rules => "anti_poisoning"
  | .storms => "replay_storm"

theorem mem_all (x : Section) : x ∈ all := by
  cases x <;> decide

theorem label_injective : Function.Injective label := by
  intro x y h
  cases x <;> cases y <;> first | rfl | exact absurd h (by decide)

theorem colon_not_mem_label (x : Section) : ':' ∉ x.label.toList := by
  cases x <;> decide

/-- The identifier is read up to its first colon. -/
theorem takeWhile_scenarioId (x : Section) (name : String) :
    (scenarioId x.label name).toList.takeWhile (· ≠ ':') = x.label.toList := by
  have hlabel : ∀ c ∈ x.label.toList, decide (c ≠ ':') = true := by
    intro c hc
    rw [decide_eq_true_eq]
    exact ne_of_mem_of_not_mem hc x.colon_not_mem_label
  rw [scenarioId, String.toList_append, String.toList_append, List.append_assoc,
    List.takeWhile_append_of_pos hlabel]
  simp

theorem scenarioId_inj {x y : Section} {m n : String} :
    scenarioId x.label m = scenarioId y.label n ↔ x = y ∧ m = n := by
  constructor
  · intro h
    have hlabel : x.label = y.label := by
      apply String.toList_inj.mp
      rw [← takeWhile_scenarioId x m, ← takeWhile_scenarioId y n, h]
    obtain rfl := label_injective hlabel
    have hname := congrArg String.toList h
    simp only [scenarioId, String.toList_append, List.append_cancel_left_eq] at hname
    exact ⟨rfl, String.toList_inj.mp hname⟩
  · rintro ⟨rfl, rfl⟩
    rfl

end Section

namespace Sections

variable (s : Sections)

/-- The names of the cases of a section, in their order. -/
def names : Section → List String
  | .replayAttacks => s.replayAttacks.cases.map ReplayCase.name
  | .windowBoundaries => s.windowBoundaries.cases.map ReplayCase.name
  | .injections => s.injections.map Attack.name
  | .forks => s.forks.map ForkCase.name
  | .epochRecords => s.epochRecords.map EpochRecord.recordId
  | .rules => s.rules.map Rule.ruleId
  | .storms => s.storms.cases.map StormCase.profileId

theorem map_name_cases : s.cases.map Case.name =
    Section.all.flatMap fun x => (s.names x).map (scenarioId x.label) := by
  simp [cases, names, Section.all, Section.label, Function.comp_def, Case.name]

theorem mem_map_name_cases {id : String} (h : id ∈ s.cases.map Case.name) :
    ∃ (x : Section) (name : String), id = scenarioId x.label name := by
  rw [map_name_cases, List.mem_flatMap] at h
  obtain ⟨x, -, hid⟩ := h
  obtain ⟨name, -, rfl⟩ := List.mem_map.mp hid
  exact ⟨x, name, rfl⟩

theorem count_names (x y : Section) (name : String) :
    ((s.names y).map (scenarioId y.label)).count (scenarioId x.label name) =
      if y = x then (s.names x).count name else 0 := by
  by_cases h : y = x
  · subst h
    rw [if_pos rfl]
    apply List.count_map_of_injective
    exact fun m n heq => (Section.scenarioId_inj.mp heq).2
  · rw [if_neg h, List.count_eq_zero, List.mem_map]
    rintro ⟨other, -, heq⟩
    exact h (Section.scenarioId_inj.mp heq).1

/-- An identifier occurs in a corpus as often as the name occurs in its section. -/
theorem count_map_name_cases (x : Section) (name : String) :
    (s.cases.map Case.name).count (scenarioId x.label name) = (s.names x).count name := by
  rw [map_name_cases, List.count_flatMap]
  simp only [Function.comp_def, count_names]
  cases x <;> simp [Section.all]

theorem nodup_map_name_cases_iff :
    (s.cases.map Case.name).Nodup ↔ ∀ x, (s.names x).Nodup := by
  simp only [List.nodup_iff_count_le_one]
  constructor
  · intro h x name
    rw [← count_map_name_cases]
    exact h _
  · intro h id
    by_cases hid : id ∈ s.cases.map Case.name
    · obtain ⟨x, name, rfl⟩ := s.mem_map_name_cases hid
      rw [count_map_name_cases]
      exact h x name
    · rw [List.count_eq_zero_of_not_mem hid]
      exact zero_le_one

theorem map_scenarioId_reports : s.reports.map Report.scenarioId = s.cases.map Case.name := by
  rw [reports_eq, List.map_map]
  exact List.map_congr_left fun k _ => (s.isOf_report k).scenarioId_eq

theorem run_of_nodup (h : ∀ x, (s.names x).Nodup) :
    s.run = .ok ((Summary.own "replay_poisoning").extended s.reports) := by
  apply (Summary.recordAll_new_eq_ok_iff _ _ _ _).mpr
  refine ⟨?_, rfl⟩
  rw [map_scenarioId_reports, nodup_map_name_cases_iff]
  exact h

/-- A run is refused for a name that is repeated within its section. -/
theorem exists_of_run_eq_error {fault : Fault} (h : s.run = .error fault) :
    ∃ (x : Section) (name : String), 1 < (s.names x).count name ∧
      fault = Summary.duplicate (scenarioId x.label name) := by
  obtain ⟨earlier, r, later, hreports, -, hold, rfl⟩ :=
    (Summary.own "replay_poisoning").exists_of_recordAll_eq_error h
  have hid : r.scenarioId ∈ s.cases.map Case.name := by
    rw [← map_scenarioId_reports, hreports]
    simp
  obtain ⟨x, name, hname⟩ := s.mem_map_name_cases hid
  refine ⟨x, name, ?_, congrArg _ hname⟩
  have hheld := ((Summary.own "replay_poisoning").holds_extended_iff _ _).mp hold
  obtain ⟨t, ht, heq⟩ := hheld.resolve_left (Summary.not_holds_new _ _ _)
  have hbefore : 0 < (earlier.map Report.scenarioId).count r.scenarioId :=
    List.count_pos_iff.mpr (heq ▸ List.mem_map_of_mem ht)
  rw [← count_map_name_cases, ← hname, ← map_scenarioId_reports, hreports, List.map_append,
    List.count_append, List.map_cons, List.count_cons_self]
  omega

/-- A run is refused exactly if a name is repeated within a section, and for such a name. Scenarios
of different sections never share an identifier, whatever their names are, and a run that is not
refused reports every case, section by section. -/
theorem run_section_by_section (s : Sections) :
    ((∃ fault, s.run = .error fault) ↔ ∃ x name, 1 < (s.names x).count name) ∧
    (∀ fault, s.run = .error fault → fault.kind = .corpus ∧
      ∃ (x : Section) (name : String), 1 < (s.names x).count name ∧
        fault = Summary.duplicate (scenarioId x.label name)) ∧
    (∀ (x y : Section) (m n : String),
      scenarioId x.label m = scenarioId y.label n ↔ x = y ∧ m = n) ∧
    ((∀ x, (s.names x).Nodup) → ∃ summary, s.run = .ok summary ∧
      summary.scenarios = s.cases.map s.report ∧
      summary.scenarios.map Report.scenarioId =
        Section.all.flatMap (fun x => (s.names x).map (scenarioId x.label)) ∧
      summary.scenarios.length = Sections.corpus.scenarioCount s ∧
      summary.scenarioCount = Sections.corpus.scenarioCount s) := by
  refine ⟨⟨?_, ?_⟩, fun fault hfault => ?_, fun x y m n => Section.scenarioId_inj, fun h => ?_⟩
  · rintro ⟨fault, hfault⟩
    obtain ⟨x, name, hrepeated, -⟩ := s.exists_of_run_eq_error hfault
    exact ⟨x, name, hrepeated⟩
  · rintro ⟨x, name, hrepeated⟩
    cases hrun : s.run with
    | error fault => exact ⟨fault, rfl⟩
    | ok summary =>
      have hnodup := ((Summary.recordAll_new_eq_ok_iff _ _ _ _).mp hrun).1
      rw [map_scenarioId_reports, nodup_map_name_cases_iff] at hnodup
      have hcount := List.nodup_iff_count_le_one.mp (hnodup x) name
      omega
  · obtain ⟨x, name, hrepeated, rfl⟩ := s.exists_of_run_eq_error hfault
    exact ⟨rfl, x, name, hrepeated, rfl⟩
  · have hscenarios : ((Summary.own "replay_poisoning").extended s.reports).scenarios = s.reports :=
      rfl
    have hcount : s.reports.length = Sections.corpus.scenarioCount s := by
      rw [reports_eq, List.length_map]
      exact s.count_eq.symm
    refine ⟨_, s.run_of_nodup h, s.reports_eq, ?_, hcount, ?_⟩
    · rw [hscenarios, map_scenarioId_reports, map_name_cases]
    · rw [← hcount]
      exact Nat.zero_add _

/-- Cases whose names are alike, or look like those of another section. -/
def lookalikes (attacks : List ReplayCase) : Sections where
  replayAttacks := ⟨5, attacks⟩
  windowBoundaries := ⟨5, [⟨"edge", [1], false, none⟩]⟩
  injections := [⟨"anti_poisoning::edge", [], ""⟩, ⟨"", [], ""⟩]
  forks := [⟨"poisoning::edge", false, []⟩]
  epochRecords := [⟨"::edge", [], [], none, none, true⟩]
  rules := [⟨"edge", ⟨none, false, false⟩, [], true⟩]
  storms := .none

theorem run_lookalikes :
    (∃ summary, (lookalikes [⟨"edge", [1], false, none⟩]).run = .ok summary ∧
      summary.scenarioCount = 7 ∧
      summary.scenarios.map Report.scenarioId =
        ["replay_attack::edge", "replay_window::edge", "poisoning::anti_poisoning::edge",
          "poisoning::", "epoch_fork::poisoning::edge", "eare::::edge",
          "anti_poisoning::edge"]) ∧
    ∃ fault, (lookalikes [⟨"edge", [1], false, none⟩, ⟨"edge", [1, 1], true, none⟩]).run =
      .error fault ∧ fault.kind = .corpus := by
  constructor
  · have hnodup : ∀ x, ((lookalikes [⟨"edge", [1], false, none⟩]).names x).Nodup := by
      intro x
      cases x <;> decide
    obtain ⟨summary, hrun, -, hids, -, hcount⟩ := (run_section_by_section _).2.2.2 hnodup
    exact ⟨summary, hrun, hcount, hids⟩
  · obtain ⟨hrefused, hfault, -, -⟩ := run_section_by_section
      (lookalikes [⟨"edge", [1], false, none⟩, ⟨"edge", [1, 1], true, none⟩])
    obtain ⟨fault, hrun⟩ := hrefused.mpr ⟨.replayAttacks, "edge", by decide⟩
    exact ⟨fault, hrun, (hfault fault hrun).1⟩

end Sections
end Conformance.Poisoning
