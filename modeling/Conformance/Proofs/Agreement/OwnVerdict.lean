import Conformance.Proofs.Bytes
import Conformance.Proofs.CommandLine
import Conformance.Proofs.Message.Vectors
import Conformance.Proofs.Sequencing

/-!
# The verdict on messages as it is judged

This implementation is a target like the others: it is judged by what a run of
messages prints. The last line tells the verdict, but the lines before it carry
names and fields of the corpus, where a marker counts just as well.
-/
namespace Conformance

section
variable {α : Type} {part : List α}

theorem prefix_append_cons_iff {sep : α} (hsep : sep ∉ part) (before after : List α) :
    part <+: before ++ sep :: after ↔ part <+: before := by
  constructor
  · rintro ⟨right, h⟩
    rcases List.append_eq_append_iff.mp h with ⟨rest, rfl, -⟩ | ⟨rest, rfl, hrest⟩
    · exact List.prefix_append _ _
    · cases rest with
      | nil => rw [List.append_nil]
      | cons c rest =>
        obtain rfl := (List.cons.inj hrest).1
        simp at hsep
  · exact fun h => h.trans (List.prefix_append _ _)

/-- A text is searched on both sides of an element that is not in what is searched for. -/
theorem infix_append_cons_iff {sep : α} (hsep : sep ∉ part) (before after : List α) :
    part <:+: before ++ sep :: after ↔ part <:+: before ∨ part <:+: after := by
  induction before with
  | nil =>
    rw [List.nil_append, List.infix_cons_iff, ← List.nil_append (sep :: after),
      prefix_append_cons_iff hsep, List.prefix_nil, List.infix_nil]
  | cons c before ih =>
    rw [List.cons_append, List.infix_cons_iff, ih, ← List.cons_append,
      prefix_append_cons_iff hsep, List.infix_cons_iff, or_assoc]

/-- A beginning where what is searched for cannot start is passed over. -/
theorem infix_append_iff_of_not_mem {c : α} {pre : List α} (hc : c ∉ pre) (l : List α) :
    c :: part <:+: pre ++ l ↔ c :: part <:+: l := by
  induction pre with
  | nil => rfl
  | cons d pre ih =>
    obtain ⟨hd, hpre⟩ := not_or.mp (mt List.mem_cons.mpr hc)
    rw [List.cons_append, List.infix_cons_iff, ih hpre, or_iff_right]
    exact fun h => hd (List.cons_prefix_cons.mp h).1

end

namespace Agreement
open CommandLine

theorem occursIn_iff (part l : List Char) : occursIn part l = true ↔ part <:+: l := by
  induction l with
  | nil => rw [occursIn, List.isEmpty_iff, List.infix_nil]
  | cons c l ih =>
    rw [occursIn, Bool.or_eq_true, List.isPrefixOf_iff_prefix, ih, List.infix_cons_iff]

theorem holdsMarker_singleton_iff (marker text : String) :
    holdsMarker [marker] text = true ↔ marker.toList <:+: text.toList := by
  rw [holdsMarker, List.any_cons, List.any_nil, Bool.or_false, occursIn_iff]

/-- What this implementation says where all scenarios of a run passed. -/
def ownMarker : String := "scenarios passed"

/-- The marker of this implementation stands somewhere in the text. -/
def Marked (text : String) : Prop := ownMarker.toList <:+: text.toList

theorem markers_own {t : Target} (ht : t ∈ defaultTargets)
    (hown : t.language = Summary.ownLanguage) : t.markers = [ownMarker] := by
  revert t
  decide

theorem marked_append_iff {pre text : String} (h : 's' ∉ pre.toList) :
    Marked (pre ++ text) ↔ Marked text := by
  rw [Marked, String.toList_append]
  exact infix_append_iff_of_not_mem h _

/-- No marker reaches across the text: its first character is in none, and none starts after it. -/
structure Separates (sep : String) (c : Char) (rest : List Char) : Prop where
  toList_eq : sep.toList = c :: rest
  not_mem : c ∉ ownMarker.toList
  not_mem_rest : 's' ∉ rest

theorem Separates.marked_iff {sep : String} {c : Char} {rest : List Char}
    (h : Separates sep c rest) (before after : String) :
    Marked (before ++ sep ++ after) ↔ Marked before ∨ Marked after := by
  rw [Marked, String.toList_append, String.toList_append, h.toList_eq, List.append_assoc,
    List.cons_append, infix_append_cons_iff h.not_mem]
  exact or_congr_right (infix_append_iff_of_not_mem h.not_mem_rest _)

theorem separates_newline : Separates "\n" '\n' [] := ⟨rfl, by decide, by decide⟩

theorem separates_colon : Separates ": " ':' [' '] := ⟨rfl, by decide, by decide⟩

theorem separates_semicolon : Separates "; " ';' [' '] := ⟨rfl, by decide, by decide⟩

theorem not_marked_empty : ¬ Marked "" := by
  rw [Marked]
  decide

theorem marked_printed_iff (o : CommandLine.Outcome) :
    Marked o.printed ↔ ∃ line ∈ o.lines, Marked line := by
  unfold Outcome.printed
  induction o.lines with
  | nil => simpa using not_marked_empty
  | cons line rest ih =>
    rw [List.map_cons, String.join_cons, separates_newline.marked_iff, ih,
      List.exists_mem_cons_iff]

theorem marked_intercalate_iff (failures : List String) :
    Marked (String.intercalate "; " failures) ↔ ∃ failure ∈ failures, Marked failure := by
  induction failures with
  | nil => simpa using not_marked_empty
  | cons failure rest ih =>
    cases rest with
    | nil => simp
    | cons next rest =>
      rw [String.intercalate_cons_cons, separates_semicolon.marked_iff, ih,
        List.exists_mem_cons_iff (a := failure)]

theorem marked_scenarioLine_iff {r : Report} {scenarioId : String} (h : r.IsOf scenarioId) :
    Marked (scenarioLine r) ↔ Marked r.scenarioId ∨ ∃ failure ∈ r.failures, Marked failure := by
  unfold scenarioLine
  cases hstatus : r.status with
  | pass =>
    have hfailures : r.failures = [] := by
      by_contra hne
      cases hstatus.symm.trans (h.status_eq_fail_iff.mpr hne)
    rw [Report.passed, hstatus, if_pos (by decide), marked_append_iff (by decide), hfailures]
    simp
  | fail =>
    rw [Report.passed, hstatus, if_neg (by decide), separates_colon.marked_iff,
      marked_append_iff (by decide), marked_intercalate_iff]

theorem not_mem_digits (n : ℕ) : 's' ∉ (toString n).toList := by
  intro h
  rw [Nat.toString_eq_repr, Nat.toList_repr] at h
  cases Nat.isDigit_of_mem_toDigits (by decide) (by decide) h

/-- The verdict on messages holds the marker if it is that all of them passed. -/
theorem marked_verdictLine_iff {s : Summary} (hsuite : s.suite = "schema") :
    Marked (verdictLine s) ↔ s.allPassed = true := by
  have hpassed : Marked ("All " ++ toString s.scenarioCount ++ " scenarios passed (" ++ "schema"
      ++ ")") :=
    ⟨("All " ++ toString s.scenarioCount ++ " ").toList, " (schema)".toList, by simp [ownMarker]⟩
  have hfailed : ¬ Marked (toString s.failed ++ " of " ++ toString s.scenarioCount
      ++ " scenarios failed (" ++ "schema" ++ ")") := by
    simp only [String.append_assoc]
    rw [marked_append_iff (not_mem_digits _), marked_append_iff (by decide),
      marked_append_iff (not_mem_digits _), Marked]
    decide
  unfold verdictLine
  rw [hsuite]
  split
  · exact iff_of_true hpassed ‹_›
  · exact iff_of_false hfailed ‹_›

theorem marked_missing_iff (field : String) :
    Marked ("missing expected violation on field " ++ field) ↔ Marked field := by
  have hsep : Separates "ld " 'l' ['d', ' '] := ⟨rfl, by decide, by decide⟩
  have hsplit : "missing expected violation on field " =
      "missing expected violation on fie" ++ "ld " := by
    decide
  rw [hsplit, hsep.marked_iff, or_iff_right]
  rw [Marked]
  decide

theorem not_marked_expected (expected actual : Bool) :
    ¬ Marked s!"expected {Message.verdictName expected}, got {Message.verdictName actual}" := by
  rw [Marked]
  cases expected <;> cases actual <;> decide

/-- No declared field holds the marker, so that an expected one that does has no violation. -/
theorem not_marked_field {kind : Message.Kind} {field : Message.Field} (h : field ∈ kind.fields) :
    ¬ Marked field.name := by
  have hall : ∀ f ∈ kind.fields, ' ' ∉ f.name.toList := by
    cases kind <;> decide
  exact fun hmarked => hall field h (hmarked.subset (by decide))

theorem marked_failures_iff (name : String) (v : Message.Vector) :
    (∃ failure ∈ (v.report name).failures, Marked failure) ↔
      ∃ field ∈ v.expectedErrorFields, Marked field := by
  constructor
  · rintro ⟨failure, hfailure, hmarked⟩
    rcases (v.mem_failures_iff name failure).mp hfailure with ⟨-, rfl⟩ | ⟨field, hfield, -, rfl⟩
    · exact absurd hmarked (not_marked_expected _ _)
    · exact ⟨field, hfield, (marked_missing_iff field).mp hmarked⟩
  · rintro ⟨field, hfield, hmarked⟩
    refine ⟨_, (v.mem_failures_iff name _).mpr (.inr ⟨field, hfield, ?_, rfl⟩),
      (marked_missing_iff field).mpr hmarked⟩
    rw [List.any_eq_false]
    intro violation hviolation hflagged
    obtain ⟨kind, declared, hdeclared, rfl⟩ := v.exists_field hviolation (beq_iff_eq.mp hflagged)
    exact not_marked_field hdeclared hmarked

end Agreement

theorem Corpus.scenarioCount_ne_zero {α : Type} {kind : Corpus α} {text : String} {c : α}
    (h : kind.parse text = .ok c) : kind.scenarioCount c ≠ 0 := by
  unfold Corpus.parse at h
  split at h
  · cases h
  · split at h
    · cases h
    · split at h
      · cases h
      · cases h
        assumption

namespace CommandLine
open Files

variable {σ : Type} (disk : Disk (StateM σ))

/-- The command line asks for a run of messages, and the vectors are those of the corpus that is
found. -/
def RunsMessages (env : Environment) (arguments : List String) (s : σ)
    (vectors : Message.VectorSet) : Prop :=
  ∃ request path text, Request.of? env arguments = some request ∧
    request.command = .suite .schema path ∧
    Files.text ((disk.look (path.getD Suite.schema.defaultPath)).run s).1 = .ok text ∧
    Message.VectorSet.corpus.parse text = .ok vectors

/-- What a command line leaves behind, where the disk is in some state before. -/
def outcome (launch : Agreement.Launcher (StateM σ)) (env : Environment) (arguments : List String)
    (s : σ) : Outcome :=
  ((runWith disk launch env arguments).run s).1

variable {disk} {launch : Agreement.Launcher (StateM σ)} {env : Environment}
  {arguments : List String} {s : σ} {vectors : Message.VectorSet}

theorem RunsMessages.exists_summary (h : RunsMessages disk env arguments s vectors) :
    ∃ summary, vectors.run = .ok summary ∧ summary.suite = "schema" ∧
      summary.scenarios = vectors.map (fun case => case.2.report case.1) ∧
      (summary.allPassed = true ↔ ∀ r ∈ summary.scenarios, r.status = .pass) := by
  obtain ⟨request, path, text, -, -, -, hparse⟩ := h
  have hrun := (Message.VectorSet.inOrder_of_parse hparse).run_eq
  have hnodup := ((Summary.recordAll_new_eq_ok_iff _ _ _ _).mp hrun).1
  refine ⟨_, hrun, rfl, rfl, ?_⟩
  rw [Summary.own, Summary.allPassed_extended_new_iff _ _ hnodup]
  have hne : vectors.map (fun case => case.2.report case.1) ≠ [] := by
    rw [Ne, List.map_eq_nil_iff]
    exact fun hnil => Corpus.scenarioCount_ne_zero hparse (congrArg List.length hnil)
  exact and_iff_right hne

theorem RunsMessages.outcome_cases (h : RunsMessages disk env arguments s vectors)
    {summary : Summary} (hrun : vectors.run = .ok summary) :
    (∃ reason, outcome disk launch env arguments s =
      .failed (summary.scenarios.map scenarioLine) reason) ∨
    outcome disk launch env arguments s = ⟨exitCode summary.allPassed,
      summary.scenarios.map scenarioLine ++ [verdictLine summary], none⟩ := by
  obtain ⟨request, path, text, hrequest, hcommand, hread, hparse⟩ := h
  have hsummary : Suite.schema.summary (path.getD Suite.schema.defaultPath)
      ((disk.look (path.getD Suite.schema.defaultPath)).run s).1 = .ok summary := by
    simp only [Suite.summary, hread, Suite.run, runCorpus, hparse, hrun]
  have houtcome : outcome disk launch env arguments s =
      ((runSuite disk request .schema path).run s).1 := by
    rw [outcome, runWith, hrequest]
    simp only [Request.run, hcommand]
  rw [houtcome]
  exact runSuite_cases disk request .schema path s hsummary

theorem RunsMessages.exitCode_eq_zero_iff (h : RunsMessages disk env arguments s vectors)
    {summary : Summary} (hrun : vectors.run = .ok summary) :
    (outcome disk launch env arguments s).exitCode = 0 ↔
      (outcome disk launch env arguments s).error = none ∧ summary.allPassed = true := by
  rcases h.outcome_cases hrun with ⟨reason, houtcome⟩ | houtcome
  · rw [houtcome]
    simp [Outcome.failed]
  · rw [houtcome]
    simp [exitCode]

end CommandLine

namespace Agreement
open CommandLine Files

/-- The verdict on a target that printed the lines of an outcome and ended with its exit code. -/
def judged (t : Target) (o : CommandLine.Outcome) : Outcome :=
  classify t.language t.markers (.exited o.exitCode) o.printed

/-- A marker of the target stands in the name of a message or in one of its expected fields. -/
def Target.EchoedBy (t : Target) (vectors : Message.VectorSet) : Prop :=
  ∃ case ∈ vectors, holdsMarker t.markers case.1 = true ∨
    ∃ field ∈ case.2.expectedErrorFields, holdsMarker t.markers field = true

theorem exited_errors_eq_nil_iff (code : ℕ) : (Ending.exited code).errors = [] ↔ code = 0 := by
  simp [Ending.errors]

theorem classify_errors_eq_nil_iff (language : String) (markers : List String) (ending : Ending)
    (output : String) : (classify language markers ending output).errors = [] ↔
      (classify language markers ending output).success = true ∧ ending.errors = [] := by
  rw [classify]
  cases holdsMarker markers output <;> simp

section
variable {σ : Type} {disk : Disk (StateM σ)} {launch : Launcher (StateM σ)} {env : Environment}
  {arguments : List String} {s : σ} {vectors : Message.VectorSet} {t : Target}

theorem marked_outcome_iff (h : RunsMessages disk env arguments s vectors) {summary : Summary}
    (hrun : vectors.run = .ok summary) (hsuite : summary.suite = "schema") :
    Marked (outcome disk launch env arguments s).printed ↔
      ((outcome disk launch env arguments s).error = none ∧ summary.allPassed = true) ∨
        ∃ line ∈ summary.scenarios.map scenarioLine, Marked line := by
  rw [marked_printed_iff]
  rcases h.outcome_cases hrun with ⟨reason, houtcome⟩ | houtcome
  · rw [houtcome]
    simp [CommandLine.Outcome.failed]
  · rw [houtcome]
    simp only [List.mem_append, List.mem_singleton, or_and_right, exists_or, exists_eq_left,
      marked_verdictLine_iff hsuite, true_and]
    exact or_comm

theorem marked_lines_iff (ht : t ∈ defaultTargets) (hown : t.language = Summary.ownLanguage) :
    (∃ line ∈ (vectors.map fun case => case.2.report case.1).map scenarioLine, Marked line) ↔
      t.EchoedBy vectors := by
  simp only [List.map_map, List.mem_map, exists_exists_and_eq_and, Function.comp_apply,
    Target.EchoedBy, markers_own ht hown, holdsMarker_singleton_iff]
  refine exists_congr fun case => and_congr_right' ?_
  have hreport := Message.isOf_report case.1 case.2
  rw [marked_scenarioLine_iff hreport, hreport.scenarioId_eq, marked_failures_iff]
  rfl

end

/-- This implementation is judged a success exactly if all messages passed and the summary could be
saved, or the corpus makes it print its marker. In the first case alone it has no errors. -/
theorem judged_success_iff {σ : Type} (disk : Disk (StateM σ)) (launch : Launcher (StateM σ))
    (env : Environment) (arguments : List String) (s : σ) {vectors : Message.VectorSet}
    (h : RunsMessages disk env arguments s vectors) {t : Target} (ht : t ∈ defaultTargets)
    (hown : t.language = Summary.ownLanguage) :
    ∃ summary, vectors.run = .ok summary ∧
      ((judged t (outcome disk launch env arguments s)).success = true ↔
        ((outcome disk launch env arguments s).error = none ∧
          ∀ r ∈ summary.scenarios, r.status = .pass) ∨ t.EchoedBy vectors) ∧
      ((judged t (outcome disk launch env arguments s)).errors = [] ↔
        (outcome disk launch env arguments s).error = none ∧
          ∀ r ∈ summary.scenarios, r.status = .pass) := by
  obtain ⟨summary, hrun, hsuite, hscenarios, hpassed⟩ := h.exists_summary
  have hsuccess : (judged t (outcome disk launch env arguments s)).success = true ↔
      ((outcome disk launch env arguments s).error = none ∧ summary.allPassed = true) ∨
        t.EchoedBy vectors := by
    rw [← marked_lines_iff ht hown, ← hscenarios, ← marked_outcome_iff h hrun hsuite, judged,
      markers_own ht hown]
    exact holdsMarker_singleton_iff _ _
  refine ⟨summary, hrun, ?_, ?_⟩
  · rw [hsuccess, hpassed]
  · rw [judged, classify_errors_eq_nil_iff, ← judged, hsuccess, exited_errors_eq_nil_iff,
      h.exitCode_eq_zero_iff hrun, hpassed]
    exact and_iff_right_of_imp .inl

/-- A disk on which every path leads to one text, and which takes all that is written. -/
def shelf (text : String) : Disk (StateM Unit) where
  look _ := return .ok (.file (Bytes.ofString text))
  makeDirectory _ := return .ok ()
  write _ _ := return .ok ()

/-- A corpus of one message, which is invalid where a valid one is expected. -/
def oneInvalid (name : String) : String :=
  "\x7b\"" ++ name ++ "\":[0,null]\x7d"

def unset : Environment := ⟨none, none⟩

def idle : Launcher (StateM Unit) := fun _ _ => return .timedOut

theorem runsMessages_shelf {text : String} {vectors : Message.VectorSet}
    (h : Message.VectorSet.corpus.parse text = .ok vectors) :
    RunsMessages (shelf text) unset ["schema"] () vectors := by
  have hrequest : Request.of? unset ["schema"] = some ⟨"results", "rust", .suite .schema none⟩ := by
    cbv
  refine ⟨_, none, text, hrequest, rfl, ?_, h⟩
  change Files.text (.ok (.file (Bytes.ofString text))) = .ok text
  rw [Files.text, Text.Utf8.decode_ofString]

/-- The cases of the vectors with the fields that they expect, and how their reports end. -/
def contents (vectors : Message.VectorSet) : List (String × List String) × Option (List Status) :=
  (vectors.map fun case => (case.1, case.2.expectedErrorFields),
    vectors.run.toOption.map fun summary => summary.scenarios.map Report.status)

theorem exists_failing_run (name : String)
    (h : (Message.VectorSet.corpus.parse (oneInvalid name)).toOption.map contents =
      some ([(name, [])], some [.fail])) :
    ∃ vectors summary, RunsMessages (shelf (oneInvalid name)) unset ["schema"] () vectors ∧
      vectors.run = .ok summary ∧ vectors.map (fun case => (case.1, case.2.expectedErrorFields)) =
        [(name, [])] ∧ ∃ r ∈ summary.scenarios, r.status = .fail := by
  obtain ⟨vectors, hparse, hvectors⟩ := exists_ok_of_map_eq_some h
  obtain ⟨hcases, hstatus⟩ := Prod.mk.inj hvectors
  obtain ⟨summary, hrun, hfail⟩ := exists_ok_of_map_eq_some hstatus
  have hmem : Status.fail ∈ summary.scenarios.map Report.status := by
    rw [hfail]
    exact List.mem_singleton_self _
  exact ⟨vectors, summary, runsMessages_shelf hparse, hrun, hcases, List.mem_map.mp hmem⟩

/-- A failing message of an ordinary name is judged to fail. -/
theorem oneInvalid_judged_failure :
    ∃ vectors, RunsMessages (shelf (oneInvalid "a")) unset ["schema"] () vectors ∧
      ∃ t ∈ defaultTargets, t.language = Summary.ownLanguage ∧
        (judged t (outcome (shelf (oneInvalid "a")) idle unset ["schema"] ())).success = false := by
  obtain ⟨vectors, summary, hruns, hrun, hcases, r, hr, hfail⟩ :=
    exists_failing_run "a" (by decide +kernel)
  obtain ⟨t, ht, hown⟩ : ∃ t ∈ defaultTargets, t.language = Summary.ownLanguage := by
    decide
  refine ⟨vectors, hruns, t, ht, hown, ?_⟩
  obtain ⟨other, hother, hsuccess, -⟩ := judged_success_iff _ idle _ _ _ hruns ht hown
  obtain rfl := Except.ok.inj (hrun.symm.trans hother)
  rw [Bool.eq_false_iff, Ne, hsuccess]
  rintro (⟨-, hpass⟩ | ⟨case, hcase, hechoed⟩)
  · cases hfail.symm.trans (hpass r hr)
  · have hmem := List.mem_map_of_mem (f := fun case => (case.1, case.2.expectedErrorFields)) hcase
    rw [hcases, List.mem_singleton, Prod.mk.injEq] at hmem
    rw [hmem.1, hmem.2, markers_own ht hown] at hechoed
    revert hechoed
    decide

/-- A failing message that is named by the marker is judged a success. -/
theorem echo_judged_success :
    ¬ ∀ {σ : Type} (disk : Disk (StateM σ)) (launch : Launcher (StateM σ)) (env : Environment)
      (arguments : List String) (s : σ) (vectors : Message.VectorSet) (summary : Summary)
      (t : Target),
      RunsMessages disk env arguments s vectors → vectors.run = .ok summary →
      (outcome disk launch env arguments s).error = none →
      t ∈ defaultTargets → t.language = Summary.ownLanguage →
      ((judged t (outcome disk launch env arguments s)).success = true ↔
        ∀ r ∈ summary.scenarios, r.status = .pass) := by
  intro h
  obtain ⟨vectors, summary, hruns, hrun, -, r, hr, hfail⟩ :=
    exists_failing_run "scenarios passed" (by decide +kernel)
  have hsaved : (outcome (shelf (oneInvalid "scenarios passed")) idle unset ["schema"] ()).error =
      none := by
    decide +kernel
  obtain ⟨t, ht, hown, hsuccess⟩ : ∃ t ∈ defaultTargets, t.language = Summary.ownLanguage ∧
      (judged t (outcome (shelf (oneInvalid "scenarios passed")) idle unset
        ["schema"] ())).success = true := by
    decide +kernel
  have hpass := (h _ idle _ _ _ vectors summary t hruns hrun hsaved ht hown).mp hsuccess r hr
  cases hfail.symm.trans hpass

end Agreement
end Conformance
