import Conformance.CommandLine.Commands
import Conformance.Files.Tree
import Conformance.Proofs.Sequencing
import Mathlib

/-!
# Commands and what they leave

A command reads what it needs, and leaves the disk as it was until it saves its
one file. What it prints does not change whether that can be saved.
-/
namespace Conformance.CommandLine
open Conformance Files

section
variable {σ : Type} (disk : Disk (StateM σ))

theorem writing_run (path : String) (content : Json.Document) (code : ℕ)
    (written before : List String) (s : σ) :
    ((writing disk path content code written before).run s).1 =
      match ((save disk path content).run s).1 with
      | .error reason => .failed before reason
      | .ok _ => ⟨code, written, none⟩ := by
  rw [writing, bind_run (Prod.eta ((save disk path content).run s)).symm]
  cases ((save disk path content).run s).1 <;> rfl

/-- Whether saving succeeds hangs on what is saved, and not on what is printed. -/
theorem exitCode_writing_congr (path : String) (content : Json.Document) (code : ℕ)
    (written before written' before' : List String) (s : σ) :
    ((writing disk path content code written before).run s).1.exitCode =
      ((writing disk path content code written' before').run s).1.exitCode := by
  rw [writing_run, writing_run]
  cases ((save disk path content).run s).1 <;> rfl

/-- A run prints a line for each report, and its verdict too unless its summary cannot be saved. -/
theorem runSuite_cases (request : Request) (suite : Suite) (path : Option String) (s : σ)
    {summary : Summary} (h : suite.summary (path.getD suite.defaultPath)
      ((disk.look (path.getD suite.defaultPath)).run s).1 = .ok summary) :
    (∃ reason, ((runSuite disk request suite path).run s).1 =
      .failed (summary.scenarios.map scenarioLine) reason) ∨
    ((runSuite disk request suite path).run s).1 = ⟨exitCode summary.allPassed,
      summary.scenarios.map scenarioLine ++ [verdictLine summary], none⟩ := by
  obtain ⟨found, after, hlook⟩ :
      ∃ found after, (disk.look (path.getD suite.defaultPath)).run s = (found, after) :=
    ⟨_, _, rfl⟩
  rw [hlook] at h
  rw [runSuite, bind_run hlook]
  simp only [h]
  rw [writing_run]
  split
  · exact .inl ⟨_, rfl⟩
  · exact .inr rfl

end

/-- The file under the path holds the summary. -/
def Holds (t : Tree) (path : String) (s : Summary) : Prop :=
  readSummary path (t.look path) = .ok s

/-- The summaries are those of the named files, or of all files of the directory of results that
are named as summaries. -/
def Compares (t : Tree) (request : Request) (paths : List String) (summaries : List Summary) :
    Prop :=
  ∃ found, ((summaryPaths Tree.disk request paths).run t).1 = .ok found ∧
    List.Forall₂ (Holds t) found summaries

theorem Compares.unique {t : Tree} {request : Request} {paths : List String}
    {summaries others : List Summary} (h : Compares t request paths summaries)
    (h' : Compares t request paths others) : summaries = others := by
  obtain ⟨found, hfound, hholds⟩ := h
  obtain ⟨same, hsame, hothers⟩ := h'
  obtain rfl := Except.ok.inj (hfound.symm.trans hsame)
  have hunique : Relator.RightUnique (Holds t) := fun _ _ _ hs hu =>
    Except.ok.inj (hs.symm.trans hu)
  exact hunique.forall₂ hholds hothers

variable (t : Tree) (request : Request)

theorem look_run (path : String) : (Tree.disk.look path).run t = (t.look path, t) := rfl

theorem summaryPaths_run (paths : List String) :
    (summaryPaths Tree.disk request paths).run t =
      (((summaryPaths Tree.disk request paths).run t).1, t) := by
  refine Prod.ext rfl ?_
  unfold summaryPaths
  split
  · rfl
  · rw [bind_run (look_run t _)]
    split
    · dsimp only
      split <;> rfl
    · rfl

theorem readSummaries_run (paths : List String) :
    (readSummaries Tree.disk paths).run t = (((readSummaries Tree.disk paths).run t).1, t) := by
  induction paths with
  | nil => rfl
  | cons path rest ih =>
    rw [readSummaries, bind_run (look_run t path)]
    split
    · rfl
    · rw [bind_run ih]
      rfl

theorem readSummaries_eq_ok_iff (paths : List String) (summaries : List Summary) :
    ((readSummaries Tree.disk paths).run t).1 = .ok summaries ↔
        List.Forall₂ (Holds t) paths summaries := by
  induction paths generalizing summaries with
  | nil =>
    change Except.ok [] = Except.ok summaries ↔ _
    rw [Except.ok.injEq, List.forall₂_nil_left_iff, eq_comm]
  | cons path rest ih =>
    rw [readSummaries, bind_run (look_run t path), List.forall₂_cons_left_iff]
    simp only [← ih, Holds]
    cases readSummary path (t.look path) with
    | error reason =>
      change Except.error reason = Except.ok summaries ↔ _
      simp
    | ok s =>
      rw [bind_run (readSummaries_run t rest)]
      change Except.map (s :: ·) ((readSummaries Tree.disk rest).run t).1 = Except.ok summaries ↔ _
      cases ((readSummaries Tree.disk rest).run t).1 <;> simp [Except.map, eq_comm]

theorem runCompare_of_compares {paths : List String} {summaries : List Summary}
    (h : Compares t request paths summaries) :
    (runCompare Tree.disk request paths).run t =
      (reportDivergences Tree.disk request summaries).run t := by
  obtain ⟨found, hfound, hholds⟩ := h
  have hread := (readSummaries_eq_ok_iff t found summaries).mpr hholds
  rw [runCompare, bind_run (summaryPaths_run t request paths), hfound,
    bind_run (readSummaries_run t found), hread]

theorem runCompare_of_not_compares {paths : List String}
    (h : ∀ summaries, ¬ Compares t request paths summaries) :
    ∃ reason, (runCompare Tree.disk request paths).run t = (.failed [] reason, t) := by
  rw [runCompare, bind_run (summaryPaths_run t request paths)]
  cases hfound : ((summaryPaths Tree.disk request paths).run t).1 with
  | error reason => exact ⟨reason, rfl⟩
  | ok found =>
    simp only
    rw [bind_run (readSummaries_run t found)]
    cases hread : ((readSummaries Tree.disk found).run t).1 with
    | error reason => exact ⟨reason, rfl⟩
    | ok summaries =>
      have hholds := (readSummaries_eq_ok_iff t found summaries).mp hread
      exact absurd ⟨found, hfound, hholds⟩ (h summaries)

theorem Compares.reordered {paths names : List String} {summaries : List Summary}
    (h : Compares t request paths summaries) (hperm : names.Perm paths) :
    ∃ others, others.Perm summaries ∧ Compares t request names others := by
  by_cases hpaths : paths = []
  · obtain rfl := List.perm_nil.mp (hpaths ▸ hperm)
    exact ⟨summaries, .refl _, hpaths ▸ h⟩
  · obtain ⟨found, hfound, hholds⟩ := h
    have hnames : names ≠ [] := fun hnil => hpaths (List.nil_perm.mp (hnil ▸ hperm))
    rw [summaryPaths, if_pos hpaths] at hfound
    cases hfound
    obtain ⟨others, hothers, hperm'⟩ := List.perm_comp_forall₂ hperm hholds
    refine ⟨others, hperm', names, ?_, hothers⟩
    rw [summaryPaths, if_pos hnames]
    rfl

end Conformance.CommandLine
