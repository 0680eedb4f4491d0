import Conformance.Proofs.Agreement.Divergence
import Conformance.Proofs.CommandLine

/-!
# Summaries in another order

Of two summaries of one suite and language, the one given last counts where both
list a scenario. So the order in which summaries are given can be seen if two
such summaries differ in a verdict, and in no other way.
-/
namespace Conformance.Agreement
open Conformance CommandLine Files

/-- The verdict that a summary lists last for a scenario. -/
def lastVerdict? (s : Summary) (scenarioId : String) : Option Verdict :=
  ((s.scenarios.filter (·.scenarioId == scenarioId)).getLast?).map Verdict.ofReport

/-- Some summary of the suite and language gives the scenario the verdict. -/
def Gives (summaries : List Summary) (suite language scenarioId : String) (v : Verdict) : Prop :=
  ∃ s ∈ summaries, s.suite = suite ∧ s.language = language ∧ lastVerdict? s scenarioId = some v

/-- No language gives a scenario of a suite two verdicts. -/
def Settled (summaries : List Summary) : Prop :=
  ∀ suite language scenarioId v w, Gives summaries suite language scenarioId v →
    Gives summaries suite language scenarioId w → v = w

/-- The summaries of each suite and language stand in the same order. -/
def SameOrder (summaries others : List Summary) : Prop :=
  ∀ suite language, (ofSuite suite summaries).filter (·.language == language) =
    (ofSuite suite others).filter (·.language == language)

/-- The verdict that a language lists last for a scenario of a suite is the same. -/
def KeepsLast (summaries others : List Summary) : Prop :=
  ∀ suite language scenarioId, verdict? summaries suite scenarioId language =
    verdict? others suite scenarioId language

/-- The same languages ran the same suites, with the same set of verdicts. -/
structure SameVerdictSet (summaries others : List Summary) : Prop where
  runs_iff : ∀ suite language, Runs summaries suite language ↔ Runs others suite language
  gives_iff : ∀ suite language scenarioId v, Gives summaries suite language scenarioId v ↔
    Gives others suite language scenarioId v

variable {summaries others : List Summary} {suite language scenarioId : String} {v : Verdict}

theorem sameVerdictSet_of_perm (h : others.Perm summaries) : SameVerdictSet summaries others where
  runs_iff suite language := by simp [Runs, h.mem_iff]
  gives_iff suite language scenarioId v := by simp [Gives, h.mem_iff]

theorem verdict?_cons (s : Summary) (rest : List Summary) :
    verdict? (s :: rest) suite scenarioId language =
      (verdict? rest suite scenarioId language).or
        (if s.suite = suite ∧ s.language = language then lastVerdict? s scenarioId else none) := by
  by_cases hsuite : s.suite = suite <;> by_cases hlanguage : s.language = language <;>
    simp [verdict?, ofSuite, lastVerdict?, hsuite, hlanguage, Option.map_or]

theorem gives_cons (s : Summary) (rest : List Summary) :
    Gives (s :: rest) suite language scenarioId v ↔
      (if s.suite = suite ∧ s.language = language then lastVerdict? s scenarioId else none) =
          some v ∨
        Gives rest suite language scenarioId v := by
  simp [Gives, and_assoc]

theorem gives_of_verdict? (h : verdict? summaries suite scenarioId language = some v) :
    Gives summaries suite language scenarioId v := by
  induction summaries with
  | nil => simp [verdict?, ofSuite] at h
  | cons s rest ih =>
    rw [verdict?_cons, Option.or_eq_some_iff] at h
    rw [gives_cons]
    rcases h with hrest | ⟨-, hs⟩
    · exact .inr (ih hrest)
    · exact .inl hs

theorem exists_verdict?_of_gives (h : Gives summaries suite language scenarioId v) :
    ∃ w, verdict? summaries suite scenarioId language = some w := by
  induction summaries with
  | nil => simp [Gives] at h
  | cons s rest ih =>
    simp only [verdict?_cons, Option.or_eq_some_iff]
    rcases (gives_cons s rest).mp h with hs | hrest
    · cases hlast : verdict? rest suite scenarioId language with
      | none => exact ⟨v, .inr ⟨rfl, hs⟩⟩
      | some w => exact ⟨w, .inl rfl⟩
    · obtain ⟨w, hw⟩ := ih hrest
      exact ⟨w, .inl hw⟩

theorem Settled.verdict?_eq_some_iff (h : Settled summaries) :
    verdict? summaries suite scenarioId language = some v ↔
      Gives summaries suite language scenarioId v := by
  refine ⟨gives_of_verdict?, fun hv => ?_⟩
  obtain ⟨w, hw⟩ := exists_verdict?_of_gives hv
  rw [hw, h suite language scenarioId v w hv (gives_of_verdict? hw)]

theorem settled_of_nodup (h : (summaries.map fun s => (s.suite, s.language)).Nodup) :
    Settled summaries := by
  rintro suite language scenarioId v w ⟨s, hs, hsuite, hlanguage, hv⟩
    ⟨t, ht, hsuite', hlanguage', hw⟩
  have hst : s = t := List.inj_on_of_nodup_map h hs ht (by
    rw [hsuite, hlanguage, hsuite', hlanguage'])
  exact Option.some.inj (hv.symm.trans ((congrArg (lastVerdict? · scenarioId) hst).trans hw))

theorem SameVerdictSet.settled (h : SameVerdictSet summaries others) (hs : Settled summaries) :
    Settled others := by
  intro suite language scenarioId v w hv hw
  exact hs suite language scenarioId v w ((h.gives_iff _ _ _ v).mpr hv)
    ((h.gives_iff _ _ _ w).mpr hw)

theorem SameVerdictSet.keepsLast (h : SameVerdictSet summaries others) (hs : Settled summaries) :
    KeepsLast summaries others := by
  intro suite language scenarioId
  ext v
  rw [hs.verdict?_eq_some_iff, (h.settled hs).verdict?_eq_some_iff, h.gives_iff]

theorem SameOrder.keepsLast (h : SameOrder summaries others) : KeepsLast summaries others := by
  intro suite language scenarioId
  rw [verdict?, verdict?, h]

theorem SameVerdictSet.divergences_eq (h : SameVerdictSet summaries others)
    (hs : Settled summaries) : divergences others = divergences summaries :=
  (divergences_eq_of h.runs_iff fun suite scenarioId language =>
    h.keepsLast hs suite language scenarioId).symm

section
variable {t : Tree} {request : Request} {paths names : List String}

theorem exitCode_eq_of_divergences_eq (heq : divergences others = divergences summaries)
    (h : Compares t request paths summaries) (h' : Compares t request names others) :
    ((runCompare Tree.disk request names).run t).1.exitCode =
      ((runCompare Tree.disk request paths).run t).1.exitCode := by
  rw [runCompare_of_compares t request h, runCompare_of_compares t request h',
    reportDivergences, reportDivergences]
  simp only [heq]
  exact exitCode_writing_congr _ _ _ _ _ _ _ _ t

/-- Where the files in one order cannot be compared, they cannot be in the other order either. -/
theorem exitCode_eq_of_perm (hperm : names.Perm paths)
    (hs : ∀ summaries, Compares t request paths summaries → Settled summaries) :
    ((runCompare Tree.disk request names).run t).1.exitCode =
      ((runCompare Tree.disk request paths).run t).1.exitCode := by
  by_cases hcompares : ∃ summaries, Compares t request paths summaries
  · obtain ⟨summaries, h⟩ := hcompares
    obtain ⟨others, hothers, h'⟩ := h.reordered t request hperm
    have hsame := (sameVerdictSet_of_perm hothers).divergences_eq (hs summaries h)
    exact exitCode_eq_of_divergences_eq hsame h h'
  · have hnot : ∀ others, ¬ Compares t request names others := by
      intro others h'
      obtain ⟨summaries, -, h⟩ := h'.reordered t request hperm.symm
      exact hcompares ⟨summaries, h⟩
    obtain ⟨reason, hrun⟩ := runCompare_of_not_compares t request (not_exists.mp hcompares)
    obtain ⟨reason', hrun'⟩ := runCompare_of_not_compares t request hnot
    rw [hrun, hrun']
    rfl

end

/-- Summaries can be reordered as long as each language still lists the same verdicts last, and in
any way where no language gives one scenario two verdicts. There the exit code of a comparison is
told by the set of verdicts. -/
theorem comparison_in_any_order :
    (∀ summaries others : List Summary, others.Perm summaries → KeepsLast summaries others →
      divergences others = divergences summaries) ∧
    (∀ summaries others : List Summary, others.Perm summaries →
      Settled summaries ∨ SameOrder summaries others → KeepsLast summaries others) ∧
    (∀ summaries others : List Summary, Settled summaries → SameVerdictSet summaries others →
      divergences others = divergences summaries ∧
      ∀ (t : Tree) (request : Request) (paths names : List String),
        Compares t request paths summaries → Compares t request names others →
        ((runCompare Tree.disk request names).run t).1.exitCode =
          ((runCompare Tree.disk request paths).run t).1.exitCode) ∧
    ∀ (t : Tree) (request : Request) (paths names : List String), names.Perm paths →
      (∀ summaries, Compares t request paths summaries → Settled summaries) →
      ((runCompare Tree.disk request names).run t).1.exitCode =
        ((runCompare Tree.disk request paths).run t).1.exitCode := by
  refine ⟨fun summaries others hperm hlast => ?_, fun summaries others hperm h => ?_,
    fun summaries others hs h => ⟨h.divergences_eq hs, fun t request paths names => ?_⟩,
    fun t request paths names hperm hs => exitCode_eq_of_perm hperm hs⟩
  · have hruns := (sameVerdictSet_of_perm hperm).runs_iff
    exact (divergences_eq_of hruns fun suite scenarioId language =>
      hlast suite language scenarioId).symm
  · rcases h with hs | horder
    · exact (sameVerdictSet_of_perm hperm).keepsLast hs
    · exact horder.keepsLast
  · exact exitCode_eq_of_divergences_eq (h.divergences_eq hs)

/-- A tree of two files, with the summaries of two languages that differ in a verdict. -/
def twoLanguages : Tree where
  nodes := [
    (["a"], .file (Bytes.ofString
      "[\"rust\",\"fork\",1,1,0,[[\"s\",\"pass\",[],[],\x7b\x7d,[]]]]")),
    (["b"], .file (Bytes.ofString
      "[\"go\",\"fork\",1,0,1,[[\"s\",\"fail\",[],[],\x7b\x7d,[]]]]"))]
  here := []

def comparison : Request := ⟨"results", "rust", .compare []⟩

theorem twoLanguages_in_either_order :
    (∀ summaries, Compares twoLanguages comparison ["a", "b"] summaries → Settled summaries) ∧
    (∃ summaries, Compares twoLanguages comparison ["a", "b"] summaries) ∧
    ((runCompare Tree.disk comparison ["b", "a"]).run twoLanguages).1.exitCode =
      ((runCompare Tree.disk comparison ["a", "b"]).run twoLanguages).1.exitCode := by
  have hrust : (readSummary "a" (twoLanguages.look "a")).toOption.map (·.language) =
      some "rust" := by
    decide +kernel
  have hgo : (readSummary "b" (twoLanguages.look "b")).toOption.map (·.language) = some "go" := by
    decide +kernel
  obtain ⟨s, hs, hs'⟩ := exists_ok_of_map_eq_some hrust
  obtain ⟨u, hu, hu'⟩ := exists_ok_of_map_eq_some hgo
  have hcompares : Compares twoLanguages comparison ["a", "b"] [s, u] :=
    ⟨["a", "b"], rfl, .cons hs (.cons hu .nil)⟩
  have hsettled : ∀ summaries, Compares twoLanguages comparison ["a", "b"] summaries →
      Settled summaries := by
    intro summaries h
    obtain rfl := hcompares.unique h
    exact settled_of_nodup (by simp [hs', hu'])
  exact ⟨hsettled, ⟨[s, u], hcompares⟩,
    comparison_in_any_order.2.2.2 twoLanguages comparison ["a", "b"] ["b", "a"] (.swap _ _ _)
      hsettled⟩

/-- A summary of one scenario, which passes or fails. -/
def single (language : String) (passes : Bool) : Summary :=
  ⟨language, "fork", 1, 0, 0, [(Report.new "s").check passes "detection_mismatch"]⟩

/-- Of two summaries of one language the last one hides what the other one says. -/
theorem order_decides : ¬ ∀ summaries others : List Summary, others.Perm summaries →
    divergences others = divergences summaries := by
  intro h
  have hswap := h [single "rust" true, single "rust" false, single "go" true]
    [single "rust" false, single "rust" true, single "go" true] (.swap _ _ _)
  have hhidden : divergences [single "rust" false, single "rust" true, single "go" true] = [] := by
    cbv
  have hseen : divergences [single "rust" true, single "rust" false, single "go" true] =
      [⟨"fork", "s", "go=Pass[] rust=Fail[]"⟩] := by
    cbv
  rw [hhidden, hseen] at hswap
  cases hswap

end Conformance.Agreement
