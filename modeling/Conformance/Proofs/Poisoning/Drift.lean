import Conformance.Poisoning.Checks
import Conformance.Proofs.Decimal.Nearest
import Conformance.Proofs.Word

/-!
# Drift of a nonce counter

The drift of a message is the difference of its two counters, kept within the range
of signed words and rounded to a double before it is compared with the bound of a
rule. Neither step changes how it compares with a whole bound below `2 ^ 53`. What
can change it is the reading: a counter beyond the signed range counts as zero.
-/
namespace Conformance.Poisoning
open Conformance

/-- What a whole number counts for as a counter. -/
def counted (n : Int) : Int := if Word.fitsSigned n then n else 0

theorem counted_eq_self {n : Int} (h : Word.fitsSigned n) : counted n = n := if_pos h

theorem counter_eq_counted {sample : Json.Object} {key : String} {n : Int}
    (h : Json.Object.get? key sample = some (.number (.whole n))) :
    counter sample key = counted n := by
  simp only [counter, h, Json.signed?, counted]
  split_ifs <;> rfl

theorem holds_maxDrift_iff (sample : Json.Object) {limit : Float} {l : Int}
    (hlimit : Decimal.value? limit = some (l : ℚ)) (hl : l.natAbs < 2 ^ 53) :
    (Condition.maxDrift limit).holds sample = true ↔
      counter sample "nonce_counter" - counter sample "last_nonce_counter" ≤ l := by
  have hlow : Word.leastSigned ≤ l := by
    unfold Word.leastSigned
    omega
  have hhigh : l < Word.greatestSigned := by
    unfold Word.greatestSigned
    omega
  rw [Condition.holds, decide_eq_true_eq, drift,
    Decimal.nearest_le_iff (Word.natAbs_saturate_lt _) hlimit hl, Word.saturate_le_iff hlow,
    or_iff_left (not_le.mpr hhigh)]

namespace Rule

/-- A bound on the drift is the only condition that a rule enforces, whatever else is on. -/
theorem enforced_of_maxDrift {rule : Rule} {limit : Float}
    (h : rule.switches.maxDrift = some limit) :
    rule.enforced = (Condition.maxDrift limit).holds rule.sample := by
  rw [enforced, Switches.condition?, h]

/-- A rule with a whole bound below `2 ^ 53` on the drift is enforced exactly when the counters, as
they are read, lie at most that far apart. Counters in the range of signed words are read as they
are, and there the comparison is exact. -/
theorem enforced_iff_drift_le {rule : Rule} {limit : Float} {l now last : Int}
    (hrule : rule.switches.maxDrift = some limit)
    (hlimit : Decimal.value? limit = some (l : ℚ)) (hl : l.natAbs < 2 ^ 53)
    (hnow : Json.Object.get? "nonce_counter" rule.sample = some (.number (.whole now)))
    (hlast : Json.Object.get? "last_nonce_counter" rule.sample = some (.number (.whole last))) :
    (rule.enforced = true ↔ counted now - counted last ≤ l) ∧
      (Word.fitsSigned now → Word.fitsSigned last → (rule.enforced = true ↔ now - last ≤ l)) := by
  have henforced : rule.enforced = true ↔ counted now - counted last ≤ l := by
    rw [enforced_of_maxDrift hrule, holds_maxDrift_iff rule.sample hlimit hl,
      counter_eq_counted hnow, counter_eq_counted hlast]
  refine ⟨henforced, fun hfitsNow hfitsLast => ?_⟩
  rw [henforced, counted_eq_self hfitsNow, counted_eq_self hfitsLast]

/-- A rule that bounds the drift by five, with every other condition switched on as well. -/
def boundedByFive (now last : Int) : Rule where
  ruleId := "drift"
  switches := ⟨some (Decimal.nearest 5), true, true⟩
  sample := [("last_nonce_counter", .ofInt last), ("nonce_counter", .ofInt now)]
  expectedEnforced := false

theorem value?_five : Decimal.value? (Decimal.nearest 5) = some ((5 : Int) : ℚ) :=
  Decimal.value?_nearest (by decide)

/-- The two ends of the signed range, whose difference does not fit into it. -/
theorem boundedByFive_ends :
    (Word.fitsSigned Word.greatestSigned ∧ Word.fitsSigned Word.leastSigned) ∧
      (boundedByFive Word.greatestSigned Word.leastSigned).enforced = false := by
  have hends : Word.fitsSigned Word.greatestSigned ∧ Word.fitsSigned Word.leastSigned := by decide
  have henforced := (@enforced_iff_drift_le (boundedByFive Word.greatestSigned Word.leastSigned)
    _ _ _ _ rfl value?_five (by decide) rfl rfl).2 hends.1 hends.2
  refine ⟨hends, ?_⟩
  rw [← Bool.not_eq_true, henforced]
  decide

/-- A counter beyond the signed range counts as zero, so a drift far above the bound passes. -/
theorem greatest_counter_passes :
    (boundedByFive Word.greatest 0).switches.maxDrift = some (Decimal.nearest 5) ∧
      Decimal.value? (Decimal.nearest 5) = some ((5 : Int) : ℚ) ∧
      Json.Object.get? "nonce_counter" (boundedByFive Word.greatest 0).sample =
        some (.number (.whole Word.greatest)) ∧
      Json.Object.get? "last_nonce_counter" (boundedByFive Word.greatest 0).sample =
        some (.number (.whole 0)) ∧
      (boundedByFive Word.greatest 0).enforced = true ∧ ¬ (Word.greatest : Int) - 0 ≤ 5 := by
  have hrule : (boundedByFive Word.greatest 0).switches.maxDrift = some (Decimal.nearest 5) := rfl
  refine ⟨hrule, value?_five, rfl, rfl, ?_, by decide⟩
  rw [enforced_of_maxDrift hrule, holds_maxDrift_iff _ value?_five (by decide)]
  decide

end Rule
end Conformance.Poisoning
