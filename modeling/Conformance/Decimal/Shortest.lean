/-!
# Shortest decimals

A finite binary floating-point value is a natural number times a power of two.
Among the decimals that round back to it, the selected one has the fewest
digits and, of those, lies nearest.
-/
namespace Conformance.Decimal

/-- A positive value `significand * 2 ^ exponent`. Below a power of two the gap to the
neighbour is half the gap above it. -/
structure Binary where
  significand : Nat
  exponent : Int
  narrowBelow : Bool
  deriving DecidableEq

/-- The magnitude held in the bits of a finite double. -/
def Binary.ofBits (bits : UInt64) : Binary :=
  let biased : Nat := (bits.toNat >>> 52) % 2048
  let fraction := bits.toNat % (1 <<< 52)
  if biased = 0 then ⟨fraction, -1074, false⟩
  else ⟨1 <<< 52 + fraction, (biased : Int) - 1075, fraction == 0 && biased > 1⟩

/-- The value `digits * 10 ^ exponent`. -/
structure Expansion where
  digits : Nat
  exponent : Int
  deriving DecidableEq

/-- Which of two equally near candidates is selected. -/
inductive Tie
  | toEven
  | up
  deriving DecidableEq

/-- The power of a base; it is one where the exponent is negative. -/
def power (base : Nat) (exponent : Int) : Nat :=
  Nat.pow base exponent.toNat

/-- Compares `a * 10 ^ i` with `b * 2 ^ j` in natural numbers. -/
def compareScaled (a : Nat) (i : Int) (b : Nat) (j : Int) : Ordering :=
  compare (a * power 10 i * power 2 (-j)) (b * power 2 j * power 10 (-i))

/-- Whether a decimal lies among the reals that round to the value, ends included when the
significand is even. -/
def Binary.readsBack (x : Binary) (d : Expansion) : Bool :=
  let below := if x.narrowBelow then 4 * x.significand - 1 else 4 * x.significand - 2
  let above := 4 * x.significand + 2
  let closed := x.significand % 2 == 0
  let toBelow := compareScaled d.digits d.exponent below (x.exponent - 2)
  let toAbove := compareScaled d.digits d.exponent above (x.exponent - 2)
  (toBelow == .gt || (closed && toBelow == .eq)) && (toAbove == .lt || (closed && toAbove == .eq))

/-- The integer part of the value divided by `10 ^ grid`. -/
def Binary.floorOn (x : Binary) (grid : Int) : Nat :=
  (x.significand * power 2 x.exponent * power 10 (-grid))
    / (power 2 (-x.exponent) * power 10 grid)

/-- The least power of ten above the value, found near the binary logarithm. -/
def Binary.scale (x : Binary) : Int :=
  let estimate := ((x.significand.log2 : Int) + x.exponent) * 30103 / 100000
  let candidates := [estimate - 1, estimate, estimate + 1, estimate + 2]
  (candidates.find? fun k => compareScaled 1 k x.significand x.exponent == .gt).getD (estimate + 3)

/-- The neighbour of the value on a decimal grid that reads back, the nearer of two. -/
def Binary.onGrid (x : Binary) (tie : Tie) (grid : Int) : Option Expansion :=
  let low := x.floorOn grid
  let lower : Expansion := ⟨low, grid⟩
  let upper : Expansion := ⟨low + 1, grid⟩
  match x.readsBack lower, x.readsBack upper with
  | false, false => none
  | true, false => some lower
  | false, true => some upper
  | true, true =>
    match compareScaled (2 * low + 1) grid x.significand (x.exponent + 1) with
    | .gt => some lower
    | .lt => some upper
    | .eq => if tie = .toEven ∧ low % 2 = 0 then some lower else some upper

/-- The value itself, which needs no rounding. -/
def Binary.exact (x : Binary) : Expansion :=
  if 0 ≤ x.exponent then ⟨x.significand * power 2 x.exponent, 0⟩
  else ⟨x.significand * power 5 (-x.exponent), x.exponent⟩

/-- Moves trailing zeros of the digits into the exponent. -/
def Expansion.normalize (digits : Nat) (exponent : Int) : Expansion :=
  if digits ≠ 0 ∧ digits % 10 = 0 then normalize (digits / 10) (exponent + 1)
  else ⟨digits, exponent⟩
termination_by digits
decreasing_by omega

/-- Seventeen digits always suffice for a double; the exact value stands in otherwise. -/
def Binary.shortest (x : Binary) (tie : Tie) : Expansion :=
  if x.significand = 0 then ⟨0, 0⟩
  else
    let scale := x.scale
    let found := (List.range 17).findSome? fun (n : Nat) => x.onGrid tie (scale - (n + 1))
    let d := found.getD x.exact
    Expansion.normalize d.digits d.exponent

end Conformance.Decimal
