import Conformance.Decimal.Shortest
/-!
# Written numbers

Three ways to write a double: positionally with the fewest digits, with a fixed
number of places, and in the notation of JSON texts.
-/
namespace Conformance.Decimal

def isNegative (x : Float) : Bool :=
  x.toBits >>> 63 == 1

def isFinite (x : Float) : Bool :=
  (x.toBits >>> 52) &&& 0x7FF != 0x7FF

def signText (x : Float) : String :=
  if isNegative x then "-" else ""

def zerosText (n : Nat) : String :=
  String.ofList (List.replicate n '0')

/-- Decimal digits without an exponent. -/
def Expansion.positional (d : Expansion) : String :=
  let digits := toString d.digits
  if 0 ≤ d.exponent then digits ++ zerosText d.exponent.toNat
  else
    let places := (-d.exponent).toNat
    let padded := zerosText (places + 1 - digits.length) ++ digits
    let whole := padded.length - places
    String.ofList (padded.toList.take whole) ++ "." ++ String.ofList (padded.toList.drop whole)

/-- One digit before the point, then the exponent with its sign. -/
def Expansion.scientific (d : Expansion) : String :=
  let digits := (toString d.digits).toList
  let exponent := d.exponent + (digits.length - 1 : Nat)
  let fraction := if digits.length ≤ 1 then "" else "." ++ String.ofList (digits.drop 1)
  let sign := if exponent < 0 then "-" else "+"
  String.ofList (digits.take 1) ++ fraction ++ "e" ++ sign ++ toString exponent.natAbs

def nonFiniteText (x : Float) : String :=
  if x.isNaN then "NaN" else signText x ++ "inf"

/-- The fewest digits that read back, never with an exponent; whole numbers have no point. -/
def plain (x : Float) : String :=
  if isFinite x then signText x ++ ((Binary.ofBits x.toBits).shortest .up).positional
  else nonFiniteText x

/-- A quotient rounded to nearest, a half to the even neighbour. -/
def roundHalfEven (numerator denominator : Nat) : Nat :=
  let quotient := numerator / denominator
  match compare (2 * (numerator % denominator)) denominator with
  | .lt => quotient
  | .gt => quotient + 1
  | .eq => if quotient % 2 = 0 then quotient else quotient + 1

/-- The exact value rounded to `places` digits after the point. -/
def fixed (places : Nat) (x : Float) : String :=
  if isFinite x then
    let b := Binary.ofBits x.toBits
    let scaled := roundHalfEven (b.significand * power 2 b.exponent * power 10 places)
      (power 2 (-b.exponent))
    signText x ++ Expansion.positional ⟨scaled, -(places : Int)⟩
  else nonFiniteText x

/-- A positive value rounded to so many digits, of which the first is not zero. -/
def Binary.significant (x : Binary) (digits : Nat) : Expansion :=
  let exponent := x.scale - digits
  let rounded := roundHalfEven (x.significand * power 2 x.exponent * power 10 (-exponent))
    (power 2 (-x.exponent) * power 10 exponent)
  if rounded = power 10 digits then ⟨rounded / 10, exponent + 1⟩ else ⟨rounded, exponent⟩

/-- The fewest digits that read back: positional with a point from `0.00001` up to below
`10 ^ 16`, with an exponent elsewhere. -/
def jsonText (x : Float) : String :=
  let d := (Binary.ofBits x.toBits).shortest .toEven
  let leading := d.exponent + ((toString d.digits).length - 1 : Nat)
  let magnitude :=
    if -5 ≤ leading ∧ leading < 16 then
      if 0 ≤ d.exponent then d.positional ++ ".0" else d.positional
    else d.scientific
  signText x ++ magnitude

end Conformance.Decimal
