/-!
# Nearest doubles

Whole numbers as doubles, rounded to nearest with ties to even.
-/
namespace Conformance.Decimal

def nearest (n : Int) : Float :=
  let magnitude := Float.ofScientific n.natAbs false 0
  if n < 0 then -magnitude else magnitude

end Conformance.Decimal
