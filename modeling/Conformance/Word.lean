/-!
# Words

The bounds of the whole numbers that fit 64 bits, without a sign and with one, and
what is kept of a number that does not fit.
-/
namespace Conformance.Word

def greatest : Nat := 0xFFFFFFFFFFFFFFFF
def leastSigned : Int := -0x8000000000000000
def greatestSigned : Int := 0x7FFFFFFFFFFFFFFF

def fits (n : Int) : Bool :=
  0 ≤ n && n ≤ greatest

def fitsSigned (n : Int) : Bool :=
  leastSigned ≤ n && n ≤ greatestSigned

/-- The nearest number that fits with a sign. -/
def saturate (n : Int) : Int :=
  if n < leastSigned then leastSigned else if greatestSigned < n then greatestSigned else n

/-- The number with a sign that 64 bits are left with when the higher ones are lost. -/
def wrap (n : Int) : Int :=
  n.bmod 0x10000000000000000

end Conformance.Word
