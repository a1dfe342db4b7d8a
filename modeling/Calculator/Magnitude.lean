/-!
# Magnitudes of doubles

A double is a sign and a magnitude. The magnitude is the number its 63 low bits spell, here
called its code: codes grow with the values they stand for, up to the code of infinity, and the
codes above that are NaNs. Every finite value is a whole number of units of `2 ^ -1074`, the
least positive double, so all exact arithmetic on values is arithmetic on natural numbers.

`Magnitude.nearest` rounds a fraction to the nearest code. A fraction halfway between two codes
goes to the even one, and a fraction from halfway above the largest finite value on goes to
infinity.
-/

namespace Calculator.Magnitude

/-- The number of binary places after the dot that the least positive double needs. -/
def finestScale : Nat :=
  1074

/-- The number of units in one. -/
def one : Nat :=
  Nat.pow 2 finestScale

/-- The code of infinity, which comes after those of the finite values. -/
def infinity : Nat :=
  2047 * Nat.pow 2 52

/-- The power of two by which the significand of a code is scaled. The codes of the least
magnitudes are their own significands; above them a scale has `2 ^ 52` codes. -/
def scale (code : Nat) : Nat :=
  code / Nat.pow 2 52 - 1

/-- The significand of a code. -/
def significand (code : Nat) : Nat :=
  code - scale code * Nat.pow 2 52

/-- The value of a code, in units; that of infinity is the first value out of range. -/
def units (code : Nat) : Nat :=
  significand code * Nat.pow 2 (scale code)

/-- A quotient rounded to the nearest whole number, halves to even. -/
def divideToEven (n d : Nat) : Nat :=
  let q := n / d
  let r := n % d
  if 2 * r < d ∨ 2 * r = d ∧ q % 2 = 0 then q else q + 1

/-- The code nearest to a fraction with a positive denominator. The scale is the one that leaves
the significand 53 bits, or none for the least magnitudes. A significand that is rounded up to
54 bits gives the first code of the next scale. -/
def nearest (numerator denominator : Nat) : Nat :=
  let value := numerator * one
  let k := (value / denominator).log2 - 52
  min infinity (k * Nat.pow 2 52 + divideToEven value (denominator * Nat.pow 2 k))

/-- The code of the magnitude of a double. -/
def ofFloat (x : Float) : Nat :=
  x.toBits.toNat % Nat.pow 2 63

/-- Whether the sign bit of a double is set. -/
def isNegative (x : Float) : Bool :=
  x.toBits.toNat / Nat.pow 2 63 == 1

/-- The double of a sign and a code. -/
def toFloat (negative : Bool) (code : Nat) : Float :=
  .ofBits (.ofNat (if negative then Nat.pow 2 63 + code else code))

end Calculator.Magnitude
