import Calculator.Decimal

/-!
# The shortest decimals of doubles

A finite double is written with the fewest significant digits that read back as the same double,
and with the digits nearest to its exact value if several numbers of that length do. Of two that
are equally near the greater is written.

A number with `n` binary places after the dot has `n` decimal places, so the exact value of every
magnitude is a decimal. On each decimal grid, from the coarsest that has room for one digit of it
to the one that holds it, the two neighbours of the exact value are tried; if any number on a
grid reads back, then so does one of these two.
-/

namespace Calculator.Magnitude

/-- The places after the dot of the exact value of a code. -/
def places (code : Nat) : Nat :=
  finestScale - scale code

/-- The digits of the exact value of a code, which is `exact code / 10 ^ places code`. -/
def exact (code : Nat) : Nat :=
  significand code * Nat.pow 2 (scale code - finestScale) * Nat.pow 5 (places code)

/-- Whether a number, as a multiple of the last place of the exact value, reads back as the code. -/
def readsBack (code n : Nat) : Bool :=
  (⟨n, places code⟩ : Decimal).nearest == code

/-- The neighbour of the exact value among the multiples of `10 ^ j` that reads back and is
nearest to it, the greater one at equal distances. -/
def onGrid? (code j : Nat) : Option Nat :=
  let value := exact code
  let below := value / Nat.pow 10 j * Nat.pow 10 j
  let above := below + Nat.pow 10 j
  if readsBack code above && (above - value ≤ value - below || !readsBack code below) then
    some above
  else if readsBack code below then some below
  else none

/-- The neighbour that reads back on the coarsest of the grids up to `10 ^ j`. -/
def onCoarsestGrid (code : Nat) : Nat → Nat
  | 0 => exact code
  | j + 1 => (onGrid? code (j + 1)).getD (onCoarsestGrid code j)

/-- The shortest decimal that reads back as a finite code. -/
def shortest (code : Nat) : Decimal :=
  ⟨onCoarsestGrid code ((Nat.toDigits 10 (exact code)).length - 1), places code⟩

end Calculator.Magnitude

namespace Calculator

/-- A result as it is printed: positional notation after a sign, or one of the words that the
lexer reads. A NaN has no sign. -/
def formatNumber (x : Float) : String :=
  let code := Magnitude.ofFloat x
  if code > Magnitude.infinity then "NaN"
  else
    (if Magnitude.isNegative x then "-" else "") ++
      (if code = Magnitude.infinity then "Infinity"
        else String.ofList (Magnitude.shortest code).render)

end Calculator
