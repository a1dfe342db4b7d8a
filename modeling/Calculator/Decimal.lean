import Calculator.Magnitude
import Calculator.Token

/-!
# Decimals

A decimal is a whole number over a power of ten. It is written in positional notation, without
an exponent however large or small it is, and with a dot only when it is not whole. It is read
from the text of an integer, which is a run of digits, or from that of a decimal fraction, which
has a dot between two runs of digits. Texts of any other shape, such as `.5` or `1e5`, are no
numerals.
-/

namespace Calculator

/-- The number `digits / 10 ^ places`. -/
structure Decimal where
  digits : Nat
  places : Nat
  deriving DecidableEq, Repr, Inhabited

namespace Decimal

/-- Whether a text is a run of one or more digits. -/
def isDigits (cs : List Char) : Bool :=
  !cs.isEmpty && cs.all Char.isDigit

/-- The decimal that a run of digits before the dot and one after it spell. -/
def ofDigits (whole fraction : List Char) : Decimal :=
  ⟨Nat.ofDigitChars 10 (whole ++ fraction) 0, fraction.length⟩

/-- Read a run of digits. -/
def ofInteger? (cs : List Char) : Option Decimal :=
  if isDigits cs then some (ofDigits cs []) else none

/-- Read a run of digits, a dot, and another run of digits. -/
def ofFraction? (cs : List Char) : Option Decimal :=
  match cs.dropWhile (· != '.') with
  | [] => none
  | _ :: fraction =>
    let whole := cs.takeWhile (· != '.')
    if isDigits whole && isDigits fraction then some (ofDigits whole fraction) else none

/-- The text without the zeros it ends in. -/
def dropTrailingZeros (cs : List Char) : List Char :=
  (cs.reverse.dropWhile (· == '0')).reverse

/-- The digits after the dot, as many as there are places. -/
def fractionDigits (d : Decimal) : List Char :=
  (Nat.toDigits 10 (d.digits % Nat.pow 10 d.places)).leftpad d.places '0'

/-- The decimal in positional notation, with no more digits after the dot than it needs. -/
def render (d : Decimal) : List Char :=
  let whole := Nat.toDigits 10 (d.digits / Nat.pow 10 d.places)
  let fraction := dropTrailingZeros d.fractionDigits
  if fraction.isEmpty then whole else whole ++ '.' :: fraction

/-- The code of the magnitude nearest to a decimal. -/
def nearest (d : Decimal) : Nat :=
  Magnitude.nearest d.digits (Nat.pow 10 d.places)

end Decimal

end Calculator
