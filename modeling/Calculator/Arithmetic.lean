import Calculator.Decimal
import Calculator.Error

/-!
# Arithmetic on doubles

What the operators, signs and literals mean. All arithmetic is that of doubles, whatever the
form of the literals, and no operand makes it fail: division by zero gives an infinity or NaN,
and a power that is not real gives NaN. Only a kind of token that is no operator, no sign or no
literal is an error, and a numeral that is not spelled as its form asks.
-/

namespace Calculator

/-- The remainder of a division rounded toward zero, exact and with the sign of the dividend. It
is NaN when the dividend is not finite or the divisor is zero; an infinite divisor leaves the
dividend as it is, since no finite magnitude has as many units. -/
def remainder (x y : Float) : Float :=
  let a := Magnitude.ofFloat x
  let b := Magnitude.ofFloat y
  if a < Magnitude.infinity ∧ 0 < b ∧ b ≤ Magnitude.infinity then
    Magnitude.toFloat (Magnitude.isNegative x)
      (Magnitude.nearest (Magnitude.units a % Magnitude.units b) Magnitude.one)
  else 0.0 / 0.0

namespace Operator

/-- The value of an operator on two operands. -/
def apply : Operator → Float → Float → Float
  | plus, x, y => x + y
  | minus, x, y => x - y
  | times, x, y => x * y
  | divide, x, y => x / y
  | modulo, x, y => remainder x y
  | power, x, y => x.pow y

end Operator

namespace Token.Kind

/-- The value of two operands joined by a token of a kind. -/
def applyBinary (kind : Kind) (x y : Float) : Except EvalError Float :=
  match kind with
  | operator op => .ok (op.apply x y)
  | kind => .error (.unknownOperator kind)

/-- The value of an operand under a sign. -/
def applySign (kind : Kind) (x : Float) : Except EvalError Float :=
  match kind with
  | operator .plus => .ok x
  | operator .minus => .ok (-x)
  | kind => .error (.unknownSign kind)

end Token.Kind

namespace LiteralForm

/-- The code of the magnitude that a literal of a form spells. The text of a word does not
matter. -/
def magnitude? : LiteralForm → List Char → Option Nat
  | integer, text => (Decimal.ofInteger? text).map Decimal.nearest
  | decimal, text => (Decimal.ofFraction? text).map Decimal.nearest
  | nan, _ => some (Magnitude.infinity + 1)
  | infinity, _ => some Magnitude.infinity

end LiteralForm

/-- The value of a literal. -/
def Token.value (t : Token) : Except EvalError Float :=
  match t.kind with
  | .literal form =>
    match form.magnitude? t.text.toList with
    | some code => .ok (Magnitude.toFloat false code)
    | none => .error (.malformedLiteral t.text)
  | kind => .error (.unknownLeaf kind)

end Calculator
