import Calculator.Arithmetic
import Calculator.Expr

/-!
# Values of expressions

The value of a tree is computed from the leaves up. Operands come before the token that joins
them, and the left operand before the right one, so that of several faults in a tree the first
one in this order is reported.
-/

namespace Calculator.Expr

/-- The value of a tree, or the first fault in it. -/
def value : Expr → Except EvalError Float
  | leaf t => t.value
  | signed t e => do
    let x ← e.value
    t.kind.applySign x
  | binary t l r => do
    let x ← l.value
    let y ← r.value
    t.kind.applyBinary x y

end Calculator.Expr
