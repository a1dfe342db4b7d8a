import Calculator.Evaluation

/-!
# Sources that mean the same

Two sources parse alike when their first expressions are the same tree, or fail in the same way,
up to where tokens stand. They evaluate alike when they have equal values, in the sense of
doubles where a NaN equals nothing and both zeros are equal, or fail in the same way.
-/

namespace Calculator

/-- Two answers agree when both are values that count as the same, or both are errors that say
the same wherever the token they found stands. -/
def agree {α : Type} (same : α → α → Bool) : Except Error α → Except Error α → Bool
  | .ok x, .ok y => same x y
  | .error e, .error f => e.unplaced == f.unplaced
  | _, _ => false

/-- Whether the first expressions of two sources are the same. -/
def parsesAlike (a b : String) : Bool :=
  agree (fun x y => x.map Expr.unplaced == y.map Expr.unplaced)
    (Parser.next.onSource a) (Parser.next.onSource b)

/-- Whether the values of two sources are equal. -/
def evaluatesAlike (a b : String) : Bool :=
  agree (· == ·) (evaluateAll a) (evaluateAll b)

end Calculator
