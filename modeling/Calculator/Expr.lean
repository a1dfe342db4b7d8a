import Calculator.Token

/-!
# Expression trees

A tree has a token at every node: a leaf, a signed operand, or two operands joined by an
operator. Parentheses leave no node of their own. The type does not say which kinds of token
stand where, so that trees built by hand have a meaning too.

`Expr.render` writes a tree with parentheses around every operation, which makes its shape
visible whatever the precedence of its operators.
-/

namespace Calculator

/-- An arithmetic expression. -/
inductive Expr where
  | leaf (token : Token)
  | signed (token : Token) (operand : Expr)
  | binary (token : Token) (left right : Expr)
  deriving DecidableEq, Repr, Inhabited

namespace Expr

/-- The token at the root. -/
def token : Expr → Token
  | leaf t | signed t _ | binary t _ _ => t

/-- The operand under a sign. -/
def operand? : Expr → Option Expr
  | signed _ e => some e
  | _ => none

/-- The left operand of an operator. -/
def left? : Expr → Option Expr
  | binary _ l _ => some l
  | _ => none

/-- The right operand of an operator. -/
def right? : Expr → Option Expr
  | binary _ _ r => some r
  | _ => none

/-- The tree in full parentheses: a leaf is its text, an operator stands between spaces. -/
def render : Expr → String
  | leaf t => t.text
  | signed t e => "(" ++ t.kind.spelling ++ e.render ++ ")"
  | binary t l r => "(" ++ l.render ++ " " ++ t.kind.spelling ++ " " ++ r.render ++ ")"

/-- The tree with every token moved to the start of the source. -/
def unplaced : Expr → Expr
  | leaf t => leaf t.unplaced
  | signed t e => signed t.unplaced e.unplaced
  | binary t l r => binary t.unplaced l.unplaced r.unplaced

/-- Two trees say the same when they agree in everything but positions. -/
def Same (a b : Expr) : Prop :=
  a.unplaced = b.unplaced

/-- Sameness is decided by comparing the trees without their positions. -/
instance : DecidableRel Same := fun a b => inferInstanceAs (Decidable (a.unplaced = b.unplaced))

end Expr

end Calculator
