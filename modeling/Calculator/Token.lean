/-!
# Tokens

The vocabulary of an arithmetic source: operators, the four forms of literal, parentheses and
the mark that stands for the end of the input. A token is a kind together with the text it was
written as and the byte at which it starts. Only literals need their text; every other kind is
spelled in one way, so its tokens are made with empty text.

Where a token stands is no part of what it says. `Token.unplaced` forgets the position, and
`Token.Same` compares kinds and texts alone.
-/

namespace Calculator

/-- The arithmetic operators. -/
inductive Operator where
  | plus
  | minus
  | times
  | divide
  | modulo
  | power
  deriving DecidableEq, Repr, Inhabited

namespace Operator

/-- The character an operator is written with. -/
def symbol : Operator → Char
  | plus => '+'
  | minus => '-'
  | times => '*'
  | divide => '/'
  | modulo => '%'
  | power => '^'

/-- The operators that add terms, which are also the signs a power may carry. -/
def isAdditive : Operator → Bool
  | plus | minus => true
  | _ => false

/-- The operators that join the factors of a term. -/
def isMultiplicative : Operator → Bool
  | times | divide | modulo => true
  | _ => false

end Operator

/-- The forms of literal: `42`, `4.2`, and the two words in any letter case. -/
inductive LiteralForm where
  | integer
  | decimal
  | nan
  | infinity
  deriving DecidableEq, Repr, Inhabited

namespace LiteralForm

/-- The name of a literal form in messages. -/
def name : LiteralForm → String
  | integer => "integer"
  | decimal => "float"
  | nan => "NaN"
  | infinity => "Infinity"

/-- Whether tokens of the form differ in more than letter case, so that a message has to quote
them. -/
def isNumeral : LiteralForm → Bool
  | integer | decimal => true
  | nan | infinity => false

end LiteralForm

/-- What a token is. -/
inductive Token.Kind where
  | literal (form : LiteralForm)
  | operator (op : Operator)
  | openParen
  | closeParen
  | endOfInput
  deriving DecidableEq, Repr, Inhabited

namespace Token.Kind

/-- The kind as messages and printed trees show it. -/
def spelling : Kind → String
  | literal form => form.name
  | operator op => op.symbol.toString
  | openParen => "("
  | closeParen => ")"
  | endOfInput => "end of input"

/-- Whether the kind is one of the literal forms. -/
def isLiteral : Kind → Bool
  | literal _ => true
  | _ => false

/-- Whether the kind is one of the operators. -/
def isOperator : Kind → Bool
  | operator _ => true
  | _ => false

/-- Whether the kind is `+` or `-`. -/
def isAdditive : Kind → Bool
  | operator op => op.isAdditive
  | _ => false

/-- Whether the kind is `*`, `/` or `%`. -/
def isMultiplicative : Kind → Bool
  | operator op => op.isMultiplicative
  | _ => false

/-- Whether the kind is `^`. -/
def isPower : Kind → Bool
  | operator .power => true
  | _ => false

/-- Whether an expression can begin with a token of this kind. -/
def startsExpression : Kind → Bool
  | literal _ | openParen => true
  | operator op => op.isAdditive
  | _ => false

end Token.Kind

/-- A token: its kind, the text it was written as, and the byte of the source where it starts. -/
structure Token where
  kind : Token.Kind
  text : String
  position : Nat
  deriving DecidableEq, Repr, Inhabited

namespace Token

/-- A token that needs no text, such as an operator or a parenthesis. -/
def symbol (kind : Kind) (position : Nat) : Token :=
  ⟨kind, "", position⟩

/-- The token as messages name it: numerals with their text, symbols in quotes. -/
def description (t : Token) : String :=
  match t.kind with
  | .literal form =>
    if form.isNumeral then form.name ++ " '" ++ t.text ++ "'" else "'" ++ form.name ++ "'"
  | .endOfInput => Kind.endOfInput.spelling
  | kind => "'" ++ kind.spelling ++ "'"

/-- The token moved to the start of the source. -/
def unplaced (t : Token) : Token :=
  { t with position := 0 }

/-- Two tokens say the same when they agree in kind and text, wherever they stand. -/
def Same (a b : Token) : Prop :=
  a.unplaced = b.unplaced

/-- Sameness is decided by comparing the tokens without their positions. -/
instance : DecidableRel Same := fun a b => inferInstanceAs (Decidable (a.unplaced = b.unplaced))

/-- Saying the same is agreement in kind and text. -/
theorem same_iff {a b : Token} : a.Same b ↔ a.kind = b.kind ∧ a.text = b.text := by
  simp [Same, unplaced]

end Token

end Calculator
