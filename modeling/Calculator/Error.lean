import Calculator.Token

/-!
# Errors

What can go wrong between a source and its values, one type for each stage: a character that
begins no lexeme, a token the grammar does not allow where it stands, and a tree that has no
value. `Error` joins them, and `message` is the only place that words them.
-/

namespace Calculator

/-- A source that does not follow the grammar, with a description of what would have. -/
inductive SyntaxError where
  | unexpectedToken (expected : String) (found : Token)
  | unexpectedEnd (expected : String) (position : Nat)
  deriving DecidableEq, Repr, Inhabited

namespace SyntaxError

/-- The error of finding a token where something else was expected; the end mark has its own. -/
def unexpected (expected : String) (found : Token) : SyntaxError :=
  if found.kind = .endOfInput then .unexpectedEnd expected found.position
  else .unexpectedToken expected found

/-- The text of the error. -/
def message : SyntaxError → String
  | unexpectedToken expected found =>
    "Error at position " ++ found.position.repr ++ ": Expected " ++ expected ++ ", found " ++
      found.description ++ "."
  | unexpectedEnd expected position =>
    "Error at position " ++ position.repr ++ ": Expected " ++ expected ++ ", found end of input."

end SyntaxError

/-- A node of a tree that has no value, whatever its operands are. -/
inductive EvalError where
  | unknownLeaf (kind : Token.Kind)
  | unknownSign (kind : Token.Kind)
  | unknownOperator (kind : Token.Kind)
  | malformedLiteral (text : String)
  deriving DecidableEq, Repr, Inhabited

namespace EvalError

/-- The text of the error. -/
def message : EvalError → String
  | unknownLeaf kind => "Unable to evaluate: unknown factor kind " ++ kind.spelling ++ "."
  | unknownSign kind => "Unable to evaluate: unknown unary operator " ++ kind.spelling ++ "."
  | unknownOperator kind => "Unable to evaluate: unknown binary operator " ++ kind.spelling ++ "."
  | malformedLiteral text => "Unable to evaluate: malformed numeric literal '" ++ text ++ "'."

end EvalError

/-- Any error of an evaluation. -/
inductive Error where
  | strayCharacter (character : Char) (position : Nat)
  | parsing (error : SyntaxError)
  | evaluation (error : EvalError)
  deriving DecidableEq, Repr, Inhabited

namespace Error

/-- The text of the error. -/
def message : Error → String
  | strayCharacter character position =>
    "Error at position " ++ position.repr ++ ": Unrecognized character '" ++
      character.toString ++ "'."
  | parsing error => error.message
  | evaluation error => error.message

/-- The error with the token it found moved to the start of the source. The position of a stray
character and that of the end of the input are part of what those errors say, and stay. -/
def unplaced : Error → Error
  | parsing (.unexpectedToken expected found) => parsing (.unexpectedToken expected found.unplaced)
  | error => error

end Error

end Calculator
