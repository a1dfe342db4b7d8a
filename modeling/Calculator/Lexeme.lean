import Calculator.Token

/-!
# Lexemes

How a source text is cut into lexemes. At a character that is not blank the longest lexeme is
taken: a run of digits, extended over a dot and more digits when at least one digit follows the
dot; one of the words `nan` and `infinity`, in any letter case and with no regard to what
follows; or one of the eight symbols. Digits, letters and blanks are those of ASCII alone.

`Lexeme.first?` answers with the kind of the lexeme and the number of its characters. No two of
the classes share a first character, so the order in which they are tried does not matter.
-/

namespace Calculator

/-- The characters that separate lexemes: space, tab, carriage return, line feed, form feed. -/
def isBlank (c : Char) : Bool :=
  c == ' ' || c == '\t' || c == '\r' || c == '\n' || c == '\x0c'

/-- The number of bytes a text takes in UTF-8. -/
def byteCount : List Char → Nat
  | [] => 0
  | c :: cs => c.utf8Size + byteCount cs

/-- The bytes of a text add up over its parts. -/
theorem byteCount_append (cs ds : List Char) :
    byteCount (cs ++ ds) = byteCount cs + byteCount ds := by
  induction cs with
  | nil => simp [byteCount]
  | cons c cs ih => simp [byteCount, ih, Nat.add_assoc]

/-- The bytes of a string are the bytes of its characters. -/
theorem byteCount_toList (s : String) : byteCount s.toList = s.utf8ByteSize := by
  have encoded (cs : List Char) : byteCount cs = (String.ofList cs).utf8ByteSize := by
    induction cs with
    | nil => simp [byteCount]
    | cons c cs ih => simp [byteCount, ih, String.ofList_cons, String.utf8ByteSize_append]
  simpa using encoded s.toList

/-- The kind of the symbol that a character is. -/
def Token.Kind.ofSymbol? : Char → Option Token.Kind
  | '+' => some (.operator .plus)
  | '-' => some (.operator .minus)
  | '*' => some (.operator .times)
  | '/' => some (.operator .divide)
  | '%' => some (.operator .modulo)
  | '^' => some (.operator .power)
  | '(' => some .openParen
  | ')' => some .closeParen
  | _ => none

/-- The symbol of an operator is read as that operator. -/
theorem Token.Kind.ofSymbol?_symbol (op : Operator) : ofSymbol? op.symbol = some (operator op) := by
  cases op <;> rfl

namespace Lexeme

/-- The number of digits a text begins with. -/
def digitCount (cs : List Char) : Nat :=
  (cs.takeWhile Char.isDigit).length

/-- The length of the dot and digits a text begins with; nothing when no digit follows the dot. -/
def fractionLength : List Char → Nat
  | '.' :: cs => if digitCount cs = 0 then 0 else digitCount cs + 1
  | _ => 0

/-- The numeral a text begins with. -/
def numeral? (cs : List Char) : Option (Token.Kind × Nat) :=
  let whole := digitCount cs
  let fraction := fractionLength (cs.drop whole)
  if whole = 0 then none
  else if fraction = 0 then some (.literal .integer, whole)
  else some (.literal .decimal, whole + fraction)

/-- Whether a text begins with a word, given in small letters, in any letter case. -/
def beginsWith (word cs : List Char) : Bool :=
  (cs.take word.length).map Char.toLower == word

/-- The small letters of `NaN`. -/
def nanWord : List Char :=
  ['n', 'a', 'n']

/-- The small letters of `Infinity`. -/
def infinityWord : List Char :=
  ['i', 'n', 'f', 'i', 'n', 'i', 't', 'y']

/-- The word a text begins with. -/
def word? (cs : List Char) : Option (Token.Kind × Nat) :=
  if beginsWith nanWord cs then some (.literal .nan, nanWord.length)
  else if beginsWith infinityWord cs then some (.literal .infinity, infinityWord.length)
  else none

/-- The symbol a text begins with. -/
def symbol? : List Char → Option (Token.Kind × Nat)
  | [] => none
  | c :: _ => (Token.Kind.ofSymbol? c).map (·, 1)

/-- The lexeme a text begins with: its kind and its length in characters. -/
def first? (cs : List Char) : Option (Token.Kind × Nat) :=
  numeral? cs <|> word? cs <|> symbol? cs

/-- A lexeme has at least one character. -/
theorem first?_pos {cs : List Char} {kind : Token.Kind} {n : Nat}
    (h : first? cs = some (kind, n)) : 0 < n := by
  simp only [first?, Option.orElse_eq_orElse, Option.orElse_eq_or, Option.or_eq_some_iff] at h
  rcases h with h | ⟨-, h | ⟨-, h⟩⟩
  · simp only [numeral?] at h
    split at h
    · simp at h
    · split at h <;> simp at h <;> omega
  · simp only [word?] at h
    split at h
    · simp [nanWord] at h; omega
    · split at h <;> simp [infinityWord] at h
      omega
  · cases cs with
    | nil => simp [symbol?] at h
    | cons c cs => simp [symbol?] at h; omega

/-- No lexeme stands for the end of the input. -/
theorem first?_ne_endOfInput {cs : List Char} {kind : Token.Kind} {n : Nat}
    (h : first? cs = some (kind, n)) : kind ≠ .endOfInput := by
  simp only [first?, Option.orElse_eq_orElse, Option.orElse_eq_or, Option.or_eq_some_iff] at h
  rcases h with h | ⟨-, h | ⟨-, h⟩⟩
  · simp only [numeral?] at h
    split at h
    · simp at h
    · split at h <;> simp at h <;> simp [← h.1]
  · simp only [word?] at h
    split at h
    · simp at h; simp [← h.1]
    · split at h <;> simp at h
      simp [← h.1]
  · cases cs with
    | nil => simp [symbol?] at h
    | cons c cs =>
      simp only [symbol?, Option.map_eq_some_iff, Prod.mk.injEq] at h
      obtain ⟨k, hk, rfl, -⟩ := h
      simp only [Token.Kind.ofSymbol?] at hk
      split at hk <;> simp at hk <;> simp [← hk]

end Lexeme

end Calculator
