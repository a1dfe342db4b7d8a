import Calculator.Proofs.Groups
import Calculator.Proofs.Rendering

/-!
# Sources put together from sources

A source of one expression, in parentheses, is an atom of the grammar, whatever the source is and
wherever it stands: its items end where the closing parenthesis begins, and they are the tokens of a
sentence. So two such sources can be joined by an operator or put under a sign without a look at
what is inside, and the value is that of the operator or the sign on their values. Parentheses alone
change nothing, however many there are.

`Spaced` is a text of given pieces with any blanks around them. What the pieces deliver is read off
one piece, or one group of pieces, after the other.
-/

namespace Calculator

/-- A text that is made up of pieces in order, with any blanks before, between and after them. -/
inductive Spaced : List String → String → Prop
  | nil (gap : String) (hgap : ∀ c ∈ gap.toList, isBlank c = true) : Spaced [] gap
  | cons (gap piece : String) {rest : String} {pieces : List String}
      (hgap : ∀ c ∈ gap.toList, isBlank c = true) (hrest : Spaced pieces rest) :
      Spaced (piece :: pieces) (gap ++ piece ++ rest)

/-- A text inside a number of pairs of parentheses, with any blanks around each of them. -/
inductive Enclosed (text : String) : Nat → String → Prop
  | bare {source : String} (h : Spaced [text] source) : Enclosed text 0 source
  | pair {n : Nat} {inside source : String} (hinside : Enclosed text n inside)
      (h : Spaced ["(", inside, ")"] source) : Enclosed text (n + 1) source

variable {source text : String} {pieces : List String} {e : Expr} {x : Float}

/-- A source that is accepted is, wherever it stands, a sentence whose tree says the same. -/
theorem Parser.Accepts.exists_sentence (h : Accepts source e) (p : Nat) :
    ∃ d : Sentence, Lexer.items ⟨source.toList, p⟩ = d.yield.map .token ∧
      Expr.Same d.tree e := by
  obtain ⟨d, hitems, rfl⟩ := accepts_iff.mp h
  exact exists_sentence_at (Expr.congruent_same (· + p)) hitems

namespace Spaced

/-- The first piece of a text is there after some blanks, and the others are after it. -/
theorem exists_rest {piece : String} (h : Spaced (piece :: pieces) source) :
    ∃ (gap : List Char) (rest : String), source.toList = gap ++ (piece.toList ++ rest.toList) ∧
      (∀ c ∈ gap, isBlank c = true) ∧ Spaced pieces rest := by
  cases h with
  | @cons gap _ rest _ hgap hrest =>
    exact ⟨gap.toList, rest, by simp [String.toList_append], hgap, hrest⟩

/-- A text ends the lexemes before it when its pieces do. -/
theorem endsLexeme_head (h : Spaced pieces source)
    (hpieces : ∀ c ∈ (pieces.flatMap String.toList).head?, endsLexeme c = true) :
    ∀ c ∈ source.toList.head?, endsLexeme c = true := by
  induction h with
  | nil gap hgap => exact fun c hc => endsLexeme_of_isBlank (hgap c (List.mem_of_mem_head? hc))
  | @cons gap piece rest pieces hgap hrest ih =>
    intro c hc
    rw [String.toList_append, String.toList_append] at hc
    cases hfirst : gap.toList with
    | cons c' cs =>
      obtain rfl : c' = c := by simpa [hfirst] using hc
      exact endsLexeme_of_isBlank (hgap c' (by simp [hfirst]))
    | nil =>
      cases hpiece : piece.toList with
      | cons c' cs => exact hpieces c (by simpa [hfirst, hpiece] using hc)
      | nil =>
        exact ih (by simpa [hpiece] using hpieces) c (by simpa [hfirst, hpiece] using hc)

/-- A text without pieces has no items. -/
theorem items_nil (h : Spaced [] source) (p : Nat) : Lexer.items ⟨source.toList, p⟩ = [] := by
  cases h with
  | nil _ hgap => exact Lexer.items_of_none (Lexer.next?_eq_none_iff.mpr hgap)

/-- The items of the first piece come first when the next piece ends the lexemes before it. -/
theorem items_cons {piece : String} (h : Spaced (piece :: pieces) source)
    (hpieces : ∀ c ∈ (pieces.flatMap String.toList).head?, endsLexeme c = true) :
    ∃ rest, Spaced pieces rest ∧ ∀ p, ∃ q r, Lexer.items ⟨source.toList, p⟩ =
      Lexer.items ⟨piece.toList, q⟩ ++ Lexer.items ⟨rest.toList, r⟩ := by
  obtain ⟨gap, rest, hsource, hgap, hrest⟩ := h.exists_rest
  refine ⟨rest, hrest, fun p => ⟨p + byteCount gap, p + byteCount gap + byteCount piece.toList, ?_⟩⟩
  rw [hsource, Lexer.items_blanks hgap, Lexer.items_append (hrest.endsLexeme_head hpieces)]

/-- A symbol is one item, whatever the next piece is. -/
theorem items_symbol {c : Char} {kind : Token.Kind} (hc : Token.Kind.ofSymbol? c = some kind)
    (h : Spaced (c.toString :: pieces) source) :
    ∃ rest, Spaced pieces rest ∧ ∀ p, ∃ q r, Lexer.items ⟨source.toList, p⟩ =
      .token (.symbol kind q) :: Lexer.items ⟨rest.toList, r⟩ := by
  obtain ⟨gap, rest, hsource, hgap, hrest⟩ := h.exists_rest
  refine ⟨rest, hrest, fun p => ⟨p + byteCount gap, p + byteCount gap + c.utf8Size, ?_⟩⟩
  have hsymbol : c.toString.toList = [c] := by simp
  rw [hsource, Lexer.items_blanks hgap, hsymbol, List.singleton_append, Lexer.items_of_symbol hc]

/-- A source that is accepted is an atom when it is in parentheses, whatever the next piece is. -/
theorem items_group (ha : Parser.Accepts text e)
    (h : Spaced ("(" :: text :: ")" :: pieces) source) :
    ∃ rest, Spaced pieces rest ∧ ∀ p, ∃ (a : Derivation .atom) (r : Nat),
      Lexer.items ⟨source.toList, p⟩ =
        a.yield.map .token ++ Lexer.items ⟨rest.toList, r⟩ ∧ Expr.Same a.tree e := by
  obtain ⟨_, hinside, hopening⟩ := h.items_symbol (c := '(') rfl
  obtain ⟨_, hend, htext⟩ := hinside.items_cons (by simp [endsLexeme, Token.Kind.ofSymbol?])
  obtain ⟨rest, hrest, hclosing⟩ := hend.items_symbol (c := ')') rfl
  refine ⟨rest, hrest, fun p => ?_⟩
  obtain ⟨opening, q, hfirst⟩ := hopening p
  obtain ⟨q₁, q₂, hsecond⟩ := htext q
  obtain ⟨closing, r, hlast⟩ := hclosing q₂
  obtain ⟨d, hitems, hsame⟩ := ha.exists_sentence q₁
  refine ⟨d.enclosed opening closing, r, ?_, hsame⟩
  rw [hfirst, hsecond, hlast, hitems]
  simp [Derivation.enclosed, Derivation.yield]

end Spaced

/-- A source that is made of two groups and an operator is accepted with the operator's tree. -/
theorem Parser.Accepts.joined {a b : String} {l r : Expr} (ha : Accepts a l) (hb : Accepts b r)
    {op : Operator} (h : Spaced ["(", a, ")", op.symbol.toString, "(", b, ")"] source) :
    ∃ t l' r', Accepts source (.binary t l' r') ∧ t.kind = .operator op ∧ l'.Same l ∧
      r'.Same r := by
  obtain ⟨_, hlater, hleft⟩ := h.items_group ha
  obtain ⟨_, hlast, hop⟩ := hlater.items_symbol (Token.Kind.ofSymbol?_symbol op)
  obtain ⟨_, hend, hright⟩ := hlast.items_group hb
  obtain ⟨l', q, hitems, hl⟩ := hleft 0
  obtain ⟨p, q₁, hitems₁⟩ := hop q
  obtain ⟨r', q₂, hitems₂, hr⟩ := hright q₁
  have hoperator : (Token.symbol (.operator op) p).kind.isOperator = true := rfl
  obtain ⟨d, hyield, htree⟩ := l'.exists_joining r' hoperator
  refine ⟨_, _, _, accepts_iff.mpr ⟨d, ?_, htree⟩, rfl, hl, hr⟩
  rw [Lexer.ofString, hitems, hitems₁, hitems₂, hend.items_nil, hyield]
  simp

/-- A source that is made of a sign and a group is accepted with the tree of the sign. -/
theorem Parser.Accepts.signed {a : String} {operand : Expr} (ha : Accepts a operand)
    {sign : Operator} (hsign : sign.isAdditive = true)
    (h : Spaced [sign.symbol.toString, "(", a, ")"] source) :
    ∃ t operand', Accepts source (.signed t operand') ∧ t.kind = .operator sign ∧
      operand'.Same operand := by
  obtain ⟨_, hlater, hfirst⟩ := h.items_symbol (Token.Kind.ofSymbol?_symbol sign)
  obtain ⟨_, hend, hgroup⟩ := hlater.items_group ha
  obtain ⟨p, q, hitems⟩ := hfirst 0
  obtain ⟨a', q₁, hitems₁, hsame⟩ := hgroup q
  let t : Token := .symbol (.operator sign) p
  refine ⟨t, a'.tree, accepts_iff.mpr ⟨.withSign t hsign a', ?_, rfl⟩, rfl, hsame⟩
  rw [Lexer.ofString, hitems, hitems₁, hend.items_nil]
  simp [Derivation.withSign, Derivation.yield, t]

/-- A source stays accepted in any number of parentheses, and its tree says the same. -/
theorem Enclosed.accepts {n : Nat} (h : Enclosed text n source) (htext : Parser.Accepts text e) :
    ∃ e', Parser.Accepts source e' ∧ e'.Same e := by
  induction h with
  | @bare source h =>
    obtain ⟨_, hend, hitems⟩ := h.items_cons (by simp)
    obtain ⟨p, q, hitems⟩ := hitems 0
    obtain ⟨d, hsentence, hsame⟩ := htext.exists_sentence p
    refine ⟨d.tree, Parser.accepts_iff.mpr ⟨d, ?_, rfl⟩, hsame⟩
    rw [Lexer.ofString, hitems, hend.items_nil, hsentence, List.append_nil]
  | @pair n inside source _ h ih =>
    obtain ⟨e', haccepts, hsame⟩ := ih
    obtain ⟨_, hend, hitems⟩ := h.items_group haccepts
    obtain ⟨a, q, hitems, hsame'⟩ := hitems 0
    refine ⟨a.tree, Parser.accepts_iff.mpr ⟨a.alone, ?_, rfl⟩, hsame'.trans hsame⟩
    rw [Lexer.ofString, hitems, hend.items_nil]
    simp [Derivation.alone, Derivation.yield]

/-- A source has a value exactly when it is accepted with a tree of this value. -/
theorem evaluate_eq_some_iff_accepts :
    evaluate source = .ok (some x) ↔ ∃ e, Parser.Accepts source e ∧ e.value = .ok x := by
  rw [evaluate_eq_some_iff]
  constructor
  · intro h
    obtain ⟨d, hitems, hx⟩ := h
    exact ⟨d.tree, Parser.accepts_iff.mpr ⟨d, hitems, rfl⟩, hx⟩
  · intro h
    obtain ⟨e, haccepts, hx⟩ := h
    obtain ⟨d, hitems, rfl⟩ := Parser.accepts_iff.mp haccepts
    exact ⟨d, hitems, hx⟩

/-- Two sources in parentheses with an operator between them are a source of the value that the
operator has on their values. So it is with a sign before one of them, and parentheses alone keep
the value and the tree. -/
theorem evaluate_compositional (a b : String) (x y : Float) (ha : evaluate a = .ok (some x))
    (hb : evaluate b = .ok (some y)) :
    (∀ (op : Operator) (source : String),
      Spaced ["(", a, ")", op.symbol.toString, "(", b, ")"] source →
        ∃ z, (Token.Kind.operator op).applyBinary x y = .ok z ∧
          evaluate source = .ok (some z)) ∧
    (∀ (sign : Operator) (source : String), sign = .plus ∨ sign = .minus →
      Spaced [sign.symbol.toString, "(", a, ")"] source →
        ∃ z, (Token.Kind.operator sign).applySign x = .ok z ∧ evaluate source = .ok (some z)) ∧
    ∀ (n : Nat) (source : String), Enclosed a n source →
      evaluate source = .ok (some x) ∧
        ∃ e e', Parser.Accepts a e ∧ Parser.Accepts source e' ∧ e'.Same e := by
  obtain ⟨l, hl, hx⟩ := evaluate_eq_some_iff_accepts.mp ha
  obtain ⟨r, hr, hy⟩ := evaluate_eq_some_iff_accepts.mp hb
  refine ⟨fun op source h => ?_, fun sign source hsign h => ?_, fun n source h => ?_⟩
  · obtain ⟨t, l', r', haccepts, hkind, hleft, hright⟩ := hl.joined hr h
    refine ⟨op.apply x y, rfl, evaluate_eq_some_iff_accepts.mpr ⟨_, haccepts, ?_⟩⟩
    simp only [Expr.value, hleft.value_eq, hright.value_eq, hx, hy, hkind]
    rfl
  · have hadditive : sign.isAdditive = true := by
      rcases hsign with rfl | rfl <;> rfl
    obtain ⟨t, operand, haccepts, hkind, hsame⟩ := hl.signed hadditive h
    obtain ⟨z, hz⟩ : ∃ z, (Token.Kind.operator sign).applySign x = .ok z := by
      rcases hsign with rfl | rfl <;> exact ⟨_, rfl⟩
    refine ⟨z, hz, evaluate_eq_some_iff_accepts.mpr ⟨_, haccepts, ?_⟩⟩
    simp only [Expr.value, hsame.value_eq, hx, hkind]
    exact hz
  · obtain ⟨e', haccepts, hsame⟩ := h.accepts hl
    exact ⟨evaluate_eq_some_iff_accepts.mpr ⟨e', haccepts, hsame.value_eq.trans hx⟩,
      l, e', hl, haccepts, hsame⟩

/-- Two sources joined by a minus, the first one in two pairs of parentheses. -/
theorem evaluate_compositional_minus :
    ∃ x y z, evaluate "-1" = .ok (some x) ∧ evaluate "2" = .ok (some y) ∧
      (Token.Kind.operator .minus).applyBinary x y = .ok z ∧
      evaluate "((-1)\t) - (2 )" = .ok (some z) := by
  let x : Float := -Magnitude.toFloat false (Magnitude.nearest 1 1)
  let y : Float := Magnitude.toFloat false (Magnitude.nearest 2 1)
  have hone : evaluate "-1" = .ok (some x) := by decide +kernel
  have htwo : evaluate "2" = .ok (some y) := by decide +kernel
  have hnone : ∀ c ∈ "".toList, isBlank c = true := by simp
  have hspace : ∀ c ∈ " ".toList, isBlank c = true := by simp [isBlank]
  have htab : ∀ c ∈ "\t".toList, isBlank c = true := by simp [isBlank]
  have hbare : Enclosed "-1" 0 "-1" := .bare (.cons "" "-1" hnone (.nil "" hnone))
  have hpair : Enclosed "-1" 1 "(-1)\t" :=
    .pair hbare (.cons "" "(" hnone (.cons "" "-1" hnone (.cons "" ")" hnone (.nil "\t" htab))))
  have hinside : evaluate "(-1)\t" = .ok (some x) :=
    ((evaluate_compositional "-1" "2" x y hone htwo).2.2 1 _ hpair).1
  have hjoined : Spaced ["(", "(-1)\t", ")", "-", "(", "2", ")"] "((-1)\t) - (2 )" :=
    .cons "" "(" hnone (.cons "" "(-1)\t" hnone (.cons "" ")" hnone (.cons " " "-" hspace
      (.cons " " "(" hspace (.cons "" "2" hnone (.cons " " ")" hspace (.nil "" hnone)))))))
  obtain ⟨z, hz, hvalue⟩ :=
    (evaluate_compositional "(-1)\t" "2" x y hinside htwo).1 .minus _ hjoined
  exact ⟨x, y, z, hone, htwo, hz, hvalue⟩

/-- The text between the first and the last parenthesis of a source need not be a source itself. -/
example :
    (evaluate "(1) + (2)").isOk = true ∧
      evaluate "1) + (2" = .error (.parsing (.unexpectedToken "an operator or end of input"
        (.symbol .closeParen 1))) := by
  decide +kernel

end Calculator
