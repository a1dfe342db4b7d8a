import Calculator.Proofs.Acceptance
import Calculator.Proofs.Placement

/-!
# Trees written and read back

A tree in full parentheses is a source of one expression, and reading it gives the tree back. The
induction is on the tree, with the text after it left open: written out, a tree is an atom of the
grammar, a literal or a group, and after an atom every lexeme has ended where a blank or a closing
parenthesis follows. So neither the lexer nor a rule of the parser can take up more than the atom,
and the parentheses decide the shape before any precedence does.
-/

namespace Calculator

/-- The expression that is an atom alone. -/
def Derivation.alone (a : Derivation .atom) : Sentence :=
  .sum (.product (.unsigned (.bare a)) .noFactors) .noProducts

/-- The expression that is an atom with a sign. -/
def Derivation.withSign (sign : Token) (hsign : sign.kind.isAdditive = true)
    (a : Derivation .atom) : Sentence :=
  .sum (.product (.signed sign hsign (.bare a)) .noFactors) .noProducts

/-- An expression in parentheses that stand at the given places. -/
def Derivation.enclosed (d : Sentence) (p q : Nat) : Derivation .atom :=
  .group (.symbol .openParen p) rfl d (.symbol .closeParen q) rfl

/-- Two atoms with an operator between them are an expression, on whatever level the operator is. -/
theorem Derivation.exists_joining (a b : Derivation .atom) {op : Token}
    (hop : op.kind.isOperator = true) :
    ∃ d : Sentence, d.yield = a.yield ++ op :: b.yield ∧ d.tree = .binary op a.tree b.tree := by
  simp only [Token.Kind.isOperator_eq, Bool.or_eq_true] at hop
  rcases hop with (hadd | hmul) | hpow
  · exact ⟨.sum (.product (.unsigned (.bare a)) .noFactors)
      (.addProduct op hadd (.product (.unsigned (.bare b)) .noFactors) .noProducts),
      by simp [yield], rfl⟩
  · exact ⟨.sum (.product (.unsigned (.bare a))
      (.addFactor op hmul (.unsigned (.bare b)) .noFactors)) .noProducts, by simp [yield], rfl⟩
  · exact ⟨.sum (.product (.unsigned (.raised a op hpow (.bare b))) .noFactors) .noProducts,
      by simp [yield], rfl⟩

/-- An expression in parentheses is read as a group. -/
theorem Lexer.items_enclosed {inside : List Char} {d : Sentence} {p : Nat}
    (h : items ⟨inside, p + 1⟩ = d.yield.map .token) :
    items ⟨'(' :: (inside ++ [')']), p⟩ =
      (d.enclosed p (p + 1 + byteCount inside)).yield.map .token := by
  rw [items_parentheses, h, items_nil]
  simp [Derivation.enclosed, Derivation.yield]

/-- A tree in full parentheses is written as an atom of the grammar, and the tree of this atom is
the one that was written. -/
theorem Expr.WellFormed.items_render {e : Expr} (h : e.WellFormed) (p : Nat) :
    ∃ a : Derivation .atom, Lexer.items ⟨e.render.toList, p⟩ = a.yield.map .token ∧
      Expr.Same a.tree e := by
  induction e generalizing p with
  | leaf t =>
    obtain ⟨form, hkind, hspells⟩ := h
    have hw : t.kind.Spells t.text.toList := by rw [hkind]; exact hspells
    have hliteral : t.kind.isLiteral = true := by rw [hkind]; rfl
    refine ⟨.literal ⟨t.kind, t.text, p⟩ hliteral, ?_, Expr.same_leaf.mpr rfl⟩
    simpa [Expr.render, Derivation.yield, hliteral] using Lexer.items_of_lexeme hw p
  | signed t e ih =>
    obtain ⟨hkind, htext, he⟩ := h
    obtain ⟨op, hop, hsign⟩ : ∃ op, t.kind = .operator op ∧ t.kind.isAdditive = true := by
      rcases hkind with hkind | hkind <;> exact ⟨_, hkind, by rw [hkind]; rfl⟩
    obtain ⟨a, ha, hsame⟩ := ih he (p + 1 + op.symbol.utf8Size)
    let sign : Token := .symbol t.kind (p + 1)
    have hinside : Lexer.items ⟨op.symbol :: e.render.toList, p + 1⟩ =
        (Derivation.withSign sign hsign a).yield.map .token := by
      rw [Lexer.items_of_symbol (Token.Kind.ofSymbol?_symbol op), ha, ← hop]
      simp [Derivation.withSign, Derivation.yield, sign]
    have hrender : (Expr.signed t e).render.toList =
        '(' :: (op.symbol :: e.render.toList ++ [')']) := by
      simp [Expr.render, hop, Token.Kind.spelling]
    refine ⟨_, by rw [hrender]; exact Lexer.items_enclosed hinside, ?_⟩
    exact Expr.same_signed.mpr ⟨Token.same_iff.mpr ⟨rfl, htext.symm⟩, hsame⟩
  | binary t l r ihl ihr =>
    obtain ⟨⟨op, hop⟩, htext, hl, hr⟩ := h
    let place : Nat := p + 1 + byteCount l.render.toList + 1
    obtain ⟨a, ha, hleft⟩ := ihl hl (p + 1)
    obtain ⟨b, hb, hright⟩ := ihr hr (place + op.symbol.utf8Size + 1)
    have hoperator : (Token.symbol t.kind place).kind.isOperator = true := by
      simp [Token.symbol, hop, Token.Kind.isOperator]
    obtain ⟨d, hyield, htree⟩ := a.exists_joining b hoperator
    have hinside : Lexer.items
        ⟨l.render.toList ++ ' ' :: op.symbol :: ' ' :: r.render.toList, p + 1⟩ =
          d.yield.map .token := by
      rw [Lexer.items_spaced (Token.Kind.ofSymbol?_symbol op), ha, hb, hyield, ← hop]
      simp [place]
    have hrender : (Expr.binary t l r).render.toList =
        '(' :: (l.render.toList ++ ' ' :: op.symbol :: ' ' :: r.render.toList ++ [')']) := by
      simp [Expr.render, hop, Token.Kind.spelling]
    refine ⟨_, by rw [hrender]; exact Lexer.items_enclosed hinside, ?_⟩
    show Expr.Same d.tree (.binary t l r)
    rw [htree]
    exact Expr.same_binary.mpr ⟨Token.same_iff.mpr ⟨rfl, htext.symm⟩, hleft, hright⟩

/-- A well-formed tree that is written in full parentheses is read back: the next expression of
this source is the tree, up to where its tokens stand, and nothing follows it. The value of the
source is that of the tree. No two different trees are written alike. -/
theorem render_read_back (e : Expr) (h : e.WellFormed) :
    (∃ e' s s', Parser.next (.ofString e.render) = .ok (some e') s ∧ e'.Same e ∧
      Parser.next s = .ok none s') ∧
    (∃ x, e.value = .ok x ∧ evaluate e.render = .ok (some x)) ∧
    ∀ e₂ : Expr, e₂.WellFormed → e₂.render = e.render → e₂.Same e := by
  obtain ⟨a, hitems, hsame⟩ := h.items_render 0
  have hsentence : (Lexer.ofString e.render).items = a.alone.yield.map .token := by
    simpa [Lexer.ofString, Derivation.alone, Derivation.yield] using hitems
  refine ⟨?_, ?_, ?_⟩
  · have hs := Cursor.shows_ofString e.render
    rw [hsentence, ← List.append_nil (List.map _ _)] at hs
    obtain ⟨s, hnext, hshows⟩ := Parser.next_of_sentence hs (by simp [Follows])
    obtain ⟨s', hend, -⟩ := Parser.next_nil hshows
    exact ⟨a.tree, s, s', hnext, hsame, hend⟩
  · obtain ⟨x, hx, hvalue⟩ := evaluate_of_sentence hsentence
    exact ⟨x, hsame.value_eq.symm.trans hx, hvalue⟩
  · intro e₂ h₂ hrender
    obtain ⟨a₂, hitems₂, hsame₂⟩ := h₂.items_render 0
    rw [hrender, hitems] at hitems₂
    obtain rfl : a = a₂ := Derivation.yield_injective (Item.eq_of_map_token hitems₂)
    exact hsame₂.symm.trans hsame

/-- The sign inside the base of a power stays there, and the word keeps its letter case. -/
theorem render_read_back_power :
    ∃ e' s s', Parser.next (.ofString "((-2) ^ nAn)") = .ok (some e') s ∧
      e'.Same (.binary ⟨.operator .power, "", 1⟩
        (.signed ⟨.operator .minus, "", 8⟩ (.leaf ⟨.literal .integer, "2", 5⟩))
        (.leaf ⟨.literal .nan, "nAn", 5⟩)) ∧
      Parser.next s = .ok none s' := by
  have htwo : (Token.Kind.literal .integer).Spells "2".toList :=
    Lexeme.spells_iff_first?.mpr (by decide +kernel)
  have hnan : (Token.Kind.literal .nan).Spells "nAn".toList :=
    Lexeme.spells_iff_first?.mpr (by decide +kernel)
  let e : Expr := .binary ⟨.operator .power, "", 1⟩
    (.signed ⟨.operator .minus, "", 8⟩ (.leaf ⟨.literal .integer, "2", 5⟩))
    (.leaf ⟨.literal .nan, "nAn", 5⟩)
  have hwellFormed : e.WellFormed :=
    ⟨⟨.power, rfl⟩, rfl, ⟨.inr rfl, rfl, .integer, rfl, htwo⟩, .nan, rfl, hnan⟩
  have hrender : e.render = "((-2) ^ nAn)" := by decide +kernel
  rw [← hrender]
  exact (render_read_back e hwellFormed).1

end Calculator
