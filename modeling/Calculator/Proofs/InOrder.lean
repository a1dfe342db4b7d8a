import Calculator.Proofs.OnePass
import Calculator.Proofs.Outside
import Calculator.Proofs.Tiling

/-!
# Every token is in one tree

A tree has the tokens of the text it was read from, in the order in which they stand there. Only the
parentheses are missing, and these are balanced. So the trees of a source, one after another, hold
all that its lexer delivers but the parentheses: no token is lost, none is in two places, and none
has changed places with another one.

The induction is on derivations. The end of a repetition adds its tokens to those of the tree before
it. A call takes the tokens of one phrase from the unread items and leaves the token after them to
be looked at again, so the calls of a whole run share out the items among the trees.
-/

namespace Calculator

/-- The tokens of a tree from left to right: an operator stands between its operands, and a sign
before its operand. -/
def Expr.tokens : Expr → List Token
  | leaf t => [t]
  | signed t e => t :: e.tokens
  | binary t l r => l.tokens ++ t :: r.tokens

/-- Whether the kind is one of the parentheses. -/
def Token.Kind.isParenthesis : Token.Kind → Bool
  | openParen | closeParen => true
  | _ => false

/-- The parentheses of a text. -/
def parentheses (w : List Token) : List Token :=
  w.filter fun t => t.kind.isParenthesis

/-- A text without its parentheses. -/
def withoutParentheses (w : List Token) : List Token :=
  w.filter fun t => !t.kind.isParenthesis

/-- Every group of a text that is opened is closed, and none is closed before it is opened. -/
def Balanced (w : List Token) : Prop :=
  openGroups w = 0 ∧ ∀ before, before <+: w → 0 ≤ openGroups before

/-- A tree has all tokens of a text in their order, except for parentheses, which are balanced. -/
structure Expr.MadeOf (e : Expr) (w : List Token) : Prop where
  tokens : e.tokens = withoutParentheses w
  balanced : Balanced (parentheses w)

/-- A tree has the given tokens; what stands for the end of a repetition adds them to those of the
tree before it. -/
def Nonterminal.Adds : (n : Nonterminal) → n.Meaning → List Token → Prop
  | .products, f, w | .factors, f, w => ∀ left : Expr, (f left).tokens = left.tokens ++ w
  | .sum, e, w | .product, e, w | .signed, e, w | .power, e, w | .atom, e, w => e.tokens = w

variable {w w' before : List Token} {t : Token} {n : Nonterminal} {s s' : Cursor} {mark : Token}
  {u : List Item} {e : Expr} {es : List Expr}

/-- An operator is no parenthesis. -/
theorem Token.Kind.isParenthesis_of_isOperator {k : Token.Kind} (h : k.isOperator = true) :
    k.isParenthesis = false := by
  cases k <;> simp_all [isOperator, isParenthesis]

/-- A literal is no parenthesis. -/
theorem Token.Kind.isParenthesis_of_isLiteral {k : Token.Kind} (h : k.isLiteral = true) :
    k.isParenthesis = false := by
  cases k <;> simp_all [isLiteral, isParenthesis]

/-- What is no parenthesis opens and closes no group. -/
theorem Token.Kind.opened_of_isParenthesis {k : Token.Kind} (h : k.isParenthesis = false) :
    k.opened = 0 := by
  cases k <;> simp_all [isParenthesis, opened]

/-- An empty text has nothing to be taken out. -/
@[simp] theorem withoutParentheses_nil : withoutParentheses [] = [] := rfl

/-- Parentheses are taken out of two texts one after the other. -/
@[simp] theorem withoutParentheses_append :
    withoutParentheses (w ++ w') = withoutParentheses w ++ withoutParentheses w' :=
  List.filter_append ..

/-- A parenthesis is taken out. -/
theorem withoutParentheses_cons_of_isParenthesis (h : t.kind.isParenthesis = true) :
    withoutParentheses (t :: w) = withoutParentheses w :=
  List.filter_cons_of_neg (by simp [h])

/-- Any other token stays. -/
theorem withoutParentheses_cons (h : t.kind.isParenthesis = false) :
    withoutParentheses (t :: w) = t :: withoutParentheses w :=
  List.filter_cons_of_pos (by simp [h])

/-- Groups are counted by the parentheses alone. -/
theorem openGroups_parentheses (w : List Token) : openGroups (parentheses w) = openGroups w := by
  induction w with
  | nil => rfl
  | cons t w ih =>
    cases ht : t.kind.isParenthesis with
    | true =>
      have hcons : parentheses (t :: w) = t :: parentheses w := List.filter_cons_of_pos ht
      rw [hcons, openGroups_cons, openGroups_cons, ih]
    | false =>
      have hcons : parentheses (t :: w) = parentheses w := List.filter_cons_of_neg (by simp [ht])
      rw [hcons, openGroups_cons, Token.Kind.opened_of_isParenthesis ht, ih, Int.zero_add]

namespace Derivation

/-- The tree of a phrase has the tokens of the phrase in their order, without the parentheses. -/
theorem tokens_tree (d : Derivation n) : n.Adds d.tree (withoutParentheses d.yield) := by
  induction d with
  | sum first more ihFirst ihMore | product first more ihFirst ihMore =>
    have hfirst : Expr.tokens first.tree = withoutParentheses first.yield := ihFirst
    have hmore : (more.tree first.tree).tokens =
        Expr.tokens first.tree ++ withoutParentheses more.yield := ihMore _
    rw [yield, withoutParentheses_append, ← hfirst]
    exact hmore
  | noProducts | noFactors => exact fun left => (List.append_nil _).symm
  | addProduct op hop next more ihNext ihMore | addFactor op hop next more ihNext ihMore =>
    intro left
    have hkind := Token.Kind.isParenthesis_of_isOperator (k := op.kind) (by
      simp [Token.Kind.isOperator_eq, hop])
    have hnext : Expr.tokens next.tree = withoutParentheses next.yield := ihNext
    have hmore := ihMore (.binary op left next.tree)
    rw [yield, withoutParentheses_cons hkind, withoutParentheses_append, ← hnext]
    refine hmore.trans ?_
    rw [Expr.tokens, List.append_assoc, List.cons_append]
  | unsigned operand ih | bare base ih => exact ih
  | signed sign hsign operand ih =>
    have hkind := Token.Kind.isParenthesis_of_isOperator
      (Token.Kind.isOperator_of_isAdditive hsign)
    rw [yield, withoutParentheses_cons hkind]
    exact congrArg (sign :: ·) ih
  | raised base op hop exponent ihBase ihExponent =>
    have hkind := Token.Kind.isParenthesis_of_isOperator (Token.Kind.isOperator_of_isPower hop)
    rw [yield, withoutParentheses_append, withoutParentheses_cons hkind]
    exact congrArg₂ (· ++ op :: ·) ihBase ihExponent
  | literal t ht =>
    rw [yield, withoutParentheses_cons (Token.Kind.isParenthesis_of_isLiteral ht)]
    rfl
  | group opening hopening inner closing hclosing ih =>
    have hopen : opening.kind.isParenthesis = true := by rw [hopening]; rfl
    have hclose : closing.kind.isParenthesis = true := by rw [hclosing]; rfl
    rw [yield, withoutParentheses_cons_of_isParenthesis hopen, withoutParentheses_append,
      withoutParentheses_cons_of_isParenthesis hclose, withoutParentheses_nil, List.append_nil]
    exact ih

/-- The parentheses of a phrase are balanced. -/
theorem balanced_parentheses (d : Derivation n) : Balanced (parentheses d.yield) := by
  refine ⟨by rw [openGroups_parentheses, d.openGroups_yield], fun before hbefore => ?_⟩
  -- what is before a parenthesis among the parentheses are those before it in the phrase
  obtain ⟨after, hsplit⟩ := hbefore
  obtain ⟨begun, rest, hyield, hbegun, -⟩ := List.filter_eq_append_iff.mp hsplit.symm
  have hnonneg := d.openGroups_nonneg ⟨rest, hyield.symm⟩
  rw [← openGroups_parentheses] at hnonneg
  exact hbegun ▸ hnonneg

/-- The tree of an expression is made of the tokens of the expression. -/
theorem madeOf (d : Sentence) : Expr.MadeOf d.tree d.yield :=
  ⟨d.tokens_tree, d.balanced_parentheses⟩

end Derivation

/-- Every item that a lexer delivers stands after the one before it. -/
theorem Lexer.pairwise_position (l : Lexer) :
    l.items.Pairwise fun item item' => item.position < item'.position := by
  obtain ⟨xs, htiles, hitems⟩ := l.exists_tiles
  rw [hitems, List.pairwise_map]
  exact htiles.pairwise_position

/-- The tokens of a tree stand one after another when they are among the items of a lexer. -/
theorem Expr.MadeOf.pairwise_position {l : Lexer} (h : e.MadeOf w)
    (hitems : (w.map Item.token).Sublist l.items) :
    e.tokens.Pairwise fun t t' => t.position < t'.position := by
  rw [h.tokens]
  have hpositions := l.pairwise_position.sublist hitems
  rw [List.pairwise_map] at hpositions
  exact hpositions.filter _

namespace Parser

/-- A call that answers with a tree takes the tokens the tree is made of, and it leaves the token
after them looked at. -/
theorem next_takes (hs : s.Shows mark u) (h : next.answer s = .ok (some e)) :
    ∃ (w : List Token) (later : List Item) (t : Token), u = w.map .token ++ later ∧
      (leave next s).Shows mark later ∧ (leave next s).lookahead = some t ∧
      nextItem mark later = .token t ∧ e.MadeOf w := by
  have hout := next_outcome hs
  simp only [answer, leave] at h ⊢
  generalize hnext : next s = x at hout h
  cases hout with
  | nothing => simp at h
  | fault => simp at h
  | @sentence s' d later hu hfollows hshows =>
    obtain rfl : d.tree = e := by simpa using h
    obtain ⟨first, s₁, s₂, t, -, -, hfollow⟩ := next_some hnext
    have hlook : s'.lookahead = some t := (Cursor.peek_ok hfollow).1
    exact ⟨d.yield, later, t, hu, hshows, hlook, (hshows.of_lookahead hlook).1, d.madeOf⟩

/-- Calls that answer with trees until nothing is left share out all items among the trees. -/
theorem exists_shares (hs : s.Shows mark u)
    (h : answers (List.replicate (es.length + 1) .next) s =
      es.map (fun e => .tree (.ok (some e))) ++ [.tree (.ok none)]) :
    ∃ ws : List (List Token), u = ws.flatten.map .token ∧ List.Forall₂ Expr.MadeOf es ws := by
  induction es generalizing s u with
  | nil =>
    have hend : Call.next.answer s = Call.next.atEnd := (List.cons.inj h).1
    exact ⟨[], by simpa using (Call.answer_eq_atEnd_iff hs .next).mp hend, .nil⟩
  | cons e es ih =>
    obtain ⟨hfirst, hrest⟩ := List.cons.inj h
    obtain ⟨w, later, t, rfl, hshows, -, -, hmade⟩ := next_takes hs (Answer.tree.inj hfirst)
    obtain ⟨ws, rfl, hshares⟩ := ih hshows hrest
    exact ⟨w :: ws, by simp, .cons hmade hshares⟩

/-- The trees that are made of texts have all tokens of the texts but the parentheses. -/
theorem flatMap_tokens {ws : List (List Token)} (h : List.Forall₂ Expr.MadeOf es ws) :
    es.flatMap Expr.tokens = withoutParentheses ws.flatten := by
  induction h with
  | nil => rfl
  | cons hmade _ ih => simp [hmade.tokens, ih]

/-- When a source is read tree by tree to its end, the trees share out its items in order, and each
has the tokens of its share from left to right but for balanced parentheses. After any calls, one
that answers with a tree takes the first unread tokens in the same way. -/
theorem tokens_conserved (source : String) :
    (∀ es : List Expr,
      answers (List.replicate (es.length + 1) .next) (.ofString source) =
          es.map (fun e => .tree (.ok (some e))) ++ [.tree (.ok none)] →
        ∃ ws : List (List Token), (Lexer.ofString source).items = ws.flatten.map .token ∧
          List.Forall₂ Expr.MadeOf es ws ∧
          es.flatMap Expr.tokens = withoutParentheses ws.flatten ∧
          (es.flatMap Expr.tokens).Pairwise fun t t' => t.position < t'.position) ∧
    ∀ (skipped : Nat) (calls : List Call) (e : Expr),
      let s := after calls (.ofLexer ((Lexer.ofString source).passing skipped))
      next.answer s = .ok (some e) →
        ∃ (before later : List Item) (w : List Token) (t : Token),
          (Lexer.ofString source).items = before ++ s.unread ∧
          s.unread = w.map .token ++ later ∧ (leave next s).unread = later ∧
          (leave next s).lookahead = some t ∧
          later.headD (.token (.symbol .endOfInput source.utf8ByteSize)) = .token t ∧
          e.MadeOf w ∧ e.tokens.Pairwise fun t t' => t.position < t'.position := by
  constructor
  · intro es h
    obtain ⟨ws, hitems, hshares⟩ := exists_shares (Cursor.shows_ofString source) h
    have htokens := flatMap_tokens hshares
    have hpositions := (Lexer.ofString source).pairwise_position
    rw [hitems, List.pairwise_map] at hpositions
    exact ⟨ws, hitems, hshares, htokens, htokens ▸ hpositions.filter _⟩
  · intro skipped calls e s h
    obtain ⟨u, ⟨before, hbefore⟩, hs⟩ := (Cursor.within_passing source skipped).after calls
    obtain ⟨w, later, t, hu, hshows, hlook, hnext, hmade⟩ := next_takes hs h
    rw [Lexer.endMark_ofString] at hnext
    have hamong : (w.map Item.token).Sublist (Lexer.ofString source).items := by
      rw [← hbefore, hu]
      exact (List.sublist_append_left _ _).trans (List.sublist_append_right _ _)
    exact ⟨before, later, w, t, by rw [hs.unread, hbefore], by rw [hs.unread, hu], hshows.unread,
      hlook, hnext, hmade, hmade.pairwise_position hamong⟩

/-- The two trees of a source with a group in each. -/
theorem tokens_conserved_groups :
    let es : List Expr := [.binary (.symbol (.operator .times) 6)
        (.signed (.symbol (.operator .minus) 1) (.leaf ⟨.literal .integer, "1", 2⟩))
        (.leaf ⟨.literal .integer, "2", 8⟩),
      .leaf ⟨.literal .integer, "3", 11⟩]
    answers (List.replicate 3 .next) (.ofString "(-1 ) * 2 (3)") =
        es.map (fun e => .tree (.ok (some e))) ++ [.tree (.ok none)] ∧
      ∃ ws : List (List Token),
        (Lexer.ofString "(-1 ) * 2 (3)").items = ws.flatten.map .token ∧
        List.Forall₂ Expr.MadeOf es ws := by
  intro es
  let s := Cursor.ofString "(-1 ) * 2 (3)"
  have hfirst : next.answer s = .ok es[0]? := by decide +kernel
  have hsecond : next.answer (leave next s) = .ok es[1]? := by decide +kernel
  have hend : next.answer (leave next (leave next s)) = .ok none := by decide +kernel
  have hanswers : answers (List.replicate 3 .next) s =
      es.map (fun e => .tree (.ok (some e))) ++ [.tree (.ok none)] := by
    simp only [List.replicate, answers, Call.answer, Call.leave, hfirst, hsecond, hend]
    rfl
  obtain ⟨ws, hitems, hshares, -⟩ := (tokens_conserved "(-1 ) * 2 (3)").1 es hanswers
  exact ⟨hanswers, ws, hitems, hshares⟩

end Parser

end Calculator
