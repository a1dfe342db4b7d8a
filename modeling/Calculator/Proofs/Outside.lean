import Calculator.Proofs.Rendering
import Calculator.Proofs.Scan

/-!
# Operators outside of groups

The tree of an expression can be read off its tokens without the grammar. Among the tokens outside
of all groups, the one that joins the whole is the last `+` or `-` that stands after an operand;
without such a sign it is the last `*`, `/` or `%`; without one of these a sign at the start covers
all the rest; and otherwise the first `^` joins what is before and after it. An expression that has
none of these is a literal or a group.

The induction is on derivations and says which operators a phrase of each level can have outside of
its groups. The groups that are open at a token are counted by the scan of the phrase.
-/

namespace Calculator

/-- What a token adds to the number of groups that are open. -/
def Token.Kind.opened : Token.Kind → Int
  | openParen => 1
  | closeParen => -1
  | _ => 0

/-- The number of groups that a text opens and does not close. -/
def openGroups : List Token → Int
  | [] => 0
  | t :: w => t.kind.opened + openGroups w

/-- Whether an operand ends with a token of this kind. -/
def Token.Kind.endsOperand : Token.Kind → Bool
  | literal _ | closeParen => true
  | _ => false

/-- A token of a text outside of its groups, with what is before and after it; the token is one of a
class, which may take into account what is before it. -/
structure Outside (P : List Token → Token → Prop) (w before : List Token) (t : Token)
    (after : List Token) : Prop where
  text : w = before ++ t :: after
  closed : openGroups before = 0
  among : P before t

/-- The last token of a class outside of the groups. -/
def LastOutside (P : List Token → Token → Prop) (w before : List Token) (t : Token)
    (after : List Token) : Prop :=
  Outside P w before t after ∧
    ∀ before' t' after', Outside P w before' t' after' → before'.length ≤ before.length

/-- The first token of a class outside of the groups. -/
def FirstOutside (P : List Token → Token → Prop) (w before : List Token) (t : Token)
    (after : List Token) : Prop :=
  Outside P w before t after ∧
    ∀ before' t' after', Outside P w before' t' after' → before.length ≤ before'.length

/-- No token of a class is outside of the groups. -/
def NoneOutside (P : List Token → Token → Prop) (w : List Token) : Prop :=
  ∀ before t after, ¬ Outside P w before t after

/-- A `+` or `-` after an operand. -/
def JoinsProducts (before : List Token) (t : Token) : Prop :=
  t.kind.isAdditive = true ∧ ∃ l ∈ before.getLast?, l.kind.endsOperand = true

/-- A `*`, `/` or `%`. -/
def JoinsFactors (_ : List Token) (t : Token) : Prop :=
  t.kind.isMultiplicative = true

/-- A `^`. -/
def JoinsPower (_ : List Token) (t : Token) : Prop :=
  t.kind.isPower = true

/-- A `+` or `-` at the start. -/
def BeginsWithSign (w : List Token) : Prop :=
  ∃ t ∈ w.head?, t.kind.isAdditive = true

/-- How the tree of an expression is put together from the trees of parts of its text. The cases
come in the order in which they are tried. -/
inductive SplitsAs (reads : List Token → Expr → Prop) (w : List Token) : Expr → Prop where
  | sum {before after : List Token} {op : Token} {l r : Expr}
      (hop : LastOutside JoinsProducts w before op after) (hl : reads before l)
      (hr : reads after r) : SplitsAs reads w (.binary op l r)
  | product {before after : List Token} {op : Token} {l r : Expr}
      (hsum : NoneOutside JoinsProducts w)
      (hop : LastOutside JoinsFactors w before op after) (hl : reads before l)
      (hr : reads after r) : SplitsAs reads w (.binary op l r)
  | signed {after : List Token} {sign : Token} {e : Expr}
      (hsum : NoneOutside JoinsProducts w) (hproduct : NoneOutside JoinsFactors w)
      (htext : w = sign :: after) (hsign : sign.kind.isAdditive = true) (he : reads after e) :
      SplitsAs reads w (.signed sign e)
  | power {before after : List Token} {op : Token} {l r : Expr}
      (hsum : NoneOutside JoinsProducts w) (hproduct : NoneOutside JoinsFactors w)
      (hsigned : ¬ BeginsWithSign w)
      (hop : FirstOutside JoinsPower w before op after) (hl : reads before l)
      (hr : reads after r) : SplitsAs reads w (.binary op l r)
  | literal {t : Token}
      (hsum : NoneOutside JoinsProducts w) (hproduct : NoneOutside JoinsFactors w)
      (hsigned : ¬ BeginsWithSign w) (hpower : NoneOutside JoinsPower w)
      (htext : w = [t]) (ht : t.kind.isLiteral = true) : SplitsAs reads w (.leaf t)
  | group {inside : List Token} {opening closing : Token} {e : Expr}
      (hsum : NoneOutside JoinsProducts w) (hproduct : NoneOutside JoinsFactors w)
      (hsigned : ¬ BeginsWithSign w) (hpower : NoneOutside JoinsPower w)
      (htext : w = opening :: (inside ++ [closing])) (hopening : opening.kind = .openParen)
      (hclosing : closing.kind = .closeParen) (he : reads inside e) : SplitsAs reads w e

variable {P Q : List Token → Token → Prop} {w w' before after before' after' : List Token}
  {t t' op : Token} {n : Nonterminal}

/-- Nothing is open in an empty text. -/
@[simp] theorem openGroups_nil : openGroups [] = 0 := rfl

/-- The first token is counted before the others. -/
@[simp] theorem openGroups_cons (t : Token) (w : List Token) :
    openGroups (t :: w) = t.kind.opened + openGroups w := rfl

/-- The groups of two texts are counted in turn. -/
@[simp] theorem openGroups_append (w w' : List Token) :
    openGroups (w ++ w') = openGroups w + openGroups w' := by
  induction w with
  | nil => simp
  | cons t w ih => rw [List.cons_append, openGroups_cons, openGroups_cons, ih, Int.add_assoc]

/-- An operator opens no group. -/
theorem Token.Kind.opened_of_isOperator {k : Token.Kind} (h : k.isOperator = true) :
    k.opened = 0 := by
  cases k <;> simp_all [isOperator, opened]

/-- No operand ends with an operator. -/
theorem Token.Kind.endsOperand_of_isOperator {k : Token.Kind} (h : k.isOperator = true) :
    k.endsOperand = false := by
  cases k <;> simp_all [isOperator, endsOperand]

namespace Scan

variable {q q' : Scan}

/-- A step counts the groups that its token opens and closes. -/
theorem depth_of_step {k : Token.Kind} (h : q.step k = some q') :
    (q'.depth : Int) = q.depth + k.opened := by
  obtain ⟨m, d⟩ := q
  cases k with
  | literal form | openParen =>
    cases m <;> simp only [step, Option.some.injEq, reduceCtorEq] at h <;> subst h <;>
      simp [Token.Kind.opened]
  | operator op =>
    cases m <;> simp only [step, Option.some.injEq, reduceCtorEq] at h
    · split at h <;> simp only [Option.some.injEq, reduceCtorEq] at h
      simp [← h, Token.Kind.opened]
    · split at h <;> simp [← h, Token.Kind.opened]
  | closeParen =>
    cases m <;> cases d <;> simp only [step, Option.some.injEq, reduceCtorEq] at h
    simp only [← h, Token.Kind.opened]
    omega
  | endOfInput => cases m <;> simp [step] at h

/-- A run counts the groups that its text opens and closes. -/
theorem depth_of_run (h : q.run w = some q') : (q'.depth : Int) = q.depth + openGroups w := by
  induction w generalizing q with
  | nil =>
    obtain rfl : q = q' := by simpa using h
    simp
  | cons t w ih =>
    rw [run_cons, Option.bind_eq_some_iff] at h
    obtain ⟨q₁, hstep, hrun⟩ := h
    rw [ih hrun, depth_of_step hstep, openGroups_cons, Int.add_assoc]

/-- A scan comes after an operand by the token the operand ends with. -/
theorem endsOperand_of_step {k : Token.Kind} {d : Nat}
    (h : q.step k = some ⟨.continuation, d⟩) : k.endsOperand = true := by
  obtain ⟨m, d'⟩ := q
  cases k with
  | literal | closeParen => rfl
  | operator op =>
    cases m <;> simp [step] at h
    split at h <;> simp at h
  | openParen => cases m <;> simp [step] at h
  | endOfInput => cases m <;> simp [step] at h

end Scan

namespace Derivation

/-- Every phrase can be scanned from some mode. -/
theorem exists_run (d : Derivation n) :
    ∃ m, Scan.run ⟨m, 0⟩ d.yield = some ⟨.continuation, 0⟩ := by
  obtain ⟨m, hm⟩ : ∃ m, n.enters m = true := by
    cases n
    case products | factors => exact ⟨.continuation, rfl⟩
    all_goals exact ⟨.operand, rfl⟩
  exact ⟨m, d.run_yield m hm 0⟩

/-- A phrase closes the groups it opens. -/
@[simp] theorem openGroups_yield (d : Derivation n) : openGroups d.yield = 0 := by
  obtain ⟨m, hrun⟩ := d.exists_run
  simpa using (Scan.depth_of_run hrun).symm

/-- A phrase closes no group that it has not opened. -/
theorem openGroups_nonneg (d : Derivation n) (h : before <+: d.yield) : 0 ≤ openGroups before := by
  obtain ⟨m, hrun⟩ := d.exists_run
  obtain ⟨rest, hyield⟩ := h
  rw [← hyield, Scan.run_append, Option.bind_eq_some_iff] at hrun
  obtain ⟨q, hbefore, -⟩ := hrun
  have hdepth := Scan.depth_of_run hbefore
  simp only at hdepth
  omega

/-- The last token of a phrase ends an operand. -/
theorem endsOperand_of_getLast (d : Derivation n) :
    ∀ t ∈ d.yield.getLast?, t.kind.endsOperand = true := by
  intro t ht
  obtain ⟨m, hrun⟩ := d.exists_run
  obtain ⟨w, hyield⟩ := List.getLast?_eq_some_iff.mp ht
  rw [hyield, Scan.run_append, Option.bind_eq_some_iff] at hrun
  obtain ⟨q, -, hstep⟩ := hrun
  exact Scan.endsOperand_of_step (q := q) (by simpa using hstep)

end Derivation

/-- A chain is empty, or it is a chain with one more operand after it. -/
theorem Chain.exists_last {more : Nonterminal} (chain : Chain n more) (d : Derivation more) :
    (d.yield = [] ∧ ∀ left, chain.apply d left = left) ∨
      ∃ before op last, chain.joins op.kind = true ∧ d.yield = before.yield ++ op :: last.yield ∧
        ∀ left, chain.apply d left = .binary op (chain.apply before left) (chain.tree last) := by
  induction d using chain.induct with
  | hstop => exact .inl ⟨chain.yield_stop, chain.apply_stop⟩
  | hadd op hop next later ih =>
    right
    rcases ih with ⟨hnil, htree⟩ | ⟨before, op', last, hop', hyield, htree⟩
    · exact ⟨chain.stop, op, next, hop, by simp [chain.yield_add, chain.yield_stop, hnil],
        fun left => by rw [chain.apply_add, chain.apply_stop, htree]⟩
    · exact ⟨chain.add op hop next before, op', last, hop', by simp [chain.yield_add, hyield],
        fun left => by rw [chain.apply_add, chain.apply_add, htree]⟩

/-- All tokens outside of the groups of a text are of a class. -/
def AllOutside (P : List Token → Token → Prop) (w : List Token) : Prop :=
  ∀ before t after, w = before ++ t :: after → openGroups before = 0 → P before t

/-- The operators that a phrase may have outside of its groups, and where. -/
def Nonterminal.Outer : Nonterminal → List Token → Token → Prop
  | atom, _, t => t.kind.isOperator = false
  | power, _, t => t.kind.isOperator = true → t.kind.isPower = true
  | signed, before, t =>
    t.kind.isOperator = true → t.kind.isPower = true ∨ before = [] ∧ t.kind.isAdditive = true
  | product, before, t =>
    t.kind.isAdditive = true → ∀ l ∈ before.getLast?, l.kind.isOperator = true
  | factors, before, t =>
    t.kind.isAdditive = true → ∃ l ∈ before.getLast?, l.kind.isOperator = true
  | sum, _, _ | products, _, _ => True

namespace AllOutside

/-- There is nothing in an empty text. -/
theorem nil : AllOutside P [] := by
  intro before t after h
  simp at h

/-- What holds of tokens holds of them in a larger class. -/
theorem mono (h : AllOutside P w) (hPQ : ∀ before t, P before t → Q before t) :
    AllOutside Q w :=
  fun before t after htext hclosed => hPQ before t (h before t after htext hclosed)

/-- A token comes first, and the others are after it. -/
theorem cons (hfirst : P [] t) (hrest : ∀ before t' after, w = before ++ t' :: after →
    t.kind.opened + openGroups before = 0 → P (t :: before) t') : AllOutside P (t :: w) := by
  intro before t' after htext hclosed
  cases before with
  | nil =>
    obtain ⟨rfl, -⟩ := List.cons.inj htext
    exact hfirst
  | cons first before =>
    obtain ⟨rfl, hw⟩ := List.cons.inj htext
    exact hrest before t' after hw (by simpa using hclosed)

/-- An operator comes first, and the others are outside of the groups if they are so without it. -/
theorem cons_operator (hop : op.kind.isOperator = true) (hfirst : P [] op)
    (hrest : AllOutside (fun before t => P (op :: before) t) w) : AllOutside P (op :: w) := by
  refine .cons hfirst fun before t after htext hclosed => ?_
  rw [Token.Kind.opened_of_isOperator hop, Int.zero_add] at hclosed
  exact hrest before t after htext hclosed

/-- A token of two texts is one of the first, or it has the first before it. -/
theorem append (h : AllOutside P w) (hclosed : openGroups w = 0)
    (h' : AllOutside (fun before t => P (w ++ before) t) w') : AllOutside P (w ++ w') := by
  intro before t after htext hbefore
  rcases List.append_eq_append_iff.mp htext with ⟨v, rfl, hw'⟩ | ⟨v, rfl, hv⟩
  · exact h' v t after hw' (by simpa [hclosed] using hbefore)
  · cases v with
    | nil =>
      have := h' [] t after (by simpa using hv.symm) rfl
      simpa using this
    | cons t' v =>
      obtain ⟨rfl, -⟩ := List.cons.inj hv
      exact h before t v rfl hbefore

end AllOutside

/-- A sign outside of the groups of a signed power begins it. -/
theorem Nonterminal.Outer.eq_nil (h : Outer .signed before t) (hsign : t.kind.isAdditive = true) :
    before = [] := by
  rcases h (Token.Kind.isOperator_of_isAdditive hsign) with hpower | ⟨hbefore, -⟩
  · simp [Token.Kind.levels_of_isAdditive hsign] at hpower
  · exact hbefore

/-- Outside of its groups a phrase has the operators of its level, and signs only where they are no
operators. -/
theorem Derivation.allOutside (d : Derivation n) : AllOutside n.Outer d.yield := by
  induction d with
  | sum | noProducts | addProduct => exact fun _ _ _ _ _ => trivial
  | noFactors => exact .nil
  | product first more ihFirst ihMore =>
    refine .append (ihFirst.mono fun before t h hsign => ?_) (by simp) (ihMore.mono ?_)
    · simp [h.eq_nil hsign]
    · intro before t h hsign l hl
      obtain ⟨l', hl', hop⟩ := h hsign
      obtain rfl : l' = l := by simpa [List.getLast?_append, Option.mem_def.mp hl'] using hl
      exact hop
  | addFactor op hop next more ihNext ihMore =>
    have hoperator := Token.Kind.isOperator_of_isMultiplicative hop
    refine .cons_operator hoperator (fun hsign => ?_) (.append ?_ (by simp) (ihMore.mono ?_))
    · simp [Token.Kind.levels_of_isMultiplicative hop] at hsign
    · refine ihNext.mono fun before t h hsign => ?_
      rw [h.eq_nil hsign]
      exact ⟨op, rfl, hoperator⟩
    · intro before t h hsign
      obtain ⟨l, hl, hlast⟩ := h hsign
      exact ⟨l, by simp [List.getLast?_cons, List.getLast?_append, Option.mem_def.mp hl], hlast⟩
  | unsigned operand ih => exact ih.mono fun before t h hop => .inl (h hop)
  | signed sign hsign operand ih =>
    exact .cons_operator (Token.Kind.isOperator_of_isAdditive hsign) (fun _ => .inr ⟨rfl, hsign⟩)
      (ih.mono fun before t h hop => .inl (h hop))
  | bare base ih => exact ih.mono fun before t h hop => absurd hop (Bool.eq_false_iff.mp h)
  | raised base op hop exponent ihBase ihExponent =>
    exact .append (ihBase.mono fun before t h hop => absurd hop (Bool.eq_false_iff.mp h))
      (by simp) (.cons_operator (Token.Kind.isOperator_of_isPower hop) (fun _ => hop) ihExponent)
  | literal t ht =>
    refine .cons ?_ (by simp)
    exact Token.Kind.isOperator_of_startsOperand (Token.Kind.startsOperand_of_isLiteral ht)
  | group opening hopening inner closing hclosing ih =>
    refine .cons (by simp [Nonterminal.Outer, hopening, Token.Kind.isOperator])
      fun before t after htext hclosed => ?_
    -- up to the closing parenthesis the group is open
    have hbegin : before <+: inner.yield := by
      have hprefix : before <+: inner.yield ++ [closing] := ⟨t :: after, htext.symm⟩
      rcases List.prefix_concat_iff.mp hprefix with rfl | hprefix
      · simp at htext
      · exact hprefix
    have hnonneg := inner.openGroups_nonneg hbegin
    rw [hopening, Token.Kind.opened] at hclosed
    omega

/-- The last place where two texts with a token between them split is this token, when what follows
it has no token of the class. -/
theorem LastOutside.of_after (hclosed : openGroups w = 0) (hop : op.kind.isOperator = true)
    (hP : P w op) (hafter : ∀ before t after, w' = before ++ t :: after → openGroups before = 0 →
      ¬ P (w ++ op :: before) t) : LastOutside P (w ++ op :: w') w op w' := by
  refine ⟨⟨rfl, hclosed, hP⟩, fun before t after h => ?_⟩
  by_contra hlonger
  rcases List.append_eq_append_iff.mp h.text with ⟨v, rfl, hv⟩ | ⟨v, rfl, -⟩
  · cases v with
    | nil => simp at hlonger
    | cons first v =>
      obtain ⟨rfl, rfl⟩ := List.cons.inj hv
      have hbefore := h.closed
      simp [hclosed, Token.Kind.opened_of_isOperator hop] at hbefore
      exact hafter v t after rfl hbefore h.among
  · simp at hlonger

/-- The first place where two texts with a token between them split is this token, when what is
before it has no token of the class. -/
theorem FirstOutside.of_before (hclosed : openGroups w = 0) (hP : P w op)
    (hbefore : NoneOutside P w) : FirstOutside P (w ++ op :: w') w op w' := by
  refine ⟨⟨rfl, hclosed, hP⟩, fun before t after h => ?_⟩
  by_contra hshorter
  rcases List.append_eq_append_iff.mp h.text with ⟨v, rfl, -⟩ | ⟨v, rfl, hv⟩
  · simp at hshorter
  · cases v with
    | nil => simp at hshorter
    | cons first v =>
      obtain ⟨rfl, rfl⟩ := List.cons.inj hv
      exact hbefore before t v ⟨rfl, h.closed, h.among⟩

/-- No token of a class is outside of the groups when the tokens there are of another one. -/
theorem AllOutside.noneOutside (h : AllOutside P w) (hPQ : ∀ before t, P before t → ¬ Q before t) :
    NoneOutside Q w :=
  fun before t after hout => hPQ before t (h before t after hout.text hout.closed) hout.among

/-- The tokens are those of an expression, and it has this tree. -/
def Derives (w : List Token) (e : Expr) : Prop :=
  ∃ d : Sentence, d.yield = w ∧ d.tree = e

namespace Derivation

/-- A product joins no products. -/
theorem noneOutside_joinsProducts (d : Derivation .product) :
    NoneOutside JoinsProducts d.yield := by
  refine d.allOutside.noneOutside fun before t h hjoins => ?_
  obtain ⟨hsign, l, hl, hends⟩ := hjoins
  simp [Token.Kind.endsOperand_of_isOperator (h hsign l hl)] at hends

/-- A signed power joins no factors. -/
theorem noneOutside_joinsFactors (d : Derivation .signed) : NoneOutside JoinsFactors d.yield := by
  refine d.allOutside.noneOutside fun before t h hjoins => ?_
  obtain ⟨hsign, hpower⟩ := Token.Kind.levels_of_isMultiplicative hjoins
  rcases h (Token.Kind.isOperator_of_isMultiplicative hjoins) with h | ⟨-, h⟩
  · simp [hpower] at h
  · simp [hsign] at h

/-- An atom has no power sign. -/
theorem noneOutside_joinsPower (d : Derivation .atom) : NoneOutside JoinsPower d.yield := by
  refine d.allOutside.noneOutside fun before t h hjoins => ?_
  have hop : t.kind.isOperator = false := h
  simp [Token.Kind.isOperator_of_isPower hjoins] at hop

/-- What is no repetition is an operand for an operator after it. -/
theorem exists_endsOperand (d : Derivation n) (hproducts : n ≠ .products)
    (hfactors : n ≠ .factors) : ∃ t ∈ d.yield.getLast?, t.kind.endsOperand = true := by
  obtain ⟨w, t, hyield⟩ := (List.eq_nil_or_concat d.yield).resolve_left
    (d.yield_ne_nil hproducts hfactors)
  have hlast : t ∈ d.yield.getLast? := by simp [hyield]
  exact ⟨t, hlast, d.endsOperand_of_getLast t hlast⟩

/-- A power does not begin with a sign. -/
theorem not_beginsWithSign (d : Derivation .power) : ¬ BeginsWithSign d.yield := by
  rintro ⟨t, ht, hsign⟩
  have hoperand : t.kind.startsOperand = true := d.begins_of_head t ht
  simp [Token.Kind.startsOperand_of_isAdditive hsign] at hoperand

/-- A product is an expression. -/
theorem derives_product (d : Derivation .product) : Derives d.yield d.tree :=
  ⟨.sum d .noProducts, by simp [yield], rfl⟩

/-- A signed power is an expression. -/
theorem derives_signed (d : Derivation .signed) : Derives d.yield d.tree :=
  ⟨.sum (.product d .noFactors) .noProducts, by simp [yield], rfl⟩

/-- A power is an expression. -/
theorem derives_power (d : Derivation .power) : Derives d.yield d.tree :=
  derives_signed (.unsigned d)

/-- A power splits at its first power sign, unless it is an atom. -/
theorem splits_power (d : Derivation .power) (hsum : NoneOutside JoinsProducts d.yield)
    (hproduct : NoneOutside JoinsFactors d.yield) : SplitsAs Derives d.yield d.tree := by
  have hsigned := d.not_beginsWithSign
  cases d with
  | raised base op hop exponent =>
    exact .power hsum hproduct hsigned
      (.of_before base.openGroups_yield hop base.noneOutside_joinsPower)
      (derives_power (.bare base)) exponent.derives_power
  | bare base =>
    have hpower := base.noneOutside_joinsPower
    cases base with
    | literal t ht => exact .literal hsum hproduct hsigned hpower rfl ht
    | group opening hopening inner closing hclosing =>
      exact .group hsum hproduct hsigned hpower rfl hopening hclosing ⟨inner, rfl, rfl⟩

/-- A signed power splits after its sign, if it has one. -/
theorem splits_signed (d : Derivation .signed) (hsum : NoneOutside JoinsProducts d.yield) :
    SplitsAs Derives d.yield d.tree := by
  have hproduct := d.noneOutside_joinsFactors
  cases d with
  | unsigned operand => exact operand.splits_power hsum hproduct
  | signed sign hsign operand => exact .signed hsum hproduct rfl hsign operand.derives_power

/-- A product splits at the operator before its last factor. -/
theorem splits_product (d : Derivation .product) : SplitsAs Derives d.yield d.tree := by
  have hsum := d.noneOutside_joinsProducts
  cases d with
  | product first more =>
    rcases Chain.factors.exists_last more with
      ⟨hnil, htree⟩ | ⟨before, op, last, hop, hmore, htree⟩
    · have hwhole : (Derivation.product first more).yield = first.yield := by simp [yield, hnil]
      rw [hwhole] at hsum ⊢
      rw [show (Derivation.product first more).tree = first.tree from htree _]
      exact first.splits_signed hsum
    · have hwhole : (Derivation.product first more).yield =
          (Derivation.product first before).yield ++ op :: last.yield := by simp [yield, hmore]
      rw [hwhole] at hsum ⊢
      rw [show (Derivation.product first more).tree =
        .binary op (Derivation.product first before).tree last.tree from htree _]
      refine .product hsum ?_ (derives_product _) last.derives_signed
      refine .of_after (openGroups_yield _) (Token.Kind.isOperator_of_isMultiplicative hop) hop ?_
      exact fun b t a htext hclosed hjoins =>
        last.noneOutside_joinsFactors b t a ⟨htext, hclosed, hjoins⟩

/-- An expression splits where its tokens outside of the groups say so. -/
theorem splits (d : Sentence) : SplitsAs Derives d.yield d.tree := by
  cases d with
  | sum first more =>
    rcases Chain.products.exists_last more with
      ⟨hnil, htree⟩ | ⟨before, op, last, hop, hmore, htree⟩
    · have hwhole : (Derivation.sum first more).yield = first.yield := by simp [yield, hnil]
      rw [hwhole, show (Derivation.sum first more).tree = first.tree from htree _]
      exact first.splits_product
    · have hwhole : (Derivation.sum first more).yield =
          (Derivation.sum first before).yield ++ op :: last.yield := by simp [yield, hmore]
      have hoperator := Token.Kind.isOperator_of_isAdditive hop
      have hjoins : JoinsProducts (Derivation.sum first before).yield op :=
        ⟨hop, exists_endsOperand _ (by simp) (by simp)⟩
      rw [hwhole, show (Derivation.sum first more).tree =
        .binary op (Derivation.sum first before).tree last.tree from htree _]
      refine .sum (.of_after (openGroups_yield _) hoperator hjoins ?_) ⟨_, rfl, rfl⟩
        last.derives_product
      -- a sign in the last product comes right after the operator or after another one
      rintro b t a htext hclosed ⟨hsign, l, hl, hends⟩
      have hlast : ∀ l ∈ b.getLast?, l.kind.isOperator = true :=
        last.allOutside b t a htext hclosed hsign
      have hboth : l.kind.isOperator = true := by
        rcases List.eq_nil_or_concat b with rfl | ⟨b, l', rfl⟩
        · obtain rfl : op = l := by simpa using hl
          exact hoperator
        · obtain rfl : l' = l := by simpa [List.getLast?_cons] using hl
          exact hlast l' (by simp)
      simp [Token.Kind.endsOperand_of_isOperator hboth] at hends

end Derivation

end Calculator
