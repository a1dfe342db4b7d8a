import Calculator.Proofs.Answers

/-!
# What the rules stop at

A rule that succeeds has looked at the token after its phrase and left it there. Each level of the
grammar adds the operators that it has tried in vain to those that the tighter level has tried: a
power does not stop at `^`, a product not at `*`, `/` or `%` either, and a sum not at any operator.
For this it does not matter how the cursor has come to where it is.

The repetitions are where two levels meet. What follows the first operand has been looked at by the
rule of the operand, so when no more operands follow it is the very same token that is refused, and
both levels have refused it. The statements are proved of all rules together, by induction on the
number of unread items, and together with what the rules may ask for in their errors.

So after an expression `Parser.next` never sees a sign. What it does see is the end, something that
begins another operand, or a closing parenthesis, and only the last of these is an error.
-/

namespace Calculator

/-- What the error says was expected. -/
def SyntaxError.expected : SyntaxError → String
  | unexpectedToken expected _ | unexpectedEnd expected _ => expected

/-- What the error says was expected, when it is about the grammar. -/
def Error.expected? : Error → Option String
  | parsing e => some e.expected
  | strayCharacter _ _ | evaluation _ => none

/-- The error that was answered. -/
def Answer.error? : Answer → Option Error
  | tree (.error e) | value (.error e) | finished (.error e) | listed (some (.error e)) => some e
  | _ => none

/-- A call for a tree has failed when its answer is an error. -/
@[simp] theorem Answer.error?_tree {found : Except Error (Option Expr)} {e : Error} :
    (tree found).error? = some e ↔ found = .error e := by
  cases found <;> simp [error?]

/-- A call for a value has failed when its answer is an error. -/
@[simp] theorem Answer.error?_value {found : Except Error (Option Float)} {e : Error} :
    (value found).error? = some e ↔ found = .error e := by
  cases found <;> simp [error?]

/-- A check for the end has failed when its answer is an error. -/
@[simp] theorem Answer.error?_finished {reached : Except Error Unit} {e : Error} :
    (finished reached).error? = some e ↔ reached = .error e := by
  cases reached <;> simp [error?]

/-- A cursor that has looked at a token which is not of the class. -/
def Cursor.StopsAt (taken : Token.Kind → Bool) (s : Cursor) : Prop :=
  ∃ t, s.lookahead = some t ∧ taken t.kind = false

/-- An error that a rule may end with: when it is about the grammar, it asks for what an atom begins
with or for the end of a group. -/
def Error.OfRule (e : Error) : Prop :=
  ∀ text ∈ e.expected?, text = Rule.atomStart ∨ text = Rule.groupEnd

/-- A success that leaves a cursor as required, or a failure with an error of a rule. -/
def Settled {α : Type} (required : Cursor → Prop) : EStateM.Result Error Cursor α → Prop
  | .ok _ s => required s
  | .error e _ => e.OfRule

variable {α β : Type} {s s' : Cursor} {t : Token} {e : Error} {required : Cursor → Prop}

/-- What an unexpected token was found instead of. -/
theorem SyntaxError.expected_unexpected (expected : String) (t : Token) :
    (unexpected expected t).expected = expected := by
  rw [unexpected]
  split <;> rfl

/-- Stray characters are met by any rule. -/
theorem Error.ofRule_strayCharacter (c : Char) (p : Nat) : (strayCharacter c p).OfRule := by
  simp [OfRule, expected?]

/-- A rule may ask for what an atom begins with and for the end of a group. -/
theorem Error.ofRule_unexpected {text : String} (h : text = Rule.atomStart ∨ text = Rule.groupEnd)
    (t : Token) : (parsing (.unexpected text t)).OfRule := by
  simpa [OfRule, expected?, SyntaxError.expected_unexpected] using h

/-- A token that was looked at and is refused stays where it is. -/
theorem Cursor.eq_of_accept?_none {allowed : Token.Kind → Bool} (hlook : s.lookahead = some t)
    (h : accept? allowed s = .ok none s') : s' = s := by
  simp only [accept?_apply, peek, hlook] at h
  split at h
  · simp at h
  · simpa using h.symm

namespace Settled

/-- One parser after another. -/
theorem bind {first : Cursor → Prop} {p : Parser α} {f : α → Parser β} (hp : Settled first (p s))
    (hf : ∀ a s', p s = .ok a s' → first s' → Settled required (f a s')) :
    Settled required ((p >>= f) s) := by
  simp only [Bind.bind, EStateM.bind]
  cases hresult : p s with
  | ok a s' =>
    rw [hresult] at hp
    exact hf a s' hresult hp
  | error e s' =>
    rw [hresult] at hp
    exact hp

/-- Advancing fails only at a stray character. -/
theorem advance (s : Cursor) : Settled (fun _ => True) (Cursor.advance s) := by
  cases hadvance : Cursor.advance s with
  | ok t s' => trivial
  | error e s' =>
    obtain ⟨c, p, rfl, -⟩ := Cursor.advance_error hadvance
    exact Error.ofRule_strayCharacter c p

/-- The end of a group is asked for by its text. -/
theorem expect (s : Cursor) :
    Settled (fun _ => True) (Cursor.expect .closeParen Rule.groupEnd s) := by
  refine .bind (advance s) fun t s' _ _ => ?_
  split
  · trivial
  · exact Error.ofRule_unexpected (.inr rfl) t

/-- A token that is passed if it is of a class, and is stopped at otherwise. -/
theorem accept {allowed : Token.Kind → Bool} {g : Option Token → Parser α}
    (hend : allowed .endOfInput = false)
    (hfound : ∀ t s', s'.unread.length < s.unread.length → Settled required (g (some t) s'))
    (hmissing : ∀ s', s'.StopsAt allowed → s'.unread.length = s.unread.length →
      Cursor.accept? allowed s = .ok none s' → Settled required (g none s')) :
    Settled required ((Cursor.accept? allowed >>= g) s) := by
  simp only [Bind.bind, EStateM.bind]
  cases haccept : Cursor.accept? allowed s with
  | error e s' =>
    obtain ⟨c, p, rfl, -⟩ := Cursor.accept?_error haccept
    exact Error.ofRule_strayCharacter c p
  | ok found s' =>
    cases found with
    | some t =>
      exact hfound t s' (Cursor.accept?_length_lt hend haccept)
    | none =>
      obtain ⟨hunread, hstops⟩ := Cursor.accept?_none haccept
      exact hmissing s' hstops (congrArg List.length hunread) haccept

/-- The rule of atoms leaves any cursor. -/
theorem atom (hsum : ∀ s', s'.unread.length < s.unread.length →
      Settled (Cursor.StopsAt Token.Kind.isOperator) (Parser.sum s')) :
    Settled (fun _ => True) (Parser.atom s) := by
  rw [Parser.atom_eq]
  refine .bind (advance s) fun t s' hadvance _ => ?_
  cases hkind : t.kind with
  | literal form => trivial
  | openParen =>
    have hlt : s'.unread.length < s.unread.length := by
      simp [Cursor.advance_ok hadvance, hkind]
    refine .bind (hsum s' hlt) fun inner s₂ _ _ => ?_
    exact .bind (expect s₂) fun _ _ _ _ => trivial
  | operator op | closeParen | endOfInput => exact Error.ofRule_unexpected (.inl rfl) t

/-- A power has tried `^` in vain. -/
theorem power (hatom : Settled (fun _ => True) (Parser.atom s))
    (hpower : ∀ s', s'.unread.length < s.unread.length →
      Settled (Cursor.StopsAt Token.Kind.isPower) (Parser.power s')) :
    Settled (Cursor.StopsAt Token.Kind.isPower) (Parser.power s) := by
  rw [Parser.power_eq]
  refine .bind hatom fun base s₁ hread _ => ?_
  have hlt := (Rule.atom s).progress.lt_of_ok hread
  refine .accept rfl (fun op s₂ h => ?_) fun s₂ hstops _ _ => hstops
  exact .bind (hpower s₂ (h.trans hlt)) fun _ _ _ hstops => hstops

/-- A sign changes nothing about what follows its power. -/
theorem signed (hpower : ∀ s', s'.unread.length ≤ s.unread.length →
      Settled (Cursor.StopsAt Token.Kind.isPower) (Parser.power s')) :
    Settled (Cursor.StopsAt Token.Kind.isPower) (Parser.signed s) := by
  rw [Parser.signed_eq]
  refine .accept rfl (fun sign s' h => ?_) fun s' _ h _ => hpower s' h.le
  exact .bind (hpower s' h.le) fun _ _ _ hstops => hstops

variable {n more : Nonterminal}

/-- What follows the first operand has refused the token that the operand has refused. -/
theorem rest (rep : Repetition n more) (left : Expr)
    (hoperand : ∀ s', s'.unread.length < s.unread.length →
      Settled (Cursor.StopsAt n.continues) (rep.operand s'))
    (hmore : ∀ left s', s'.unread.length < s.unread.length → s'.StopsAt n.continues →
      Settled (Cursor.StopsAt more.continues) (rep.rest left s'))
    (hs : s.StopsAt n.continues) :
    Settled (Cursor.StopsAt more.continues) (rep.rest left s) := by
  rw [rep.rest_eq]
  refine .accept rep.joins_endOfInput (fun op s₁ h => ?_) fun s₁ hstops _ haccept => ?_
  · refine .bind (hoperand s₁ h) fun right s₂ hread hstops => ?_
    exact hmore _ s₂ ((rep.operand_length_lt hread).trans h) hstops
  · -- the token was looked at before, so it is the same one that both levels have refused
    obtain ⟨t, hlook, htight⟩ := hs
    obtain ⟨t', hlook', hjoins⟩ := hstops
    obtain rfl := Cursor.eq_of_accept?_none hlook haccept
    obtain rfl : t = t' := Option.some.inj (hlook.symm.trans hlook')
    exact ⟨t, hlook, by rw [rep.continues_eq, hjoins, htight, Bool.or_self]⟩

/-- A line that ends with a repetition stops where its repetition stops. -/
theorem whole (rep : Repetition n more)
    (hoperand : Settled (Cursor.StopsAt n.continues) (rep.operand s))
    (hmore : ∀ left s', s'.unread.length < s.unread.length → s'.StopsAt n.continues →
      Settled (Cursor.StopsAt more.continues) (rep.rest left s')) :
    Settled (Cursor.StopsAt more.continues) ((rep.operand >>= rep.rest) s) :=
  .bind hoperand fun left s' hread hstops => hmore left s' (rep.operand_length_lt hread) hstops

end Settled

/-- Where all rules stop, from a cursor with `n` unread items. -/
structure RulesStop (n : Nat) : Prop where
  power : ∀ s : Cursor, s.unread.length = n →
    Settled (Cursor.StopsAt Token.Kind.isPower) (Parser.power s)
  signed : ∀ s : Cursor, s.unread.length = n →
    Settled (Cursor.StopsAt Token.Kind.isPower) (Parser.signed s)
  moreFactors : ∀ left (s : Cursor), s.unread.length = n → s.StopsAt Nonterminal.signed.continues →
    Settled (Cursor.StopsAt Nonterminal.factors.continues) (Parser.moreFactors left s)
  product : ∀ s : Cursor, s.unread.length = n →
    Settled (Cursor.StopsAt Nonterminal.product.continues) (Parser.product s)
  moreProducts : ∀ left (s : Cursor), s.unread.length = n →
    s.StopsAt Nonterminal.product.continues →
    Settled (Cursor.StopsAt Nonterminal.products.continues) (Parser.moreProducts left s)
  sum : ∀ s : Cursor, s.unread.length = n →
    Settled (Cursor.StopsAt Nonterminal.sum.continues) (Parser.sum s)

/-- Every rule stops before a token that it could not have taken up. -/
theorem rulesStop (n : Nat) : RulesStop n := by
  have ih : ∀ m < n, RulesStop m := fun m _ => rulesStop m
  have hpower (s : Cursor) (hs : s.unread.length = n) :
      Settled (Cursor.StopsAt Token.Kind.isPower) (Parser.power s) :=
    .power (.atom fun s' h => (ih _ (hs ▸ h)).sum s' rfl) fun s' h => (ih _ (hs ▸ h)).power s' rfl
  have hsigned (s : Cursor) (hs : s.unread.length = n) :
      Settled (Cursor.StopsAt Token.Kind.isPower) (Parser.signed s) := by
    refine .signed fun s' h => ?_
    rcases Nat.lt_or_eq_of_le h with hlt | heq
    · exact (ih _ (hs ▸ hlt)).power s' rfl
    · exact hpower s' (heq.trans hs)
  have hproduct (s : Cursor) (hs : s.unread.length = n) :
      Settled (Cursor.StopsAt Nonterminal.product.continues) (Parser.product s) := by
    rw [Parser.product_eq]
    exact .whole .factors (hsigned s hs) fun left s' h =>
      (ih _ (hs ▸ h)).moreFactors left s' rfl
  have hsum (s : Cursor) (hs : s.unread.length = n) :
      Settled (Cursor.StopsAt Nonterminal.sum.continues) (Parser.sum s) := by
    rw [Parser.sum_eq]
    exact .whole .products (hproduct s hs) fun left s' h =>
      (ih _ (hs ▸ h)).moreProducts left s' rfl
  exact {
    power := hpower
    signed := hsigned
    moreFactors := fun left s hs => .rest .factors left
      (fun s' h => (ih _ (hs ▸ h)).signed s' rfl)
      fun left s' h => (ih _ (hs ▸ h)).moreFactors left s' rfl
    product := hproduct
    moreProducts := fun left s hs => .rest .products left
      (fun s' h => (ih _ (hs ▸ h)).product s' rfl)
      fun left s' h => (ih _ (hs ▸ h)).moreProducts left s' rfl
    sum := hsum }
termination_by n

/-- What a rule asks for is not what follows an expression. -/
theorem Error.OfRule.expected_ne (h : e.OfRule) : e.expected? ≠ some Parser.expressionEnd := by
  intro htext
  rcases h _ htext with heq | heq <;>
    simp [Parser.expressionEnd, Rule.atomStart, Rule.groupEnd] at heq

namespace Parser

/-- A rule that has answered with a tree leaves a cursor as required. -/
theorem leave_of_settled {p : Parser α} {a : α} (h : Settled required (p s))
    (hanswer : p.answer s = .ok a) : required (p.leave s) := by
  simp only [answer, leave] at hanswer ⊢
  generalize p s = x at h hanswer
  cases x with
  | ok b s' => exact h
  | error e s' => simp at hanswer

/-- What a parser answers and the cursor that it leaves are its result. -/
theorem eq_ok_iff {p : Parser α} {a : α} :
    p s = .ok a s' ↔ p.answer s = .ok a ∧ p.leave s = s' := by
  simp only [answer, leave]
  cases p s <;> simp

/-- An error that is answered is that of the result. -/
theorem answer_eq_error_iff {p : Parser α} : p.answer s = .error e ↔ ∃ s', p s = .error e s' := by
  simp only [answer]
  cases p s <;> simp

/-- Of two parsers after one another the first fails, or the second one where the first has come. -/
theorem bind_error {p : Parser α} {f : α → Parser β} (h : (p >>= f) s = .error e s') :
    p s = .error e s' ∨ ∃ a s₁, p s = .ok a s₁ ∧ f a s₁ = .error e s' := by
  simp only [Bind.bind, EStateM.bind] at h
  cases hp : p s with
  | ok a s₁ =>
    rw [hp] at h
    exact .inr ⟨a, s₁, rfl, h⟩
  | error e₁ s₁ =>
    rw [hp] at h
    obtain ⟨rfl, rfl⟩ := EStateM.Result.error.inj h
    exact .inl rfl

/-- `Parser.next` ends with an error of a rule or at a closing parenthesis after an expression. -/
theorem next_error (h : next s = .error e s') :
    e.OfRule ∨ ∃ t, t.kind = .closeParen ∧ e = .parsing (.unexpectedToken expressionEnd t) := by
  rcases bind_error h with hpeek | ⟨first, s₁, hpeek, hrest⟩
  · obtain ⟨c, p, rfl, -⟩ := Cursor.peek_error hpeek
    exact .inl (Error.ofRule_strayCharacter c p)
  by_cases hfirst : first.kind = .endOfInput
  · rw [if_pos hfirst] at hrest
    contradiction
  rw [if_neg hfirst] at hrest
  have hsettled := (rulesStop s₁.unread.length).sum s₁ rfl
  rcases bind_error hrest with hsum | ⟨tree, s₂, hsum, -⟩
  · rw [hsum] at hsettled
    exact .inl hsettled
  · rw [hsum] at hsettled
    obtain ⟨follow, hfollow, hoperator⟩ := hsettled
    rw [next_of_sum hpeek hfirst hsum (Cursor.peek_of_lookahead hfollow) hoperator] at h
    split at h
    · rename_i hkind
      exact .inr ⟨follow, hkind, (EStateM.Result.error.inj h).1.symm⟩
    · contradiction

/-- Computing the value of an expression fails as reading it does, or in the evaluation. -/
theorem nextValue_error (h : nextValue s = .error e s') :
    next s = .error e s' ∨ ∃ f, e = .evaluation f := by
  rw [nextValue_eq] at h
  cases hnext : next s with
  | error e₁ s₁ =>
    simp only [hnext, EStateM.Result.error.injEq] at h
    obtain ⟨rfl, rfl⟩ := h
    exact .inl rfl
  | ok found s₁ =>
    cases found with
    | none => simp [hnext] at h
    | some tree =>
      cases hvalue : tree.value with
      | ok x => simp [hnext, hvalue] at h
      | error f =>
        simp only [hnext, hvalue, EStateM.Result.error.injEq] at h
        exact .inr ⟨f, h.1.symm⟩

/-- A check for the end fails at a stray character, or because it expects the end. -/
theorem expectEnd_error (h : expectEnd s = .error e s') :
    (∃ c p, e = .strayCharacter c p) ∨ ∃ t, e = .parsing (.unexpected inputEnd t) := by
  rcases bind_error h with hpeek | ⟨t, s₁, -, hrest⟩
  · obtain ⟨c, p, rfl, -⟩ := Cursor.peek_error hpeek
    exact .inl ⟨c, p, rfl⟩
  · split at hrest
    · contradiction
    · simp only [throw_apply, EStateM.Result.error.injEq] at hrest
      exact .inr ⟨t, hrest.1.symm⟩

/-- The text for what follows an expression stands only in errors about closing parentheses. -/
theorem Call.eq_of_expressionEnd {call : Call} (h : (call.answer s).error? = some e)
    (htext : e.expected? = some expressionEnd) :
    ∃ t, t.kind = .closeParen ∧ e = .parsing (.unexpectedToken expressionEnd t) := by
  have hnext {s' : Cursor} (herror : Parser.next s = .error e s') :=
    (next_error herror).resolve_left fun hrule => hrule.expected_ne htext
  cases call with
  | next =>
    obtain ⟨s', herror⟩ := answer_eq_error_iff.mp (Answer.error?_tree.mp h)
    exact hnext herror
  | nextValue =>
    obtain ⟨s', herror⟩ := answer_eq_error_iff.mp (Answer.error?_value.mp h)
    rcases nextValue_error herror with herror | ⟨f, rfl⟩
    · exact hnext herror
    · simp [Error.expected?] at htext
  | expectEnd =>
    obtain ⟨s', herror⟩ := answer_eq_error_iff.mp (Answer.error?_finished.mp h)
    rcases expectEnd_error herror with ⟨c, p, rfl⟩ | ⟨t, rfl⟩
    · simp [Error.expected?] at htext
    · simp [Error.expected?, SyntaxError.expected_unexpected, inputEnd, expressionEnd] at htext

/-- From any cursor, a rule that succeeds leaves a token looked at that it could not have taken up:
after a power no `^`, after a product no operator of a product, after an expression no operator. So
only at a closing parenthesis does `Parser.next` ask for an operator or the end. -/
theorem follow_sets (s : Cursor) :
    (∀ e, power.answer s = .ok e →
      ∃ t, (power.leave s).lookahead = some t ∧ t.kind ≠ .operator .power) ∧
    (∀ e, product.answer s = .ok e →
      ∃ t, (product.leave s).lookahead = some t ∧
        t.kind ∉ [.operator .power, .operator .times, .operator .divide, .operator .modulo]) ∧
    (∀ e, sum.answer s = .ok e →
      ∃ t, (sum.leave s).lookahead = some t ∧ t.kind.isOperator = false ∧
        (t.kind.isLiteral = true ∨ t.kind = .openParen ∨ t.kind = .closeParen ∨
          t.kind = .endOfInput)) ∧
    (∀ first e, Cursor.peek.answer s = .ok first → first.kind ≠ .endOfInput →
      sum.answer (leave Cursor.peek s) = .ok e →
      ∃ follow, (sum.leave (leave Cursor.peek s)).lookahead = some follow ∧
        follow.kind ∉ [.operator .plus, .operator .minus] ∧
        next.answer s =
          if follow.kind = .closeParen then
            .error (.parsing (.unexpectedToken expressionEnd follow))
          else .ok (some e)) ∧
    ∀ (call : Call) error, (call.answer s).error? = some (.parsing error) →
      error.expected = expressionEnd →
      ∃ t, t.kind = .closeParen ∧ error = .unexpectedToken expressionEnd t := by
  have hstop (s : Cursor) : RulesStop s.unread.length := rulesStop _
  have hproduct : ∀ k ∈ [.operator .power, .operator .times, .operator .divide, .operator .modulo],
      Nonterminal.product.continues k = true := by decide
  have hsign : ∀ k ∈ [.operator .plus, .operator .minus], Nonterminal.sum.continues k = true := by
    decide
  refine ⟨fun e he => ?_, fun e he => ?_, fun e he => ?_, fun first e hfirst hkind he => ?_,
    fun call error herror htext => ?_⟩
  · obtain ⟨t, hlook, ht⟩ := leave_of_settled ((hstop s).power s rfl) he
    exact ⟨t, hlook, fun hpower => by simp [hpower, Token.Kind.isPower] at ht⟩
  · obtain ⟨t, hlook, ht⟩ := leave_of_settled ((hstop s).product s rfl) he
    exact ⟨t, hlook, fun hmem => by simp [hproduct _ hmem] at ht⟩
  · obtain ⟨t, hlook, ht⟩ := leave_of_settled ((hstop s).sum s rfl) he
    exact ⟨t, hlook, ht, Token.Kind.cases_of_not_isOperator ht⟩
  · obtain ⟨follow, hlook, ht⟩ := leave_of_settled ((hstop _).sum _ rfl) he
    have hnext := next_of_sum (eq_ok_iff.mpr ⟨hfirst, rfl⟩) hkind (eq_ok_iff.mpr ⟨he, rfl⟩)
      (Cursor.peek_of_lookahead hlook) ht
    refine ⟨follow, hlook, fun hmem => by simp [hsign _ hmem] at ht, ?_⟩
    by_cases hclose : follow.kind = .closeParen <;> simp [answer, hnext, hclose]
  · obtain ⟨t, hkind, heq⟩ := call.eq_of_expressionEnd herror (congrArg some htext)
    exact ⟨t, hkind, Error.parsing.inj heq⟩

/-- Of `2^3)` a power, a product and an expression are read, all of them up to the parenthesis, at
which `Parser.next` fails. -/
theorem follow_sets_closing :
    let s := Cursor.ofString "2^3)"
    let tree := Expr.binary (.symbol (.operator .power) 1) (.leaf ⟨.literal .integer, "2", 0⟩)
      (.leaf ⟨.literal .integer, "3", 2⟩)
    (power.answer s = .ok tree ∧
      ∃ t, (power.leave s).lookahead = some t ∧ t.kind ≠ .operator .power) ∧
    (product.answer s = .ok tree ∧
      ∃ t, (product.leave s).lookahead = some t ∧
        t.kind ∉ [.operator .power, .operator .times, .operator .divide, .operator .modulo]) ∧
    (sum.answer s = .ok tree ∧
      ∃ t, (sum.leave s).lookahead = some t ∧ t.kind.isOperator = false) ∧
    (∃ follow, (sum.leave (leave Cursor.peek s)).lookahead = some follow ∧
      follow.kind ∉ [.operator .plus, .operator .minus]) ∧
    next.answer s = .error (.parsing (.unexpectedToken expressionEnd (.symbol .closeParen 3))) ∧
    ∃ t, t.kind = .closeParen ∧
      SyntaxError.unexpectedToken expressionEnd (.symbol .closeParen 3) =
        .unexpectedToken expressionEnd t := by
  intro s tree
  obtain ⟨hpower, hproduct, hsum, hnext, hcall⟩ := follow_sets s
  have hread : power.answer s = .ok tree := by decide +kernel
  have hreadProduct : product.answer s = .ok tree := by decide +kernel
  have hreadSum : sum.answer s = .ok tree := by decide +kernel
  have hreadPeeked : sum.answer (leave Cursor.peek s) = .ok tree := by decide +kernel
  have hfirst : Cursor.peek.answer s = .ok ⟨.literal .integer, "2", 0⟩ := by decide +kernel
  have hfails : next.answer s =
      .error (.parsing (.unexpectedToken expressionEnd (.symbol .closeParen 3))) := by
    decide +kernel
  obtain ⟨t, hlook, hoperator, -⟩ := hsum tree hreadSum
  obtain ⟨follow, hfollow, hsign, -⟩ := hnext _ tree hfirst (by decide) hreadPeeked
  have hraised := hcall .next _ (Answer.error?_tree.mpr hfails) rfl
  exact ⟨⟨hread, hpower tree hread⟩, ⟨hreadProduct, hproduct tree hreadProduct⟩,
    ⟨hreadSum, t, hlook, hoperator⟩, ⟨follow, hfollow, hsign⟩, hfails, hraised⟩

end Parser

end Calculator
