import Calculator.Proofs.Results

/-!
# One expression, and all of them

`evaluate` and `evaluateAll` begin alike: they read the first expression of a source. If this fails
they give the same error, and if there is no expression both say so. After a first value they part.
The one asks for the end of the source and looks at nothing else, the other goes on reading. So they
agree on the sources of at most one expression, and a source that goes on after its first expression
is refused by `evaluate` for the token that comes next, whatever `evaluateAll` makes of the rest.
-/

namespace Calculator

variable {source : String} {x : Float} {e : Error}

/-- The first run of an evaluation is the first reading of a value. -/
theorem Evaluation.run_ofString (source : String) :
    (ofString source).run.1 = Parser.nextValue.onSource source := by
  simp only [ofString, ofCursor, run, step, Parser.onSource, Bool.false_eq_true, if_false]
  cases Parser.nextValue (.ofString source) <;> rfl

/-- Nothing is there to be evaluated exactly when a source has no items. -/
theorem evaluate_eq_none_iff :
    evaluate source = .ok none ↔ (Lexer.ofString source).items = [] := by
  constructor
  · intro hnone
    by_contra hsome
    by_cases hsentence : ∃ d : Sentence, (Lexer.ofString source).items = d.yield.map .token
    · obtain ⟨d, hitems⟩ := hsentence
      obtain ⟨x, -, hvalue⟩ := evaluate_of_sentence hitems
      simp [hvalue] at hnone
    · obtain ⟨e, herror⟩ := evaluate_of_other hsome hsentence
      simp [herror] at hnone
  · exact evaluate_of_nil

/-- A source has one value exactly when its items are a sentence whose tree has that value. -/
theorem evaluate_eq_some_iff :
    evaluate source = .ok (some x) ↔
      ∃ d : Sentence, (Lexer.ofString source).items = d.yield.map .token ∧
        Expr.value d.tree = .ok x := by
  constructor
  · intro hsome
    have hnil : (Lexer.ofString source).items ≠ [] := by
      intro hnil
      simp [evaluate_of_nil hnil] at hsome
    by_cases hsentence : ∃ d : Sentence, (Lexer.ofString source).items = d.yield.map .token
    · obtain ⟨d, hitems⟩ := hsentence
      obtain ⟨y, hy, hvalue⟩ := evaluate_of_sentence hitems
      obtain rfl : y = x := by simpa [hvalue] using hsome
      exact ⟨d, hitems, hy⟩
    · obtain ⟨e, herror⟩ := evaluate_of_other hnil hsentence
      simp [herror] at hsome
  · intro h
    obtain ⟨d, hitems, hx⟩ := h
    obtain ⟨y, hy, hvalue⟩ := evaluate_of_sentence hitems
    obtain rfl : y = x := Except.ok.inj (hy.symm.trans hx)
    exact hvalue

/-- There are no values exactly when a source has no items. -/
theorem evaluateAll_eq_nil_iff :
    evaluateAll source = .ok [] ↔ (Lexer.ofString source).items = [] := by
  rw [evaluateAll_eq_ok]
  constructor
  · intro h
    obtain ⟨ds, hitems, -, hvalues⟩ := h
    obtain rfl : ds = [] := by simpa using hvalues
    simpa using hitems
  · intro hnil
    exact ⟨[], by simpa using hnil, by simp [Separated], rfl⟩

/-- There is exactly one value when the items of a source are one sentence. -/
theorem evaluateAll_eq_singleton_iff :
    evaluateAll source = .ok [x] ↔
      ∃ d : Sentence, (Lexer.ofString source).items = d.yield.map .token ∧
        Expr.value d.tree = .ok x := by
  rw [evaluateAll_eq_ok]
  constructor
  · intro h
    obtain ⟨ds, hitems, -, hvalues⟩ := h
    obtain ⟨d, rfl, hx⟩ : ∃ d, ds = [d] ∧ Expr.value d.tree = .ok x := by
      simpa [List.map_eq_cons_iff] using hvalues
    exact ⟨d, by simpa using hitems, hx⟩
  · intro h
    obtain ⟨d, hitems, hx⟩ := h
    exact ⟨[d], by simpa using hitems, by simp [Separated], by simp [hx]⟩

/-- An error in the first expression is the error of the source, however it is evaluated. -/
theorem evaluate_of_run_error (h : (Evaluation.ofString source).run.1 = .error e) :
    evaluate source = .error e ∧ evaluateAll source = .error e := by
  rw [Evaluation.run_ofString, Parser.onSource] at h
  rw [evaluate_eq, evaluateAll, Evaluation.ofString, Evaluation.results_eq]
  generalize Parser.nextValue (.ofString source) = first at h
  cases first with
  | ok found s => simp at h
  | error e' s =>
    obtain rfl : e' = e := by simpa using h
    exact ⟨rfl, mapM_error [] e'⟩

/-- A source that goes on after its first expression is refused for the next token. -/
theorem evaluate_of_followed {d : Sentence} {t : Token} {r : List Item}
    (hitems : (Lexer.ofString source).items = d.yield.map .token ++ .token t :: r)
    (ht : t.kind.startsOperand = true) :
    ∃ x s, Expr.value d.tree = .ok x ∧ (Evaluation.ofString source).run.1 = .ok (some x) ∧
      Parser.next (.ofString source) = .ok (some d.tree) s ∧ s.unread = .token t :: r ∧
      evaluate source = .error (.parsing (.unexpectedToken Parser.inputEnd t)) := by
  have hs := Cursor.shows_ofString source
  rw [hitems] at hs
  obtain ⟨s, hnext, hshows⟩ := Parser.next_of_sentence hs (by simpa [Follows] using ht)
  obtain ⟨x, hx⟩ := (d.wellFormed_of_items hitems).exists_value
  obtain ⟨s', r', hend, -, -⟩ := Parser.expectEnd_cons hshows
  have hkind : t.kind ≠ .endOfInput := hshows.kind_ne_endOfInput (by simp)
  refine ⟨x, s, hx, ?_, hnext, hshows.unread, ?_⟩
  · simp only [Evaluation.run_ofString, Parser.onSource, Parser.nextValue_eq, hnext, hx]
  · simp only [evaluate_eq, Parser.nextValue_eq, hnext, hx, hend, Item.unexpected,
      SyntaxError.unexpected, if_neg hkind]

/-- A source has no value, or one value, or an error of its first expression, in both ways of
evaluating it. In every other case a literal or an opening parenthesis follows the first expression,
and as a source of one expression it is refused for this token. -/
theorem evaluate_evaluateAll_agree (source : String) :
    (evaluate source = .ok none ↔ evaluateAll source = .ok []) ∧
    (∀ x, evaluate source = .ok (some x) ↔ evaluateAll source = .ok [x]) ∧
    (∀ e, (Evaluation.ofString source).run.1 = .error e →
      evaluate source = .error e ∧ evaluateAll source = .error e) ∧
    (evaluateAll source ≠ .ok [] → (∀ x, evaluateAll source ≠ .ok [x]) →
      (∀ e, (Evaluation.ofString source).run.1 ≠ .error e) →
        ∃ (d : Sentence) (t : Token) (r : List Item) (x : Float) (s : Cursor),
          (Lexer.ofString source).items = d.yield.map .token ++ .token t :: r ∧
          Parser.next (.ofString source) = .ok (some d.tree) s ∧ s.unread = .token t :: r ∧
          (Evaluation.ofString source).run.1 = .ok (some x) ∧ Expr.value d.tree = .ok x ∧
          (t.kind.isLiteral = true ∨ t.kind = .openParen) ∧
          evaluate source = .error (.parsing (.unexpectedToken "end of input" t))) := by
  refine ⟨?_, fun x => ?_, fun e => evaluate_of_run_error, fun hnil hsingle hfail => ?_⟩
  · rw [evaluate_eq_none_iff, evaluateAll_eq_nil_iff]
  · rw [evaluate_eq_some_iff, evaluateAll_eq_singleton_iff]
  · rw [ne_eq, evaluateAll_eq_nil_iff] at hnil
    simp only [ne_eq, evaluateAll_eq_singleton_iff] at hsingle
    simp only [Evaluation.run_ofString, Parser.onSource, Parser.nextValue_eq, ne_eq] at hfail
    have hout := Parser.next_outcome (Cursor.shows_ofString source)
    generalize hfirst : Parser.next (.ofString source) = first at hout hfail
    cases hout with
    | nothing hu => exact absurd hu hnil
    | @fault s' e w r r' hu => exact absurd rfl (hfail e)
    | @sentence s' d r hu hfollows hshows =>
      obtain ⟨x, hx⟩ := (d.wellFormed_of_items hu).exists_value
      cases r with
      | nil => exact absurd ⟨d, by simpa using hu, hx⟩ (hsingle x)
      | cons item r =>
        obtain ⟨t, rfl, ht⟩ := hfollows item (by simp)
        obtain ⟨y, s, hy, hrun, hnext, hunread, hone⟩ := evaluate_of_followed hu ht
        have hkind : t.kind.isLiteral = true ∨ t.kind = .openParen := by
          cases hk : t.kind <;> simp_all [Token.Kind.startsOperand, Token.Kind.isLiteral]
        exact ⟨d, t, r, y, s, hu, hfirst.symm.trans hnext, hunread, hrun, hy, hkind, hone⟩

/-- In the source `1 (2` the group after the first expression is not even complete. -/
theorem evaluate_before_open_group :
    evaluateAll "1 (2" = .error (.parsing (.unexpectedEnd "')'" 4)) ∧
      ∃ t : Token, (t.kind.isLiteral = true ∨ t.kind = .openParen) ∧
        evaluate "1 (2" = .error (.parsing (.unexpectedToken "end of input" t)) := by
  have hall : evaluateAll "1 (2" = .error (.parsing (.unexpectedEnd "')'" 4)) := by decide +kernel
  have hrun : (Evaluation.ofString "1 (2").run.1 = .ok (some (Magnitude.toFloat false
      (Magnitude.nearest 1 1))) := by decide +kernel
  obtain ⟨d, t, r, x, s, -, -, -, -, -, ht, hone⟩ :=
    (evaluate_evaluateAll_agree "1 (2").2.2.2 (by simp [hall]) (by simp [hall]) (by simp [hrun])
  exact ⟨hall, t, ht, hone⟩

end Calculator
