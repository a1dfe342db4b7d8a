import Calculator.Proofs.Locality
import Calculator.Proofs.Results

/-!
# Histories of calls

A parser may be called again after it has failed, it may take over a lexer of which items were
already pulled, and calls of different kinds may be mixed. Whatever the history, its cursor shows a
last part of the items of the source. This is the invariant; every call keeps it, so it holds after
any number of calls.

Every tree that a parser returns is therefore made of tokens of a lexer. Such a tree is well formed
and has a value, so that the errors of evaluation are never met in a source.
-/

namespace Calculator

/-- The calls that a parser answers: for the next tree, for the next value, and for the end. -/
inductive Parser.Call where
  | next
  | nextValue
  | expectEnd
  deriving DecidableEq, Repr

/-- Where a computation leaves a cursor, whether it succeeds or fails. -/
def Parser.leave {α : Type} (p : Parser α) (s : Cursor) : Cursor :=
  match p s with
  | .ok _ s' => s'
  | .error _ s' => s'

/-- Where a call leaves a cursor. -/
def Parser.Call.leave : Parser.Call → Cursor → Cursor
  | next => Parser.leave Parser.next
  | nextValue => Parser.leave Parser.nextValue
  | expectEnd => Parser.leave Parser.expectEnd

/-- Where calls leave a cursor, whatever they have answered. -/
def Parser.after (calls : List Parser.Call) (s : Cursor) : Cursor :=
  calls.foldl (fun s call => call.leave s) s

/-- The calls that an evaluation answers. -/
inductive Evaluation.Call where
  | run
  | finish
  | next
  deriving DecidableEq, Repr

/-- The evaluation after a call. -/
def Evaluation.Call.leave : Evaluation.Call → Evaluation → Evaluation
  | run, s => s.run.2
  | finish, s => s.finish.2
  | next, s => s.next.2

/-- The evaluation after calls, whatever they have answered. -/
def Evaluation.after (calls : List Evaluation.Call) (s : Evaluation) : Evaluation :=
  calls.foldl (fun s call => call.leave s) s

/-- A cursor that shows a last part of the items of a source. -/
def Cursor.Within (source : String) (s : Cursor) : Prop :=
  ∃ u, u <:+ (Lexer.ofString source).items ∧ s.Shows (Lexer.ofString source).endMark u

variable {source : String} {s s' : Cursor} {mark : Token} {u : List Item}

/-- What is left after an item at fault is a last part of what there was. -/
theorem Scan.left_suffix (q : Scan) (u : List Item) : q.left u <:+ u := by
  simp only [left]
  split
  · split
    · exact List.suffix_rfl
    · exact List.suffix_cons _ _
  · exact List.tail_suffix _

/-- What `Parser.next` leaves is a last part of what there was. -/
theorem Parser.leave_next (hs : s.Shows mark u) :
    ∃ u', u' <:+ u ∧ (leave next s).Shows mark u' := by
  have hout := next_outcome hs
  simp only [leave]
  generalize Parser.next s = x at hout
  cases hout with
  | nothing hu hshows => exact ⟨[], List.nil_suffix, hshows⟩
  | @sentence s' d r hu hfollows hshows => exact ⟨r, hu ▸ List.suffix_append _ r, hshows⟩
  | @fault s' e w r r' hu hsome hfault hleft hshows =>
    obtain ⟨stop, hrun, -⟩ := hfault.stops
    have hsuffix : r' <:+ r := hleft stop hrun ▸ stop.left_suffix r
    exact ⟨r', hsuffix.trans (hu ▸ List.suffix_append _ r), hshows⟩

/-- Computing the value leaves what reading the tree leaves. -/
theorem Parser.leave_nextValue (s : Cursor) : leave nextValue s = leave next s := by
  simp only [leave, nextValue_eq]
  cases next s with
  | error e s' => rfl
  | ok found s' =>
    cases found with
    | none => rfl
    | some e =>
      simp only
      cases e.value <;> rfl

/-- What `Parser.expectEnd` leaves is a last part of what there was. -/
theorem Parser.leave_expectEnd (hs : s.Shows mark u) :
    ∃ u', u' <:+ u ∧ (leave expectEnd s).Shows mark u' := by
  cases u with
  | nil =>
    obtain ⟨s', hend, hshows⟩ := expectEnd_nil hs
    exact ⟨[], List.suffix_rfl, by simpa only [leave, hend] using hshows⟩
  | cons item r =>
    obtain ⟨s', r', hend, hleft, hshows⟩ := expectEnd_cons hs
    exact ⟨r', hleft, by simpa only [leave, hend] using hshows⟩

/-- A call keeps a cursor within the source. -/
theorem Cursor.Within.leave (h : s.Within source) (call : Parser.Call) :
    (call.leave s).Within source := by
  obtain ⟨u, hu, hs⟩ := h
  have hcall : ∃ u', u' <:+ u ∧ (call.leave s).Shows (Lexer.ofString source).endMark u' := by
    cases call with
    | next => exact Parser.leave_next hs
    | nextValue =>
      simp only [Parser.Call.leave, Parser.leave_nextValue]
      exact Parser.leave_next hs
    | expectEnd => exact Parser.leave_expectEnd hs
  obtain ⟨u', hu', hs'⟩ := hcall
  exact ⟨u', hu'.trans hu, hs'⟩

/-- A parser that takes over a lexer is within the source of the lexer. -/
theorem Cursor.within_passing (source : String) (skipped : Nat) :
    (ofLexer ((Lexer.ofString source).passing skipped)).Within source := by
  refine ⟨_, List.drop_suffix skipped _, ?_⟩
  rw [← Lexer.passing_items, ← Lexer.passing_endMark skipped]
  exact shows_ofLexer _

/-- After any calls a cursor is within the source. -/
theorem Cursor.Within.after (h : s.Within source) (calls : List Parser.Call) :
    (Parser.after calls s).Within source := by
  induction calls generalizing s with
  | nil => exact h
  | cons call calls ih => exact ih (h.leave call)

/-- A step of an evaluation leaves its cursor where the computation leaves it, or where it is. -/
theorem Evaluation.step_cursor {α : Type} (p : Parser α) (atEnd : α) (s : Evaluation) :
    (step p atEnd s).2.cursor = if s.failed then s.cursor else p.leave s.cursor := by
  obtain ⟨cursor, failed⟩ := s
  cases failed with
  | true => rfl
  | false =>
    simp only [step, Parser.leave, Bool.false_eq_true, if_false]
    cases p cursor <;> rfl

/-- An evaluation is iterated by running it. -/
theorem Evaluation.next_snd (s : Evaluation) : s.next.2 = s.run.2 := by
  rw [next]
  split <;> simp [*]

/-- A call keeps an evaluation within the source. -/
theorem Evaluation.Call.within_leave {s : Evaluation} (h : s.cursor.Within source)
    (call : Evaluation.Call) : (call.leave s).cursor.Within source := by
  have hrun : s.run.2.cursor.Within source := by
    rw [Evaluation.run, step_cursor]
    split
    · exact h
    · exact h.leave .nextValue
  have hfinish : s.finish.2.cursor.Within source := by
    rw [Evaluation.finish, step_cursor]
    split
    · exact h
    · exact h.leave .expectEnd
  cases call with
  | run => exact hrun
  | finish => exact hfinish
  | next => exact (congrArg (·.cursor.Within source) s.next_snd).mpr hrun

/-- After any calls an evaluation is within the source. -/
theorem Evaluation.within_after {s : Evaluation} (h : s.cursor.Within source)
    (calls : List Evaluation.Call) : (after calls s).cursor.Within source := by
  induction calls generalizing s with
  | nil => exact h
  | cons call calls ih => exact ih (call.within_leave h)

/-- An item at fault is not an error of evaluation. -/
theorem Fault.ne_evaluation {w : List Token} {item : Item} {e : Error} (h : Fault w item e)
    (f : EvalError) : e ≠ .evaluation f := by
  obtain ⟨stop, -, hfault⟩ := h.stops
  intro heq
  obtain rfl := heq
  cases item with
  | stray c p => simp [Scan.fault?] at hfault
  | token t =>
    simp only [Scan.fault?] at hfault
    split at hfault <;> simp at hfault

/-- A tree that is read within a source is well formed. -/
theorem Cursor.Within.wellFormed_of_next {e : Expr} (h : s.Within source)
    (hnext : Parser.next s = .ok (some e) s') : e.WellFormed := by
  obtain ⟨u, hu, hs⟩ := h
  have hout := Parser.next_outcome hs
  rw [hnext] at hout
  cases hout with
  | @sentence _ d r hu' hfollows hshows =>
    apply d.wellFormed
    intro t ht
    have hmem : .token t ∈ u := by simp [hu', ht]
    exact Lexer.lexical_of_mem_items (hu.subset hmem)

/-- A value that is read within a source is no error of evaluation. -/
theorem Cursor.Within.nextValue_ne (h : s.Within source) (f : EvalError) (s' : Cursor) :
    Parser.nextValue s ≠ .error (.evaluation f) s' := by
  rw [Parser.nextValue_eq]
  cases hnext : Parser.next s with
  | error e s₁ =>
    obtain ⟨u, hu, hs⟩ := h
    have hout := Parser.next_outcome hs
    rw [hnext] at hout
    cases hout with
    | fault hu hsome hfault hleft hshows => simpa using fun he => absurd he (hfault.ne_evaluation f)
  | ok found s₁ =>
    cases found with
    | none => simp
    | some e =>
      obtain ⟨x, hx⟩ := (h.wellFormed_of_next hnext).exists_value
      simp [hx]

/-- Checking for the end within a source is no error of evaluation. -/
theorem Cursor.Within.expectEnd_ne (h : s.Within source) (f : EvalError) (s' : Cursor) :
    Parser.expectEnd s ≠ .error (.evaluation f) s' := by
  obtain ⟨u, hu, hs⟩ := h
  cases u with
  | nil =>
    obtain ⟨s₁, hend, -⟩ := Parser.expectEnd_nil hs
    simp [hend]
  | cons item r =>
    obtain ⟨s₁, r', hend, -, -⟩ := Parser.expectEnd_cons hs
    cases item <;> simp [hend, Item.unexpected]

/-- A step of an evaluation has the errors of the computation. -/
theorem Evaluation.step_ne {α : Type} {p : Parser α} {atEnd : α} {s : Evaluation} {e : Error}
    (h : ∀ s', p s.cursor ≠ .error e s') : (step p atEnd s).1 ≠ .error e := by
  simp only [step]
  split
  · simp
  · cases hp : p s.cursor with
    | ok a s' => simp
    | error e' s' =>
      simp only [ne_eq, Except.error.injEq]
      intro heq
      obtain rfl := heq
      exact h s' hp

/-- An evaluation that is iterated has the errors that it has when it is run. -/
theorem Evaluation.next_fst_ne {s : Evaluation} {e : Error} (h : s.run.1 ≠ .error e) :
    s.next.1 ≠ some (.error e) := by
  rw [next]
  split <;> simp_all

/-- A cursor at the start of a source is within it. -/
theorem Cursor.within_ofString (source : String) : (ofString source).Within source :=
  within_passing source 0

/-- Evaluating one expression gives no error of evaluation. -/
theorem evaluate_ne (source : String) (f : EvalError) :
    evaluate source ≠ .error (.evaluation f) := by
  have hstart := Cursor.within_ofString source
  have hvalue := hstart.nextValue_ne f
  have hend := (hstart.leave .nextValue).expectEnd_ne f
  simp only [Parser.Call.leave, Parser.leave] at hend
  rw [evaluate_eq]
  generalize Parser.nextValue (.ofString source) = x at hvalue hend
  cases x with
  | error e s => simpa using fun he => hvalue s (by rw [he])
  | ok x s =>
    simp only at hend ⊢
    cases hlast : Parser.expectEnd s with
    | ok _ s' => simp
    | error e s' => simpa using fun he => hend s' (by rw [hlast, he])

/-- Evaluating all expressions gives no error of evaluation. -/
theorem evaluateAll_ne (source : String) (f : EvalError) :
    evaluateAll source ≠ .error (.evaluation f) := by
  rcases split_cases source with
    ⟨ds, hds, hitems⟩ | ⟨ds, w, r, e, xs, hitems, hparted, hsome, hfault, hvalues⟩
  · obtain ⟨xs, hvalues⟩ := exists_values_of_items (hitems.trans (List.append_nil _).symm)
    simp [evaluateAll_of_separated hds hitems hvalues]
  · rw [evaluateAll, Evaluation.results_of_items hitems hparted hsome hfault hvalues, mapM_error]
    simpa using hfault.ne_evaluation f

/-- After any calls, also ones that have failed, a tree that a parser returns is well formed and has
a value. So no parser and no evaluation of a source reports an error of evaluation. -/
theorem wellFormed_of_calls (source : String) :
    (∀ (skipped : Nat) (calls : List Parser.Call),
      let s := Parser.after calls (.ofLexer ((Lexer.ofString source).passing skipped))
      (∀ e s', Parser.next s = .ok (some e) s' → e.WellFormed ∧ ∃ x, e.value = .ok x) ∧
      ∀ f s', Parser.nextValue s ≠ .error (.evaluation f) s' ∧
        Parser.expectEnd s ≠ .error (.evaluation f) s') ∧
    (∀ (calls : List Evaluation.Call) (f : EvalError),
      let s := Evaluation.after calls (.ofString source)
      s.run.1 ≠ .error (.evaluation f) ∧ s.finish.1 ≠ .error (.evaluation f) ∧
        s.next.1 ≠ some (.error (.evaluation f))) ∧
    ∀ f, evaluate source ≠ .error (.evaluation f) ∧
      evaluateAll source ≠ .error (.evaluation f) := by
  refine ⟨fun skipped calls => ?_, fun calls f => ?_, fun f => ?_⟩
  · have hwithin := (Cursor.within_passing source skipped).after calls
    constructor
    · intro e s' hnext
      have hwellFormed := hwithin.wellFormed_of_next hnext
      exact ⟨hwellFormed, hwellFormed.exists_value⟩
    · intro f s'
      exact ⟨hwithin.nextValue_ne f s', hwithin.expectEnd_ne f s'⟩
  · have hwithin :=
      Evaluation.within_after (s := .ofString source) (Cursor.within_ofString source) calls
    have hrun : (Evaluation.after calls (.ofString source)).run.1 ≠ .error (.evaluation f) :=
      Evaluation.step_ne (hwithin.nextValue_ne f)
    exact ⟨hrun, Evaluation.step_ne (hwithin.expectEnd_ne f), Evaluation.next_fst_ne hrun⟩
  · exact ⟨evaluate_ne source f, evaluateAll_ne source f⟩

end Calculator
