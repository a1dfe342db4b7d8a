import Calculator.Expr.Value
import Calculator.Parser

/-!
# Evaluating a source

A source holds any number of expressions after one another. `Parser.nextValue` reads the next
one and computes its value. An `Evaluation` does so until the end or the first error: an error
is reported once, and from then on the evaluation is at its end.

`evaluate` is for a source of at most one expression, `evaluateAll` for any number of them; both
answer with the first error if there is one.
-/

namespace Calculator

namespace Parser

/-- Read the next expression and compute its value; there is none when only the end is left. -/
def nextValue : Parser (Option Float) := do
  match ← next with
  | none => return none
  | some e =>
    match e.value with
    | .ok x => return some x
    | .error error => throw (.evaluation error)

/-- What a parser answers at the start of a source. -/
def onSource {α : Type} (p : Parser α) (source : String) : Except Error α :=
  match p (.ofString source) with
  | .ok a _ => .ok a
  | .error e _ => .error e

/-- An expression that is returned has been passed. -/
theorem next_some_length {s s' : Cursor} {e : Expr} (h : next s = .ok (some e) s') :
    s'.unread.length < s.unread.length := by
  obtain ⟨first, s₁, s₂, follow, hpeek, hread, hfollow⟩ := next_some h
  rw [(Cursor.peek_ok hfollow).2, ← (Cursor.peek_ok hpeek).2]
  exact (sum_progress s₁).lt_of_ok hread

/-- An expression whose value is returned has been passed. -/
theorem nextValue_some_length {s s' : Cursor} {x : Float} (h : nextValue s = .ok (some x) s') :
    s'.unread.length < s.unread.length := by
  simp only [nextValue, bind, EStateM.bind] at h
  cases hnext : next s with
  | error e s₁ => simp [hnext] at h
  | ok found s₁ =>
    simp only [hnext] at h
    cases found with
    | none => simp [pure, EStateM.pure] at h
    | some e =>
      cases hvalue : e.value with
      | error error =>
        simp [hvalue] at h
      | ok y =>
        simp only [hvalue, pure, EStateM.pure, EStateM.Result.ok.injEq] at h
        exact h.2 ▸ next_some_length hnext

end Parser

/-- A cursor in a source that is being evaluated, and whether an error has been reported. -/
structure Evaluation where
  cursor : Cursor
  failed : Bool
  deriving DecidableEq, Repr, Inhabited

namespace Evaluation

/-- An evaluation that begins at a cursor. -/
def ofCursor (cursor : Cursor) : Evaluation :=
  ⟨cursor, false⟩

/-- The evaluation of a source from its start. -/
def ofString (source : String) : Evaluation :=
  ofCursor (.ofString source)

/-- One step of an evaluation. After a failure nothing is done, and the given answer stands. -/
def step {α : Type} (p : Parser α) (atEnd : α) (s : Evaluation) :
    Except Error α × Evaluation :=
  if s.failed then (.ok atEnd, s)
  else
    match p s.cursor with
    | .ok a cursor => (.ok a, ⟨cursor, false⟩)
    | .error e cursor => (.error e, ⟨cursor, true⟩)

/-- The value of the next expression; none at the end and after a failure. -/
def run : Evaluation → Except Error (Option Float) × Evaluation :=
  step Parser.nextValue none

/-- Whether the end is reached, as it is after a failure. -/
def finish : Evaluation → Except Error Unit × Evaluation :=
  step Parser.expectEnd ()

/-- The next value or the error that ends the evaluation; nothing after that. -/
def next (s : Evaluation) : Option (Except Error Float) × Evaluation :=
  match s.run with
  | (.ok none, s') => (none, s')
  | (.ok (some x), s') => (some (.ok x), s')
  | (.error e, s') => (some (.error e), s')

/-- The number of steps that may still bring something. -/
def remaining (s : Evaluation) : Nat :=
  if s.failed then 0 else s.cursor.unread.length + 1

/-- A step that brings something leaves fewer of them. -/
theorem next_remaining {s s' : Evaluation} {r : Except Error Float}
    (h : s.next = (some r, s')) : s'.remaining < s.remaining := by
  obtain ⟨cursor, failed⟩ := s
  cases failed with
  | true => simp [next, run, step] at h
  | false =>
    simp only [next, run, step, Bool.false_eq_true, if_false] at h
    cases hvalue : Parser.nextValue cursor with
    | error e c =>
      simp only [hvalue, Prod.mk.injEq] at h
      simp [← h.2, remaining]
    | ok found c =>
      cases found with
      | none => simp [hvalue] at h
      | some x =>
        simp only [hvalue, Prod.mk.injEq] at h
        have := Parser.nextValue_some_length hvalue
        simp only [← h.2, remaining, Bool.false_eq_true, if_false]
        omega

/-- Everything the evaluation still brings, and the evaluation after it. -/
def drain (s : Evaluation) : List (Except Error Float) × Evaluation :=
  match _h : s.next with
  | (none, s') => ([], s')
  | (some r, s') =>
    let (rest, last) := s'.drain
    (r :: rest, last)
termination_by s.remaining
decreasing_by exact next_remaining _h

/-- The values of the expressions still to come, and the error after them if there is one. -/
def results (s : Evaluation) : List (Except Error Float) :=
  s.drain.1

end Evaluation

/-- The value of the only expression of a source, or none if it has no expression. -/
def evaluate (source : String) : Except Error (Option Float) :=
  Parser.onSource (do
    let x ← Parser.nextValue
    Parser.expectEnd
    return x) source

/-- The values of all expressions of a source. -/
def evaluateAll (source : String) : Except Error (List Float) :=
  (Evaluation.ofString source).results.mapM id

end Calculator
