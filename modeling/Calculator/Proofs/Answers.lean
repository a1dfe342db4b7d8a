import Calculator.Proofs.Calls

/-!
# The answers to a history of calls

Calls are answered one after another, each where the one before has left off. A parser goes on after
its errors. An evaluation stops at the first one: up to this error it answers as the parser does,
and from then on every call is told that the end is reached.

Whether an evaluation still has anything to say is decided by `Evaluation.AtEnd`: it has failed, or
nothing is left of its source. At such a place every call answers so and stays there, and a call
that fails or finds the end leads there. So the checks for the end that succeed can be left out of a
history, since they are made where nothing can be told apart any more.
-/

namespace Calculator

/-- What a call answers: the next tree or value, whether the end is reached, or the next result. -/
inductive Answer where
  | tree (found : Except Error (Option Expr))
  | value (found : Except Error (Option Float))
  | finished (reached : Except Error Unit)
  | listed (result : Option (Except Error Float))

namespace Answer

/-- Whether the answer is an error. -/
def isError : Answer → Bool
  | tree (.error _) | value (.error _) | finished (.error _) | listed (some (.error _)) => true
  | _ => false

/-- Whether the answer is that the end is reached, to a check for it. -/
def isFinished : Answer → Bool
  | finished (.ok _) => true
  | _ => false

end Answer

namespace Parser

/-- What a parser answers at a cursor. -/
def answer {α : Type} (p : Parser α) (s : Cursor) : Except Error α :=
  match p s with
  | .ok a _ => .ok a
  | .error e _ => .error e

/-- What a parser answers to a call. -/
def Call.answer : Call → Cursor → Answer
  | next, s => .tree (Parser.next.answer s)
  | nextValue, s => .value (Parser.nextValue.answer s)
  | expectEnd, s => .finished (Parser.expectEnd.answer s)

/-- What a parser answers to a call when nothing is left. -/
def Call.atEnd : Call → Answer
  | next => .tree (.ok none)
  | nextValue => .value (.ok none)
  | expectEnd => .finished (.ok ())

/-- What a parser answers to calls after one another, whether they succeed or fail. -/
def answers : List Call → Cursor → List Answer
  | [], _ => []
  | call :: calls, s => call.answer s :: answers calls (call.leave s)

end Parser

namespace Evaluation

/-- What an evaluation answers to a call. -/
def Call.answer : Call → Evaluation → Answer
  | run, s => .value s.run.1
  | finish, s => .finished s.finish.1
  | next, s => .listed s.next.1

/-- What an evaluation answers to a call when it has nothing more to say. -/
def Call.atEnd : Call → Answer
  | run => .value (.ok none)
  | finish => .finished (.ok ())
  | next => .listed none

/-- What an evaluation answers to calls after one another. -/
def answers : List Call → Evaluation → List Answer
  | [], _ => []
  | call :: calls, s => call.answer s :: answers calls (call.leave s)

/-- The calls with their answers. -/
def transcript (calls : List Call) (s : Evaluation) : List (Call × Answer) :=
  calls.zip (answers calls s)

/-- The call of a parser that a call of an evaluation makes. -/
def Call.onParser : Call → Parser.Call
  | run | next => .nextValue
  | finish => .expectEnd

/-- The answer of the parser as the call gives it. Iterating gives the answer of a run with the
error inside. -/
def Call.present : Call → Answer → Answer
  | next, .value (.ok none) => .listed none
  | next, .value (.ok (some x)) => .listed (some (.ok x))
  | next, .value (.error e) => .listed (some (.error e))
  | _, answer => answer

/-- An evaluation that has nothing more to say: it has failed, or nothing is left of its source. -/
def AtEnd (s : Evaluation) : Prop :=
  s.failed = true ∨ ∃ mark, s.cursor.Shows mark []

end Evaluation

variable {source : String} {c : Cursor} {mark : Token} {u : List Item}

/-- A call finds the end of a parser exactly when nothing is left. -/
theorem Parser.Call.answer_eq_atEnd_iff (hc : c.Shows mark u) (call : Parser.Call) :
    call.answer c = call.atEnd ↔ u = [] := by
  have hnext : Parser.next.answer c = .ok none ↔ u = [] := by
    have hout := Parser.next_outcome hc
    simp only [Parser.answer]
    generalize Parser.next c = x at hout
    cases hout with
    | nothing hu => simp [hu]
    | sentence d hu =>
      have hyield := d.yield_ne_nil (by simp) (by simp)
      simp [hu, hyield]
    | fault hu hsome => simp [hsome]
  cases call with
  | next => simpa only [answer, atEnd, Answer.tree.injEq] using hnext
  | nextValue =>
    rw [← hnext]
    simp only [answer, atEnd, Answer.value.injEq, Parser.answer, Parser.nextValue_eq]
    cases Parser.next c with
    | error e s => simp
    | ok found s =>
      cases found with
      | none => simp
      | some e => cases hvalue : e.value <;> simp [hvalue]
  | expectEnd =>
    simp only [answer, atEnd, Answer.finished.injEq, Parser.answer]
    cases u with
    | nil =>
      obtain ⟨s, hend, -⟩ := Parser.expectEnd_nil hc
      simp [hend]
    | cons item r =>
      obtain ⟨s, r', hend, -, -⟩ := Parser.expectEnd_cons hc
      simp [hend]

/-- When nothing is left, a call leaves nothing. -/
theorem Parser.Call.shows_leave_nil (hc : c.Shows mark []) (call : Parser.Call) :
    (call.leave c).Shows mark [] := by
  have hcall : ∃ u, u <:+ [] ∧ (call.leave c).Shows mark u := by
    cases call with
    | next => exact Parser.leave_next hc
    | nextValue =>
      simp only [Parser.Call.leave, Parser.leave_nextValue]
      exact Parser.leave_next hc
    | expectEnd => exact Parser.leave_expectEnd hc
  obtain ⟨u, hu, hshows⟩ := hcall
  rwa [List.suffix_nil.mp hu] at hshows

namespace Evaluation

variable {s : Evaluation} {call : Call} {calls before later : List Call}

/-- A step that is not stopped by a failure is the computation itself, and it fails with it. -/
theorem step_open {α : Type} (p : Parser α) (atEnd : α) (c : Cursor) :
    step p atEnd ⟨c, false⟩ = (p.answer c, ⟨p.leave c, !(p.answer c).isOk⟩) := by
  simp only [step, Parser.answer, Parser.leave, Bool.false_eq_true, if_false]
  cases p c <;> rfl

/-- Before any failure an evaluation answers as its parser does. -/
theorem Call.answer_open (call : Call) (c : Cursor) :
    call.answer ⟨c, false⟩ = call.present (call.onParser.answer c) := by
  cases call with
  | run => simp only [answer, Evaluation.run, step_open, onParser, present, Parser.Call.answer]
  | finish =>
    simp only [answer, Evaluation.finish, step_open, onParser, present, Parser.Call.answer]
  | next =>
    simp only [answer, Evaluation.next, Evaluation.run, step_open, onParser, Parser.Call.answer]
    cases Parser.nextValue.answer c with
    | error e => rfl
    | ok found => cases found <;> rfl

/-- Before any failure an evaluation goes where its parser goes, and it fails with it. -/
theorem Call.leave_open (call : Call) (c : Cursor) :
    call.leave ⟨c, false⟩ = ⟨call.onParser.leave c, (call.answer ⟨c, false⟩).isError⟩ := by
  cases call with
  | run =>
    simp only [leave, answer, Evaluation.run, step_open, onParser, Parser.Call.leave]
    cases Parser.nextValue.answer c <;> rfl
  | finish =>
    simp only [leave, answer, Evaluation.finish, step_open, onParser, Parser.Call.leave]
    cases Parser.expectEnd.answer c <;> rfl
  | next =>
    simp only [leave, answer, Evaluation.next, Evaluation.run, step_open, onParser,
      Parser.Call.leave]
    cases Parser.nextValue.answer c with
    | error e => rfl
    | ok found => cases found <;> rfl

/-- A call that finds the end of the parser finds the end of the evaluation, and no other does. -/
theorem Call.answer_open_eq_atEnd_iff (call : Call) (c : Cursor) :
    call.answer ⟨c, false⟩ = call.atEnd ↔ call.onParser.answer c = call.onParser.atEnd := by
  rw [call.answer_open]
  cases call with
  | run | finish => rfl
  | next =>
    simp only [onParser, Parser.Call.answer, atEnd, Parser.Call.atEnd]
    cases Parser.nextValue.answer c with
    | error e => simp [present]
    | ok found => cases found <;> simp [present]

/-- An evaluation that has failed stays as it is. -/
theorem Call.leave_failed (call : Call) (c : Cursor) : call.leave ⟨c, true⟩ = ⟨c, true⟩ := by
  cases call <;> rfl

/-- An evaluation that has nothing more to say says so, and goes on saying so. -/
theorem AtEnd.answer (h : s.AtEnd) (call : Call) :
    call.answer s = call.atEnd ∧ (call.leave s).AtEnd := by
  obtain ⟨c, failed⟩ := s
  cases failed with
  | true => exact ⟨by cases call <;> rfl, .inl (by rw [call.leave_failed])⟩
  | false =>
    obtain ⟨mark, hc⟩ := h.resolve_left (by simp)
    refine ⟨?_, .inr ⟨mark, ?_⟩⟩
    · rw [call.answer_open_eq_atEnd_iff, Parser.Call.answer_eq_atEnd_iff hc]
    · rw [call.leave_open]
      exact call.onParser.shows_leave_nil hc

/-- An evaluation that has nothing more to say gives every call the same answer. -/
theorem AtEnd.answers (h : s.AtEnd) (calls : List Call) :
    answers calls s = calls.map Call.atEnd := by
  induction calls generalizing s with
  | nil => rfl
  | cons call calls ih =>
    obtain ⟨hanswer, hleave⟩ := h.answer call
    rw [Evaluation.answers, hanswer, ih hleave, List.map_cons]

/-- A call that fails leaves nothing more to say. -/
theorem Call.atEnd_of_isError (h : (call.answer s).isError = true) : (call.leave s).AtEnd := by
  obtain ⟨c, failed⟩ := s
  cases failed with
  | true => exact .inl (by rw [call.leave_failed])
  | false => exact .inl (by rw [call.leave_open, h])

/-- A call finds the end exactly where there is nothing more to say. -/
theorem Call.answer_eq_atEnd_iff (h : s.cursor.Within source) (call : Call) :
    call.answer s = call.atEnd ↔ s.AtEnd := by
  refine ⟨fun hanswer => ?_, fun hend => (hend.answer call).1⟩
  obtain ⟨c, failed⟩ := s
  obtain ⟨u, -, hc⟩ := h
  cases failed with
  | true => exact .inl rfl
  | false =>
    rw [call.answer_open_eq_atEnd_iff, Parser.Call.answer_eq_atEnd_iff hc] at hanswer
    exact .inr ⟨_, hanswer ▸ hc⟩

/-- The answers to a history are those to its beginning and those to the rest after it. -/
theorem answers_append (before later : List Call) (s : Evaluation) :
    answers (before ++ later) s = answers before s ++ answers later (after before s) := by
  induction before generalizing s with
  | nil => rfl
  | cons call before ih =>
    simp only [List.cons_append, answers, ih]
    rfl

/-- After a call that finds the end, every call finds it. -/
theorem answers_of_atEnd (h : s.cursor.Within source)
    (hcall : call.answer (after before s) = call.atEnd) :
    answers (before ++ call :: later) s =
      answers before s ++ call.atEnd :: later.map Call.atEnd := by
  have hend := (call.answer_eq_atEnd_iff (within_after h before)).mp hcall
  rw [answers_append, hend.answers, List.map_cons]

/-- After a call that fails, every call is told that the end is reached. -/
theorem answers_of_isError (hcall : (call.answer (after before s)).isError = true) :
    answers (before ++ call :: later) s =
      answers before s ++ call.answer (after before s) :: later.map Call.atEnd := by
  rw [answers_append, answers, (Call.atEnd_of_isError hcall).answers]

/-- What is said at the end is no error. -/
theorem countP_isError_atEnd (calls : List Call) :
    (calls.map Call.atEnd).countP Answer.isError = 0 := by
  rw [List.countP_eq_zero]
  intro answer h
  obtain ⟨call, -, rfl⟩ := List.mem_map.mp h
  cases call <;> simp [Call.atEnd, Answer.isError]

/-- At most one call of a history fails. -/
theorem countP_isError_le (calls : List Call) (s : Evaluation) :
    (answers calls s).countP Answer.isError ≤ 1 := by
  induction calls generalizing s with
  | nil => simp [answers]
  | cons call calls ih =>
    rw [answers]
    by_cases herror : (call.answer s).isError = true
    · rw [(Call.atEnd_of_isError herror).answers, List.countP_cons_of_pos herror,
        countP_isError_atEnd]
    · rw [List.countP_cons_of_neg herror]
      exact ih (call.leave s)

/-- Up to the first error an evaluation answers as its parser does. -/
theorem answers_open (c : Cursor)
    (h : ∀ answer ∈ (answers calls ⟨c, false⟩).dropLast, answer.isError = false) :
    answers calls ⟨c, false⟩ =
      List.zipWith Call.present calls (Parser.answers (calls.map Call.onParser) c) := by
  induction calls generalizing c with
  | nil => rfl
  | cons call calls ih =>
    simp only [List.map_cons, answers, Parser.answers, List.zipWith_cons_cons, call.answer_open]
    cases calls with
    | nil => rfl
    | cons call' calls =>
      have hopen : (call.answer ⟨c, false⟩).isError = false := h _ (by simp [answers])
      have hleave := call.leave_open c
      rw [hopen] at hleave
      rw [hleave, ih]
      intro answer hanswer
      refine h answer ?_
      rw [answers, hleave, List.dropLast_cons_of_ne_nil (by simp [answers])]
      exact List.mem_cons_of_mem _ hanswer

/-- A check for the end that succeeds changes no later answer. -/
theorem answers_after_finish (h : s.cursor.Within source)
    (hfinish : Call.finish.answer s = .finished (.ok ())) (calls : List Call) :
    answers calls (Call.finish.leave s) = answers calls s := by
  have hend := (Call.answer_eq_atEnd_iff h .finish).mp hfinish
  rw [hend.answers, (hend.answer .finish).2.answers]

/-- An answer that a check has succeeded is given to a check. -/
theorem Call.eq_finish_of_isFinished (h : (call.answer s).isFinished = true) :
    call = .finish ∧ call.answer s = .finished (.ok ()) := by
  cases call with
  | run | next => simp [answer, Answer.isFinished] at h
  | finish =>
    refine ⟨rfl, ?_⟩
    simp only [answer] at h ⊢
    cases hfinish : s.finish.1 with
    | error e => simp [hfinish, Answer.isFinished] at h
    | ok _ => rfl

/-- A history without the checks that succeed gives the other calls the same answers. -/
theorem answers_without_finished (h : s.cursor.Within source) (calls : List Call) :
    let kept := (transcript calls s).filter fun entry => !entry.2.isFinished
    answers (kept.map Prod.fst) s = kept.map Prod.snd := by
  induction calls generalizing s with
  | nil => rfl
  | cons call calls ih =>
    have hrest := ih (call.within_leave h)
    simp only [transcript, answers, List.zip_cons_cons, List.filter_cons] at hrest ⊢
    by_cases hfinished : (call.answer s).isFinished = true
    · obtain ⟨rfl, hanswer⟩ := Call.eq_finish_of_isFinished hfinished
      simp only [answers_after_finish h hanswer] at hrest ⊢
      simpa [hfinished] using hrest
    · simp [hfinished, answers, hrest]

/-- While an evaluation has not failed, it finds the end exactly when nothing is left unread. -/
theorem finish_eq_ok_iff (h : c.Within source) :
    (finish ⟨c, false⟩).1 = .ok () ↔ c.unread = [] := by
  obtain ⟨u, -, hc⟩ := h
  have hanswer := Parser.Call.answer_eq_atEnd_iff hc .expectEnd
  rw [hc.unread, ← hanswer, finish, step_open]
  simp [Parser.Call.answer, Parser.Call.atEnd]

/-- As long as no call fails, the evaluation has not failed. -/
theorem failed_after (calls : List Call) (c : Cursor)
    (h : ∀ answer ∈ answers calls ⟨c, false⟩, answer.isError = false) :
    (after calls ⟨c, false⟩).failed = false := by
  induction calls generalizing c with
  | nil => rfl
  | cons call calls ih =>
    have hleave := call.leave_open c
    rw [h _ (by simp [answers])] at hleave
    have hafter : after (call :: calls) ⟨c, false⟩ = after calls (call.leave ⟨c, false⟩) := rfl
    rw [hafter, hleave]
    refine ih _ fun answer hanswer => h answer ?_
    rw [answers, hleave]
    exact List.mem_cons_of_mem _ hanswer

/-- In any sequence of calls on the evaluation of a source at most one fails, and after it, as after
any call that finds the end, all of them find the end. Up to the failure the parser of the source
answers the same, and checks for the end that succeed can be left out. -/
theorem answers_of_source (source : String) :
    (∀ calls, (answers calls (ofString source)).countP Answer.isError ≤ 1) ∧
    (∀ before call later, (call.answer (after before (ofString source))).isError = true →
      answers (before ++ call :: later) (ofString source) =
        answers before (ofString source) ++
          call.answer (after before (ofString source)) :: later.map Call.atEnd) ∧
    (∀ calls,
      (∀ answer ∈ (answers calls (ofString source)).dropLast, answer.isError = false) →
      answers calls (ofString source) =
        List.zipWith Call.present calls
          (Parser.answers (calls.map Call.onParser) (.ofString source))) ∧
    (∀ before later,
      Call.finish.answer (after before (ofString source)) = .finished (.ok ()) →
      ∃ others, answers (before ++ .finish :: later) (ofString source) =
          answers before (ofString source) ++ .finished (.ok ()) :: others ∧
        answers (before ++ later) (ofString source) =
          answers before (ofString source) ++ others) ∧
    (∀ calls,
      let kept := (transcript calls (ofString source)).filter fun entry => !entry.2.isFinished
      answers (kept.map Prod.fst) (ofString source) = kept.map Prod.snd) ∧
    (∀ calls, (∀ answer ∈ answers calls (ofString source), answer.isError = false) →
      (after calls (ofString source)).cursor.unread <:+ (Lexer.ofString source).items ∧
        ((after calls (ofString source)).finish.1 = .ok () ↔
          (after calls (ofString source)).cursor.unread = [])) ∧
    ∀ before call later, call.answer (after before (ofString source)) = call.atEnd →
      answers (before ++ call :: later) (ofString source) =
        answers before (ofString source) ++ call.atEnd :: later.map Call.atEnd := by
  have hstart : (ofString source).cursor.Within source := Cursor.within_ofString source
  refine ⟨fun calls => countP_isError_le calls _, fun before call later => answers_of_isError,
    fun calls => answers_open _, fun before later hfinish => ?_,
    answers_without_finished hstart, fun calls hopen => ?_,
    fun before call later => answers_of_atEnd hstart⟩
  · refine ⟨answers later (after before (ofString source)), ?_, answers_append before later _⟩
    rw [answers_append, answers, hfinish,
      answers_after_finish (within_after hstart before) hfinish]
  · have hwithin := within_after hstart calls
    have hfailed : (after calls (ofString source)).failed = false := failed_after calls _ hopen
    generalize after calls (ofString source) = s at hwithin hfailed
    obtain ⟨c, failed⟩ := s
    obtain rfl : failed = false := hfailed
    obtain ⟨u, hu, hc⟩ := id hwithin
    exact ⟨hc.unread ▸ hu, finish_eq_ok_iff hwithin⟩

end Evaluation

end Calculator
