import Calculator.CommandLine
import Calculator.Proofs.Results

/-!
# What the command line reports

The program goes through the results of a source in a loop that ends at the first error. What it
has printed and which value it has kept are determined by the values it has come by: this is the
invariant of the loop, and every round keeps it. At the end the outcome is that of all values and
of the error after them, if there is one.

The outcome agrees with what the library computes. It does not matter whether the source is given
directly or read from a file, and quiet mode makes a difference to the output alone.
-/

namespace Calculator.CommandLine

/-- The outcome that belongs to the values of a source and to the error after them. -/
def Outcome.ofValues (quiet : Bool) (values : List Float) : Option Error → Outcome
  | none => { code := 0, stdout := resultLines (if quiet then values.getLast?.toList else values) }
  | some e =>
    { code := 1
      stdout := if quiet then "" else resultLines values
      stderr := e.message ++ "\n" }

/-- What has been printed and which value has been kept when the loop has come by some values. -/
structure Tracks (quiet : Bool) (values : List Float) (last : Option Float) (printed : String) :
    Prop where
  printed_eq : printed = if quiet then "" else resultLines values
  last_eq : last = if quiet then values.getLast? else none

variable {quiet : Bool} {values xs : List Float} {last : Option Float} {printed : String}
  {s : Evaluation} {x : Float} {e : Error} {failure : Option Error}
  {rest : List (Except Error Float)}

/-- The lines of two lists of values come after one another. -/
theorem resultLines_append (xs ys : List Float) :
    resultLines (xs ++ ys) = resultLines xs ++ resultLines ys := by
  rw [resultLines, List.map_append, String.join_append, resultLines, resultLines]

/-- Before the first value nothing has been printed or kept. -/
theorem tracks_nil (quiet : Bool) : Tracks quiet [] none "" := by
  cases quiet <;> exact ⟨rfl, rfl⟩

/-- A value that is kept is the last one. -/
theorem Tracks.keep (h : Tracks true values last printed) (x : Float) :
    Tracks true (values ++ [x]) (some x) printed :=
  ⟨h.printed_eq, by simp⟩

/-- A value that is printed comes after those before. -/
theorem Tracks.print (h : Tracks false values last printed) (x : Float) :
    Tracks false (values ++ [x]) last (printed ++ resultLines [x]) :=
  ⟨by simp [h.printed_eq, resultLines_append], h.last_eq⟩

/-- A round of the loop depends on the next result alone. -/
theorem report_eq (quiet : Bool) (s : Evaluation) (last : Option Float) (printed : String) :
    report quiet s last printed =
      match s.next with
      | (none, _) => { code := 0, stdout := printed ++ resultLines last.toList }
      | (some (.ok x), s') =>
        if quiet then report quiet s' (some x) printed
        else report quiet s' last (printed ++ resultLines [x])
      | (some (.error e), _) => { code := 1, stdout := printed, stderr := e.message ++ "\n" } := by
  rw [report]
  split <;> rename_i h <;> simp [h]

/-- Without a next result there are none. -/
theorem next_of_results_nil (hs : s.results = []) : ∃ s', s.next = (none, s') := by
  rw [Evaluation.results_eq_next] at hs
  cases hnext : s.next with
  | mk result s' => cases result <;> simp_all

/-- The first of the results is the next one. -/
theorem next_of_results_cons {result : Except Error Float} (hs : s.results = result :: rest) :
    ∃ s', s.next = (some result, s') ∧ s'.results = rest := by
  rw [Evaluation.results_eq_next] at hs
  cases hnext : s.next with
  | mk found s' => cases found <;> simp_all

/-- At the end the loop reports all values. -/
theorem report_of_nil (h : Tracks quiet values last printed) (hs : s.results = []) :
    report quiet s last printed = .ofValues quiet values none := by
  obtain ⟨s', hnext⟩ := next_of_results_nil hs
  rw [report_eq, hnext, h.printed_eq, h.last_eq]
  cases quiet <;> simp [Outcome.ofValues, resultLines]

/-- At an error the loop reports the values before it and the error. -/
theorem report_of_error (h : Tracks quiet values last printed) (hs : s.results = .error e :: rest) :
    report quiet s last printed = .ofValues quiet values (some e) := by
  obtain ⟨s', hnext, -⟩ := next_of_results_cons hs
  rw [report_eq, hnext, h.printed_eq]
  rfl

/-- A round of the loop comes by one more value. -/
theorem report_of_value (h : Tracks quiet values last printed) (hs : s.results = .ok x :: rest) :
    ∃ s' last' printed', report quiet s last printed = report quiet s' last' printed' ∧
      s'.results = rest ∧ Tracks quiet (values ++ [x]) last' printed' := by
  obtain ⟨s', hnext, hrest⟩ := next_of_results_cons hs
  rw [report_eq, hnext]
  cases quiet with
  | true => exact ⟨s', some x, printed, rfl, hrest, h.keep x⟩
  | false => exact ⟨s', last, printed ++ resultLines [x], rfl, hrest, h.print x⟩

/-- The loop reports all values that are still to come, and the error after them. -/
theorem report_of_results (h : Tracks quiet values last printed)
    (hs : s.results = xs.map .ok ++ (failure.map .error).toList) :
    report quiet s last printed = .ofValues quiet (values ++ xs) failure := by
  induction xs generalizing s values last printed with
  | nil =>
    cases failure with
    | none => simpa using report_of_nil h hs
    | some e => simpa using report_of_error h hs
  | cons x xs ih =>
    obtain ⟨s', last', printed', hreport, hs', h'⟩ := report_of_value h hs
    rw [hreport, ih h' hs', List.append_assoc, List.singleton_append]

/-- What an evaluation of a source brings: values, and then an error unless the end is reached. -/
theorem exists_results (source : String) :
    ∃ (values : List Float) (failure : Option Error),
      (Evaluation.ofString source).results = values.map .ok ++ (failure.map .error).toList := by
  rcases split_cases source with
    ⟨ds, hds, hitems⟩ | ⟨ds, w, r, e, values, hitems, hparted, hsome, hfault, hvalues⟩
  · obtain ⟨values, hvalues⟩ := exists_values_of_items (hitems.trans (List.append_nil _).symm)
    refine ⟨values, none, ?_⟩
    simpa using Evaluation.results_of_separated hds hitems hvalues
  · exact ⟨values, some e, Evaluation.results_of_items hitems hparted hsome hfault hvalues⟩

/-- All values are collected unless there is an error after them. -/
theorem evaluateAll_of_results {source : String}
    (h : (Evaluation.ofString source).results = values.map .ok ++ (failure.map .error).toList) :
    evaluateAll source = (failure.map .error).getD (.ok values) := by
  rw [evaluateAll, h]
  cases failure with
  | none => simpa using mapM_ok values
  | some e => exact mapM_error values e

/-- The bytes of a text are read as the text. -/
theorem sourceText_toUTF8 (source : String) : sourceText (.ok source.toUTF8) = .ok source := by
  have hread : String.fromUTF8? source.toUTF8 = some source := by
    rw [String.fromUTF8?, String.toUTF8_eq_toByteArray, dif_pos source.isValidUTF8]
    rfl
  simp only [sourceText, bind, Except.bind, hread, Option.elim_some]

namespace Outcome

/-- The code and the text on standard error do not depend on the mode. -/
theorem ofValues_quiet (quiet quiet' : Bool) (values : List Float) (failure : Option Error) :
    (ofValues quiet values failure).code = (ofValues quiet' values failure).code ∧
      (ofValues quiet values failure).stderr = (ofValues quiet' values failure).stderr := by
  cases failure <;> exact ⟨rfl, rfl⟩

/-- In plain mode the output is the lines of all values. -/
theorem stdout_ofValues_plain (values : List Float) (failure : Option Error) :
    (ofValues false values failure).stdout =
      String.join (values.map fun x => formatNumber x ++ "\n") := by
  cases failure <;> rfl

/-- In quiet mode the output is the line of the last value, if there is one and no error. -/
theorem stdout_ofValues_quiet (values : List Float) (failure : Option Error) :
    (ofValues true values failure).stdout =
      match failure, values.getLast? with
      | none, some x => formatNumber x ++ "\n"
      | _, _ => "" := by
  cases failure with
  | some e => rfl
  | none =>
    simp only [ofValues, if_true]
    cases values.getLast? <;> simp [resultLines]

/-- Nothing is wrong exactly when there is no error. -/
theorem ofValues_eq_zero_iff (quiet : Bool) (values : List Float) (failure : Option Error) :
    (ofValues quiet values failure).code = 0 ∧ (ofValues quiet values failure).stderr = "" ↔
      failure = none := by
  cases failure <;> simp [ofValues]

end Outcome

variable {m : Type → Type} [Monad m] [LawfulMonad m]

/-- A source that is given directly is reported, and so is one that is read from a file. -/
theorem Request.outcome_eq_report {readFile : String → m (Except ReadFailure ByteArray)}
    {path source : String} (hread : readFile path = pure (.ok source.toUTF8)) (quiet : Bool) :
    (run ⟨false, quiet, source⟩).outcome readFile =
        pure (report quiet (.ofString source) none "") ∧
      (run ⟨true, quiet, path⟩).outcome readFile =
        pure (report quiet (.ofString source) none "") := by
  refine ⟨rfl, ?_⟩
  simp only [outcome, if_true, hread, pure_bind, sourceText_toUTF8, Options.outcome]

/-- The program prints what the library computes, whether the source is given directly or in a file:
the values line by line, or the last one alone in quiet mode. Exit code and standard error tell
whether all expressions are evaluated. -/
theorem Request.outcome_of_source (readFile : String → m (Except ReadFailure ByteArray))
    (path source : String) (hread : readFile path = pure (.ok source.toUTF8)) :
    ∃ (values : List Float) (failure : Option Error) (answer : Bool → Outcome),
      (Evaluation.ofString source).results = values.map .ok ++ (failure.map .error).toList ∧
      (∀ quiet, (run ⟨false, quiet, source⟩).outcome readFile = pure (answer quiet) ∧
        (run ⟨true, quiet, path⟩).outcome readFile = pure (answer quiet)) ∧
      (answer false).stdout = String.join (values.map fun x => formatNumber x ++ "\n") ∧
      (answer true).stdout =
        (match failure, values.getLast? with
        | none, some x => formatNumber x ++ "\n"
        | _, _ => "") ∧
      (∀ quiet, ((answer quiet).code = 0 ∧ (answer quiet).stderr = "" ↔
          ∃ xs, evaluateAll source = .ok xs) ∧
        ∀ e, evaluateAll source = .error e →
          (answer quiet).code = 1 ∧ (answer quiet).stderr = e.message ++ "\n") ∧
      (answer true).code = (answer false).code ∧ (answer true).stderr = (answer false).stderr := by
  obtain ⟨values, failure, hresults⟩ := exists_results source
  have hall := evaluateAll_of_results hresults
  have hreport (quiet : Bool) :
      report quiet (.ofString source) none "" = .ofValues quiet values failure :=
    report_of_results (tracks_nil quiet) hresults
  refine ⟨values, failure, fun quiet => report quiet (.ofString source) none "", hresults,
    outcome_eq_report hread, ?_⟩
  simp only [hreport]
  refine ⟨Outcome.stdout_ofValues_plain .., Outcome.stdout_ofValues_quiet .., fun quiet => ⟨?_, ?_⟩,
    Outcome.ofValues_quiet ..⟩
  · rw [Outcome.ofValues_eq_zero_iff, hall]
    cases failure <;> simp
  · intro e he
    obtain rfl : failure = some e := by
      cases failure <;> simp_all
    exact ⟨rfl, rfl⟩

/-- A parenthesis too many in a file is reported on standard error, in quiet mode as well. -/
theorem Request.outcome_of_unopened :
    let readFile : String → Id (Except ReadFailure ByteArray) := fun _ => .ok "1 2 )".toUTF8
    let answer := (run ⟨true, true, "sums"⟩).outcome readFile
    answer.code = 1 ∧
      answer.stderr =
        "Error at position 4: Expected an operator or end of input, found ')'.\n" := by
  intro readFile answer
  obtain ⟨values, failure, report, -, hanswer, -, -, hreport, -⟩ :=
    outcome_of_source readFile "sums" "1 2 )" rfl
  have herror : evaluateAll "1 2 )" = .error (.parsing (.unexpectedToken
      "an operator or end of input" (.symbol .closeParen 4))) := by
    decide +kernel
  have hquiet : answer = report true := (hanswer true).2
  rw [hquiet]
  exact (hreport true).2 _ herror

end Calculator.CommandLine
