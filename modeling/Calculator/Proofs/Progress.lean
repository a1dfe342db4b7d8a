import Calculator.Proofs.Answers

/-!
# Reading ends, and it gets on

The rules of the grammar call each other, and a repetition goes on as long as it finds operators.
`Rule.Call.within` follows the same rules with a limit on how deep calls may be nested, where every
further round of a repetition counts as a call inside the one before; it has no outcome when the
limit is too low. A limit of five for each unread item and five more is never too low: a call goes
to a tighter rule, of which there are four below the loosest, or an item has been passed before it.

A call that asks for an expression passes at least one item unless nothing is left, and this also
when it fails. So whoever keeps calling and pays no attention to errors comes to the end after no
more calls than there are items, and stays there.
-/

namespace Calculator

open Token.Kind (isAdditive isMultiplicative isPower)

/-- A parser that is given only so many calls; it has no outcome when they do not suffice. -/
def Limited (α : Type) : Type :=
  Cursor → Option (EStateM.Result Error Cursor α)

/-- Limited parsers are run one after another; an error ends them, and so does the limit. -/
instance : Monad Limited where
  pure a s := some (.ok a s)
  bind x f s :=
    match x s with
    | none => none
    | some (.ok a s') => f a s'
    | some (.error e s') => some (.error e s')

/-- A parser that calls no rule needs no limit. -/
def Limited.lift {α : Type} (p : Parser α) : Limited α :=
  fun s => some (p s)

/-- A call of a rule; the ends of repetitions are given the tree before them. -/
inductive Rule.Call where
  | sum
  | moreProducts (left : Expr)
  | product
  | moreFactors (left : Expr)
  | signed
  | power
  | atom
  deriving DecidableEq, Repr

namespace Rule.Call

/-- The parser that a call runs. -/
def parser : Call → Parser Expr
  | sum => Parser.sum
  | moreProducts left => Parser.moreProducts left
  | product => Parser.product
  | moreFactors left => Parser.moreFactors left
  | signed => Parser.signed
  | power => Parser.power
  | atom => Parser.atom

/-- How many calls may follow one inside the other before an item has been passed. -/
def height : Call → Nat
  | sum => 4
  | product => 3
  | signed => 2
  | power => 1
  | moreProducts _ | moreFactors _ | atom => 0

/-- The rules with a limit on how deep their calls are nested. -/
def within : Nat → Call → Limited Expr
  | 0, _ => fun _ => none
  | n + 1, sum => do
    let left ← within n product
    within n (moreProducts left)
  | n + 1, moreProducts left => do
    match ← Limited.lift (Cursor.accept? isAdditive) with
    | some op =>
      let right ← within n product
      within n (moreProducts (.binary op left right))
    | none => pure left
  | n + 1, product => do
    let left ← within n signed
    within n (moreFactors left)
  | n + 1, moreFactors left => do
    match ← Limited.lift (Cursor.accept? isMultiplicative) with
    | some op =>
      let right ← within n signed
      within n (moreFactors (.binary op left right))
    | none => pure left
  | n + 1, signed => do
    match ← Limited.lift (Cursor.accept? isAdditive) with
    | some sign =>
      let operand ← within n power
      pure (.signed sign operand)
    | none => within n power
  | n + 1, power => do
    let base ← within n atom
    match ← Limited.lift (Cursor.accept? isPower) with
    | some op =>
      let exponent ← within n power
      pure (.binary op base exponent)
    | none => pure base
  | n + 1, atom => do
    let t ← Limited.lift Cursor.advance
    match t.kind with
    | .literal _ => pure (.leaf t)
    | .openParen =>
      let inner ← within n sum
      let _ ← Limited.lift (Cursor.expect .closeParen Rule.groupEnd)
      pure inner
    | _ => Limited.lift (throw (.parsing (.unexpected Rule.atomStart t)))

end Rule.Call

namespace Parser

/-- `Parser.next` with a limit on how deep the calls of the rules are nested. -/
def nextWithin (n : Nat) : Limited (Option Expr) := do
  let first ← Limited.lift Cursor.peek
  if first.kind = .endOfInput then pure none
  else
    let e ← Rule.Call.sum.within n
    let follow ← Limited.lift Cursor.peek
    if follow.kind = .endOfInput ∨ follow.kind.startsExpression then pure (some e)
    else Limited.lift (throw (.parsing (.unexpected expressionEnd follow)))

/-- `Parser.nextValue` with a limit on how deep the calls of the rules are nested. -/
def nextValueWithin (n : Nat) : Limited (Option Float) := do
  match ← nextWithin n with
  | none => pure none
  | some e =>
    match e.value with
    | .ok x => pure (some x)
    | .error error => Limited.lift (throw (.evaluation error))

end Parser

variable {α β : Type} {n : Nat} {s s' : Cursor} {mark : Token} {u : List Item} {e : Expr}

/-- Limited parsers after one another have the outcome of the parsers when each of them has it. -/
theorem Limited.bind_eq {x : Limited α} {f : α → Limited β} {p : Parser α}
    {g : α → Parser β}
    (hx : x s = some (p s)) (hf : ∀ a s', p s = .ok a s' → f a s' = some (g a s')) :
    (x >>= f) s = some ((p >>= g) s) := by
  simp only [Bind.bind, EStateM.bind, hx]
  cases hp : p s with
  | ok a s' => exact hf a s' hp
  | error e s' => rfl

/-- What follows the first operand of a chain has its outcome under a limit when the operands and
what follows them have theirs, all of them after an item that has been passed. -/
theorem Limited.rest_eq {k more : Nonterminal} (rep : Repetition k more) (left : Expr)
    {operand : Limited Expr} {rest : Expr → Limited Expr}
    (hoperand : ∀ s' : Cursor, s'.unread.length < s.unread.length →
      operand s' = some (rep.operand s'))
    (hrest : ∀ left (s' : Cursor), s'.unread.length < s.unread.length →
      rest left s' = some (rep.rest left s')) :
    (do
      match ← lift (Cursor.accept? rep.joins) with
      | some op =>
        let right ← operand
        rest (.binary op left right)
      | none => pure left : Limited Expr) s = some (rep.rest left s) := by
  rw [rep.rest_eq]
  refine bind_eq rfl fun found s' hfound => ?_
  cases found with
  | none => rfl
  | some op =>
    have hop := Cursor.accept?_length_lt rep.joins_endOfInput hfound
    refine bind_eq (hoperand s' hop) fun right s'' hright => ?_
    exact hrest _ s'' ((rep.operand_length_lt hright).trans hop)

/-- A line that ends with a chain has its outcome under a limit when its parts have theirs. -/
theorem Limited.whole_eq {k more : Nonterminal} (rep : Repetition k more) {operand : Limited Expr}
    {rest : Expr → Limited Expr}
    (hoperand : operand s = some (rep.operand s))
    (hrest : ∀ left (s' : Cursor), s'.unread.length < s.unread.length →
      rest left s' = some (rep.rest left s')) :
    (operand >>= rest) s = some ((rep.operand >>= rep.rest) s) :=
  bind_eq hoperand fun left s' hleft => hrest left s' (rep.operand_length_lt hleft)

namespace Rule.Call

/-- No more than four calls follow one another before an item has been passed. -/
theorem height_le (call : Call) : call.height ≤ 4 := by
  cases call <;> simp [height]

/-- A limit above five for each unread item and the height of the call is never too low. -/
theorem within_eq (call : Call) (h : 5 * s.unread.length + call.height < n) :
    call.within n s = some (call.parser s) := by
  induction n generalizing call s with
  | zero => contradiction
  | succ n ih =>
    -- a tighter rule may be called before an item has been passed, and any rule after that
    have htighter (inner : Call) (hlt : inner.height < call.height) :
        inner.within n s = some (inner.parser s) := ih inner (by omega)
    have hpassed (inner : Call) {s' : Cursor} (hlt : s'.unread.length < s.unread.length) :
        inner.within n s' = some (inner.parser s') := by
      have := inner.height_le
      exact ih inner (by omega)
    cases call with
    | sum =>
      rw [parser, Parser.sum_eq]
      exact Limited.whole_eq .products (htighter product (by decide))
        fun left s' => hpassed (moreProducts left)
    | product =>
      rw [parser, Parser.product_eq]
      exact Limited.whole_eq .factors (htighter signed (by decide))
        fun left s' => hpassed (moreFactors left)
    | moreProducts left =>
      exact Limited.rest_eq .products left (fun s' => hpassed product)
        fun left s' => hpassed (moreProducts left)
    | moreFactors left =>
      exact Limited.rest_eq .factors left (fun s' => hpassed signed)
        fun left s' => hpassed (moreFactors left)
    | signed =>
      rw [parser, Parser.signed_eq]
      refine Limited.bind_eq rfl fun found s' hfound => ?_
      cases found with
      | none =>
        have hsame := congrArg List.length (Cursor.accept?_none hfound).1
        exact ih power (by simp only [height] at h ⊢; omega)
      | some sign =>
        have hsign := Cursor.accept?_length_lt rfl hfound
        exact Limited.bind_eq (hpassed power hsign) fun _ _ _ => rfl
    | power =>
      rw [parser, Parser.power_eq]
      refine Limited.bind_eq (htighter atom (by decide)) fun base s' hbase => ?_
      have hatom := (Rule.atom s).progress.lt_of_ok hbase
      refine Limited.bind_eq rfl fun found s'' hfound => ?_
      cases found with
      | none => rfl
      | some op =>
        have hop := (Cursor.accept?_length_lt rfl hfound).trans hatom
        exact Limited.bind_eq (hpassed power hop) fun _ _ _ => rfl
    | atom =>
      rw [parser, Parser.atom_eq]
      refine Limited.bind_eq rfl fun t s' hadvance => ?_
      cases hkind : t.kind with
      | openParen =>
        have hopening : s'.unread.length < s.unread.length := by
          simp [Cursor.advance_ok hadvance, hkind]
        exact Limited.bind_eq (hpassed sum hopening) fun inner s'' _ =>
          Limited.bind_eq rfl fun _ _ _ => rfl
      | literal | operator | closeParen | endOfInput => rfl

end Rule.Call

namespace Parser

/-- Reading the next expression needs no more nested calls than five for each unread item and five
more. -/
theorem nextWithin_eq (h : 5 * s.unread.length + 4 < n) : nextWithin n s = some (next s) := by
  refine Limited.bind_eq rfl fun first s₁ hpeek => ?_
  split
  · rfl
  · have hsum : Rule.Call.sum.within n s₁ = some (sum s₁) :=
      Rule.Call.within_eq .sum (by rwa [(Cursor.peek_ok hpeek).2])
    refine Limited.bind_eq hsum fun e s₂ _ => Limited.bind_eq rfl fun follow s₃ _ => ?_
    split <;> rfl

/-- Computing the value needs no further calls of the rules. -/
theorem nextValueWithin_eq (h : 5 * s.unread.length + 4 < n) :
    nextValueWithin n s = some (nextValue s) := by
  refine Limited.bind_eq (nextWithin_eq h) fun found s' _ => ?_
  cases found with
  | none => rfl
  | some e =>
    cases hvalue : e.value <;> simp only [hvalue] <;> rfl

/-- Reading the next expression passes at least one item when one is left. -/
theorem exists_shows_leave_next (hs : s.Shows mark u) (hu : u ≠ []) :
    ∃ u', u'.length < u.length ∧ (leave next s).Shows mark u' := by
  have hout := next_outcome hs
  simp only [leave]
  generalize next s = x at hout
  cases hout with
  | nothing hnil => exact absurd hnil hu
  | @sentence s' d r hsplit hfollows hshows =>
    exact ⟨r, length_lt_of_yield d (by simp) (by simp) hsplit, hshows⟩
  | @fault s' e w r r' hsplit hsome hfault hleft hshows =>
    obtain ⟨stop, hrun, -⟩ := hfault.stops
    refine ⟨r', ?_, hshows⟩
    rw [← hleft stop hrun]
    cases w with
    | nil =>
      -- the item at fault is the first one, and before an expression it is passed
      obtain rfl : .start = stop := by simpa using hrun
      obtain rfl : u = r := hsplit
      rw [Scan.left_of_ne_done (by decide), List.length_tail]
      have := List.length_pos_iff.mpr hu
      omega
    | cons t w =>
      have hle := (stop.left_suffix r).length_le
      simp only [hsplit, List.length_append, List.length_map, List.length_cons]
      omega

/-- A call for an expression passes at least one item when one is left. -/
theorem Call.exists_shows_leave {call : Call} (hcall : call ≠ .expectEnd) (hs : s.Shows mark u)
    (hu : u ≠ []) : ∃ u', u'.length < u.length ∧ (call.leave s).Shows mark u' := by
  cases call with
  | next => exact exists_shows_leave_next hs hu
  | nextValue =>
    simp only [Call.leave, leave_nextValue]
    exact exists_shows_leave_next hs hu
  | expectEnd => exact absurd rfl hcall

/-- A check for the end passes nothing but a stray character, which it reports. -/
theorem unread_leave_expectEnd (s : Cursor) :
    (leave expectEnd s).unread = s.unread ∨
      ∃ c p, expectEnd.answer s = .error (.strayCharacter c p) ∧
        s.unread = .stray c p :: (leave expectEnd s).unread := by
  simp only [expectEnd, leave, answer, bind, EStateM.bind]
  cases hpeek : Cursor.peek s with
  | ok t s' =>
    left
    by_cases hend : t.kind = .endOfInput
    · simpa [hend, pure, EStateM.pure] using (Cursor.peek_ok hpeek).2
    · simpa [hend] using (Cursor.peek_ok hpeek).2
  | error e s' =>
    obtain ⟨c, p, rfl, hunread⟩ := Cursor.peek_error hpeek
    exact .inr ⟨c, p, rfl, hunread⟩

/-- When nothing is left, every call finds the end. -/
theorem answers_nil (hs : s.Shows mark []) (calls : List Call) :
    answers calls s = calls.map Call.atEnd := by
  induction calls generalizing s with
  | nil => rfl
  | cons call calls ih =>
    rw [answers, (Call.answer_eq_atEnd_iff hs call).mpr rfl, ih (call.shows_leave_nil hs),
      List.map_cons]

/-- Calls for expressions come to the end after at most as many of them as there are items. -/
theorem answers_until_end (hs : s.Shows mark u) {calls : List Call}
    (hcalls : ∀ call ∈ calls, call ≠ .expectEnd) :
    ∃ n ≤ u.length,
      answers calls s = answers (calls.take n) s ++ (calls.drop n).map Call.atEnd ∧
      ∀ entry ∈ (calls.take n).zip (answers (calls.take n) s), entry.2 ≠ entry.1.atEnd := by
  induction calls generalizing s u with
  | nil => exact ⟨0, Nat.zero_le _, rfl, by simp⟩
  | cons call calls ih =>
    by_cases hu : u = []
    · subst hu
      exact ⟨0, le_rfl, answers_nil hs _, by simp⟩
    · obtain ⟨u', hlt, hshows⟩ := Call.exists_shows_leave (hcalls call (by simp)) hs hu
      obtain ⟨n, hn, hanswers, hother⟩ := ih hshows fun call' h => hcalls call' (by simp [h])
      refine ⟨n + 1, by omega, ?_, ?_⟩
      · simp only [List.take_succ_cons, List.drop_succ_cons, answers, hanswers, List.cons_append]
      · simp only [List.take_succ_cons, answers, List.zip_cons_cons, List.forall_mem_cons]
        exact ⟨mt (Call.answer_eq_atEnd_iff hs call).mp hu, hother⟩

/-- After any calls, one for the next expression ends within a bound on nested calls. It finds the
end exactly when nothing is unread and passes an item otherwise, so that no more calls than there
are unread items find anything else. -/
theorem calls_make_progress (source : String) (skipped : Nat) (calls : List Call) :
    let s := after calls (.ofLexer ((Lexer.ofString source).passing skipped))
    (∀ n, 5 * s.unread.length + 4 < n →
      nextWithin n s = some (next s) ∧ nextValueWithin n s = some (nextValue s)) ∧
    (∀ call : Call, call.answer s = call.atEnd ↔ s.unread = []) ∧
    (∀ call : Call, call ≠ .expectEnd → call.answer s ≠ call.atEnd →
      (call.leave s).unread.length < s.unread.length) ∧
    ((leave expectEnd s).unread = s.unread ∨
      ∃ c p, expectEnd.answer s = .error (.strayCharacter c p) ∧
        s.unread = .stray c p :: (leave expectEnd s).unread) ∧
    ∀ later : List Call, (∀ call ∈ later, call ≠ .expectEnd) →
      ∃ n ≤ s.unread.length,
        answers later s = answers (later.take n) s ++ (later.drop n).map Call.atEnd ∧
        ∀ entry ∈ (later.take n).zip (answers (later.take n) s), entry.2 ≠ entry.1.atEnd := by
  intro s
  obtain ⟨u, -, hs⟩ := (Cursor.within_passing source skipped).after calls
  have hunread : s.unread = u := hs.unread
  refine ⟨fun n hn => ⟨nextWithin_eq hn, nextValueWithin_eq hn⟩, fun call => ?_,
    fun call hcall hanswer => ?_, unread_leave_expectEnd s, fun later hlater => ?_⟩
  · rw [hunread]
    exact Call.answer_eq_atEnd_iff hs call
  · obtain ⟨u', hlt, hshows⟩ := Call.exists_shows_leave hcall hs
      (mt (Call.answer_eq_atEnd_iff hs call).mpr hanswer)
    rwa [hunread, hshows.unread]
  · rw [hunread]
    exact answers_until_end hs hlater

end Parser

end Calculator
