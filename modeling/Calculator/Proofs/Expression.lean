import Calculator.Evaluation
import Calculator.Proofs.Descent
import Calculator.Proofs.Sequence

/-!
# Reading one expression

What `Parser.next` does depends on the unread items alone, and a scan of them from its first state
decides it. When nothing is left it returns nothing. When the scan stops after a complete
expression, before the end or before a token that begins another operand, the expression is
returned and what follows stays unread. Everywhere else the item at which the scan stops is at
fault, and the tokens before it begin some expression.
-/

namespace Calculator

/-- The tokens `w` begin an expression that cannot go on with the next item, and `e` is what is
said of this item. -/
structure Fault (w : List Token) (item : Item) (e : Error) : Prop where
  viable : ∃ d : Sentence, w <+: d.yield
  stops : ∃ stop : Scan, Scan.start.run w = some stop ∧ stop.fault? item = some e

/-- The ways in which reading the next of the items `u` may end. -/
inductive NextOutcome (mark : Token) (u : List Item) :
    EStateM.Result Error Cursor (Option Expr) → Prop where
  | nothing {s' : Cursor} (hu : u = []) (hshows : s'.Shows mark []) :
      NextOutcome mark u (.ok none s')
  | sentence {s' : Cursor} (d : Sentence) {r : List Item} (hu : u = d.yield.map .token ++ r)
      (hfollows : Follows r) (hshows : s'.Shows mark r) :
      NextOutcome mark u (.ok (some d.tree) s')
  | fault {s' : Cursor} {e : Error} {w : List Token} {r r' : List Item}
      (hu : u = w.map .token ++ r) (hsome : u ≠ []) (hfault : Fault w (nextItem mark r) e)
      (hleft : ∀ stop, Scan.start.run w = some stop → stop.left r = r')
      (hshows : s'.Shows mark r') :
      NextOutcome mark u (.error e s')

variable {mark t : Token} {u r : List Item} {s : Cursor} {d : Sentence} {w : List Token} {e : Error}

/-- The end may follow an expression, and so may a token that begins an operand. -/
theorem Cursor.Shows.follows (hs : s.Shows mark u) (hnext : nextItem mark u = .token t)
    (ht : t.kind = .endOfInput ∨ t.kind.startsOperand = true) : Follows u := by
  rcases ht with hend | hoperand
  · simp [(hs.nextItem_endOfInput hnext).mp hend, Follows]
  · have hkind : t.kind ≠ .endOfInput := by
      intro hend
      simp [hend, Token.Kind.startsOperand] at hoperand
    obtain ⟨r, rfl⟩ := hs.exists_cons hnext hkind
    simpa [Follows] using hoperand

/-- What is no operator begins an operand, ends a group or is the end. -/
theorem Token.Kind.cases_of_not_isOperator {k : Token.Kind} (h : k.isOperator = false) :
    k.isLiteral = true ∨ k = .openParen ∨ k = .closeParen ∨ k = .endOfInput := by
  cases k <;> simp_all [isOperator, isLiteral]

/-- After an expression `Parser.next` goes by the token that follows, when it is no operator. A
closing parenthesis is reported, and before any other token the expression is returned. -/
theorem Parser.next_of_sum {first follow : Token} {s₁ s₂ s₃ : Cursor} {tree : Expr}
    (hpeek : Cursor.peek s = .ok first s₁) (hfirst : first.kind ≠ .endOfInput)
    (hsum : sum s₁ = .ok tree s₂) (hfollow : Cursor.peek s₂ = .ok follow s₃)
    (hoperator : follow.kind.isOperator = false) :
    next s =
      if follow.kind = .closeParen then
        .error (.parsing (.unexpectedToken expressionEnd follow)) s₃
      else .ok (some tree) s₃ := by
  simp only [next, bind, EStateM.bind, hpeek, hfirst, if_false, hsum, hfollow]
  cases hkind : follow.kind with
  | operator op => simp [hkind, Token.Kind.isOperator] at hoperator
  | closeParen => simp [Token.Kind.startsExpression, SyntaxError.unexpected, hkind]
  | literal | openParen | endOfInput => simp [Token.Kind.startsExpression, pure, EStateM.pure]

namespace NextOutcome

/-- A stray character is at fault before anything has been read. -/
theorem of_stray {c : Char} {p : Nat} (hnext : nextItem mark u = .stray c p)
    (hs : s.Shows mark u.tail) : NextOutcome mark u (.error (.strayCharacter c p) s) := by
  have sample : Sentence := .sum (.product (.unsigned (.bare (.literal
    ⟨.literal .integer, "0", 0⟩ rfl))) .noFactors) .noProducts
  have hsome : u ≠ [] := by
    rintro rfl
    simp [nextItem] at hnext
  have hfault : Fault [] (nextItem mark u) (.strayCharacter c p) :=
    ⟨⟨sample, List.nil_prefix⟩, .start, rfl, by simp [hnext, Scan.fault?]⟩
  exact .fault rfl hsome hfault (fun _ _ => Scan.left_of_stray hnext) hs

/-- What the rule of sums fails with is the fault of the next expression. -/
theorem of_error (hsome : u ≠ [])
    (h : Outcome mark .start .done (Leaves mark .sum)
      (fun e w => ∃ d : Sentence, d.yield = w ∧ d.tree = e) u
      (.error e s : EStateM.Result Error Cursor Expr)) :
    NextOutcome mark u (.error e s) := by
  cases h with
  | @fault _ _ w r stop hu hrun hfault hshows hviable =>
    obtain ⟨e', v, d, hyield, -⟩ := hviable
    have hbegin : w <+: d.yield := hyield ▸ List.prefix_append w v
    have hleft (stop' : Scan) (hstop : Scan.start.run w = some stop') :
        stop'.left r = stop.left r := by
      rw [Option.some.inj (hstop.symm.trans hrun)]
    exact .fault hu hsome ⟨⟨d, hbegin⟩, stop, hrun, hfault⟩ hleft hshows

/-- An expression is returned before what may follow it; a group that was never opened cannot be
closed after it. -/
theorem of_sentence {follow : Token} (d : Sentence) (hu : u = d.yield.map .token ++ r)
    (hfollow : nextItem mark r = .token follow) (hoperator : follow.kind.isOperator = false)
    (hs : s.Shows mark r) :
    NextOutcome mark u (if follow.kind = .closeParen then
        .error (.parsing (.unexpectedToken Parser.expressionEnd follow)) s
      else .ok (some d.tree) s) := by
  split
  · rename_i hkind
    have hsome : u ≠ [] := by simp [hu, d.yield_ne_nil]
    have hfault : Scan.done.fault? (nextItem mark r) =
        some (.parsing (.unexpectedToken Parser.expressionEnd follow)) := by
      simp [hfollow, Scan.fault?, hkind, Scan.done, Scan.step, Scan.expected?,
        SyntaxError.unexpected]
    have hleft (stop : Scan) (hstop : Scan.start.run d.yield = some stop) : stop.left r = r := by
      obtain ⟨r', rfl⟩ := hs.exists_cons hfollow (by simp [hkind])
      rw [← Option.some.inj (d.run_sentence.symm.trans hstop)]
      rfl
    exact .fault hu hsome ⟨⟨d, List.prefix_rfl⟩, .done, d.run_sentence, hfault⟩ hleft hs
  · rename_i hkind
    refine .sentence d hu (hs.follows hfollow ?_) hs
    rcases Token.Kind.cases_of_not_isOperator hoperator with hliteral | hopen | hclose | hend
    · exact .inr (Token.Kind.startsOperand_of_isLiteral hliteral)
    · exact .inr (by rw [hopen]; rfl)
    · exact absurd hclose hkind
    · exact .inl hend

end NextOutcome

/-- Reading the next expression ends in one of these ways. -/
theorem Parser.next_outcome (hs : s.Shows mark u) : NextOutcome mark u (Parser.next s) := by
  cases hfirst : nextItem mark u with
  | stray c p =>
    obtain ⟨s', hpeek, hshows⟩ := hs.peek_stray hfirst
    simp only [next, bind, EStateM.bind, hpeek]
    exact .of_stray hfirst hshows
  | token first =>
    obtain ⟨s₁, hpeek, hshows₁⟩ := hs.peek_token hfirst
    by_cases hend : first.kind = .endOfInput
    · have hu := (hs.nextItem_endOfInput hfirst).mp hend
      simp only [next, bind, EStateM.bind, hpeek, hend, if_true]
      exact .nothing hu (hu ▸ hshows₁)
    · have hread := (rulesRead mark u).sum s₁ 0 hshows₁
      cases hsum : Parser.sum s₁ with
      | error e s₂ =>
        rw [hsum] at hread
        simp only [next, bind, EStateM.bind, hpeek, hend, if_false, hsum]
        exact .of_error (mt (hs.nextItem_endOfInput hfirst).mpr hend) hread
      | ok e s₂ =>
        rw [hsum] at hread
        cases hread with
        | read hu hresult hrun hends hshows =>
          obtain ⟨d, rfl, rfl⟩ := hresult
          obtain ⟨follow, hfollow, hoperator⟩ := hends.resolve_left (by simp)
          obtain ⟨s₃, hpeek₃, hshows₃⟩ := hshows.peek_token hfollow
          rw [next_of_sum hpeek hend hsum hpeek₃ hoperator]
          exact .of_sentence d hu hfollow hoperator hshows₃

/-- When nothing is left, nothing is read. -/
theorem Parser.next_nil (hs : s.Shows mark []) :
    ∃ s', Parser.next s = .ok none s' ∧ s'.Shows mark [] := by
  have hout := next_outcome hs
  generalize Parser.next s = x at hout
  cases hout with
  | @nothing s' hu hshows => exact ⟨s', rfl, hshows⟩
  | sentence d hu =>
    have hyield := d.yield_ne_nil (by simp) (by simp)
    simp [hyield] at hu
  | fault hu hsome => exact absurd rfl hsome

/-- A scan is stuck at an item that is at fault. -/
theorem Scan.stuck_of_fault {q : Scan} (h : q.fault? (nextItem mark r) = some e) :
    q.Stuck r := by
  intro t u' heq
  obtain rfl := heq
  by_contra hstep
  simp [nextItem, fault?, Option.isSome_iff_ne_none.mpr hstep] at h

/-- What may follow an expression is not at fault after one. -/
theorem Follows.fault? (h : Follows r) (hmark : mark.kind = .endOfInput) :
    Scan.done.fault? (nextItem mark r) = none := by
  cases r with
  | nil => simp [nextItem, Scan.fault?, hmark, Scan.done, Scan.step, Scan.expected?]
  | cons item r =>
    obtain ⟨t, rfl, ht⟩ := h item (by simp)
    cases hkind : t.kind <;>
      simp_all [nextItem, Scan.fault?, Scan.done, Scan.step, Scan.expected?,
        Token.Kind.startsOperand]

/-- A sentence is read when the end follows it, or a token that begins another operand. -/
theorem Parser.next_of_sentence (hs : s.Shows mark (d.yield.map .token ++ r))
    (hfollows : Follows r) :
    ∃ s', Parser.next s = .ok (some d.tree) s' ∧ s'.Shows mark r := by
  have hout := Parser.next_outcome hs
  generalize Parser.next s = x at hout
  cases hout with
  | nothing hu =>
    have hyield := d.yield_ne_nil (by simp) (by simp)
    simp [hyield] at hu
  | @sentence s' d' r' hu hfollows' hshows =>
    obtain ⟨hyield, rfl, -⟩ :=
      Scan.run_unique hu d.run_sentence d'.run_sentence hfollows.stuck hfollows'.stuck
    obtain rfl := Derivation.yield_injective hyield
    exact ⟨s', rfl, hshows⟩
  | @fault s' e w r' _ hu hsome hfault hleft hshows =>
    obtain ⟨stop, hrun, hstop⟩ := hfault.stops
    obtain ⟨-, rfl, rfl⟩ :=
      Scan.run_unique hu d.run_sentence hrun hfollows.stuck (Scan.stuck_of_fault hstop)
    simp [hfollows.fault? hs.mark_kind] at hstop

/-- The item at which a scan stops with an error is reported. -/
theorem Parser.next_of_stop {stop : Scan} (hs : s.Shows mark (w.map .token ++ r))
    (hsome : w.map .token ++ r ≠ []) (hrun : Scan.start.run w = some stop)
    (hstop : stop.fault? (nextItem mark r) = some e) :
    ∃ s', Parser.next s = .error e s' := by
  have hstuck := Scan.stuck_of_fault hstop
  have hout := Parser.next_outcome hs
  generalize Parser.next s = x at hout
  cases hout with
  | nothing hu => exact absurd hu hsome
  | @sentence s' d r' hu hfollows hshows =>
    obtain ⟨-, rfl, rfl⟩ := Scan.run_unique hu hrun d.run_sentence hstuck hfollows.stuck
    simp [hfollows.fault? hs.mark_kind] at hstop
  | @fault s' e' w' r' _ hu _ hfault' hleft hshows =>
    obtain ⟨stop', hrun', hstop'⟩ := hfault'.stops
    obtain ⟨-, rfl, rfl⟩ := Scan.run_unique hu hrun hrun' hstuck (Scan.stuck_of_fault hstop')
    obtain rfl : e = e' := Option.some.inj (hstop.symm.trans hstop')
    exact ⟨s', rfl⟩

/-- The item at fault is reported. -/
theorem Parser.next_of_fault (hs : s.Shows mark (w.map .token ++ r))
    (hsome : w.map .token ++ r ≠ []) (hfault : Fault w (nextItem mark r) e) :
    ∃ s', Parser.next s = .error e s' := by
  obtain ⟨stop, hrun, hstop⟩ := hfault.stops
  exact next_of_stop hs hsome hrun hstop

/-- The error of finding an item where something else was expected. -/
def Item.unexpected (expected : String) : Item → Error
  | .stray c p => .strayCharacter c p
  | .token t => .parsing (.unexpected expected t)

/-- Checking for the end succeeds at the end. -/
theorem Parser.expectEnd_nil (hs : s.Shows mark []) :
    ∃ s', Parser.expectEnd s = .ok () s' ∧ s'.Shows mark [] := by
  obtain ⟨s', hpeek, hshows⟩ := hs.peek_token rfl
  refine ⟨s', ?_, hshows⟩
  simp [Parser.expectEnd, bind, EStateM.bind, hpeek, hs.mark_kind, pure, EStateM.pure]

/-- Checking for the end reports any other item. -/
theorem Parser.expectEnd_cons {item : Item} (hs : s.Shows mark (item :: r)) :
    ∃ s' r', Parser.expectEnd s = .error (item.unexpected Parser.inputEnd) s' ∧
      r' <:+ item :: r ∧ s'.Shows mark r' := by
  cases item with
  | stray c p =>
    obtain ⟨s', hpeek, hshows⟩ := hs.peek_stray rfl
    refine ⟨s', r, ?_, List.suffix_cons _ _, hshows⟩
    simp [Parser.expectEnd, bind, EStateM.bind, hpeek, Item.unexpected]
  | token t =>
    obtain ⟨s', hpeek, hshows⟩ := hs.peek_token rfl
    have hkind := hs.kind_ne_endOfInput (t := t) (by simp)
    refine ⟨s', _, ?_, List.suffix_rfl, hshows⟩
    simp [Parser.expectEnd, bind, EStateM.bind, hpeek, hkind, Item.unexpected]

/-- The value of the next expression is that of the tree that is read. -/
theorem Parser.nextValue_eq (s : Cursor) :
    Parser.nextValue s =
      match Parser.next s with
      | .ok none s' => .ok none s'
      | .ok (some e) s' =>
        match e.value with
        | .ok x => .ok (some x) s'
        | .error f => .error (.evaluation f) s'
      | .error e s' => .error e s' := by
  simp only [Parser.nextValue, bind, EStateM.bind]
  cases Parser.next s with
  | error e s' => rfl
  | ok found s' =>
    cases found with
    | none => rfl
    | some e =>
      cases hvalue : e.value with
      | error f => simp [hvalue]
      | ok x => simp [hvalue, pure, EStateM.pure]

end Calculator
