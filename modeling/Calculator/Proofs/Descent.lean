import Calculator.Proofs.Scan
import Calculator.Proofs.View

/-!
# The rules of the parser against the grammar

Each rule either reads a phrase of its nonterminal or fails, and a scan of the same items says
which. On success the items passed are the yield of a derivation, the result is its tree, and what
follows is a token that the phrase could not have taken up. On failure the tokens passed begin
some phrase, the scan has come through them, and the item after them is the one at fault: it is
one the scan cannot go on with, and it names the error. `Scan.left` says what is left unread.

The statements are proved of all rules together, by induction on the number of items. A rule that
calls itself does so after it has passed a token; the other calls go to tighter rules.
-/

namespace Calculator

variable {α β : Type} {mark : Token} {q q₁ q' : Scan} {u : List Item}

/-- A text goes on with a token that is not of the given class. -/
def Ends (mark : Token) (taken : Token.Kind → Bool) (u : List Item) : Prop :=
  ∃ t, nextItem mark u = .token t ∧ taken t.kind = false

/-- A stray character is passed. -/
theorem Scan.left_of_stray {c : Char} {p : Nat} (h : nextItem mark u = .stray c p) :
    q.left u = u.tail := by
  cases u with
  | nil => rfl
  | cons item u =>
    obtain rfl : item = .stray c p := h
    rfl

/-- Before an expression is complete any item at fault is passed. -/
theorem Scan.left_of_ne_done (h : q ≠ .done) : q.left u = u.tail := by
  cases u with
  | nil => rfl
  | cons item u => cases item <;> simp [left, h]

/-- What a parser may come to when its cursor shows `u` and a scan of the items has reached `q`.
The results it may return for the tokens it has passed are given by `Q`. -/
inductive Outcome (mark : Token) (q q' : Scan) (ends : List Item → Prop)
    (Q : α → List Token → Prop) (u : List Item) : EStateM.Result Error Cursor α → Prop where
  | read {a : α} {s' : Cursor} {w : List Token} {r : List Item} (hu : u = w.map .token ++ r)
      (hresult : Q a w) (hrun : q.run w = some q') (hends : ends r) (hshows : s'.Shows mark r) :
      Outcome mark q q' ends Q u (.ok a s')
  | fault {e : Error} {s' : Cursor} {w : List Token} {r : List Item} {stop : Scan}
      (hu : u = w.map .token ++ r) (hrun : q.run w = some stop)
      (hfault : stop.fault? (nextItem mark r) = some e) (hshows : s'.Shows mark (stop.left r))
      (hviable : ∃ a v, Q a (w ++ v)) :
      Outcome mark q q' ends Q u (.error e s')

namespace Outcome

variable {ends ends₁ : List Item → Prop} {Q Q₁ : α → List Token → Prop} {s : Cursor}

/-- What is known of an outcome may be weakened. -/
theorem mono {x : EStateM.Result Error Cursor α} (h : Outcome mark q q' ends₁ Q₁ u x)
    (hends : ∀ r, ends₁ r → ends r) (hQ : ∀ a w, Q₁ a w → Q a w) :
    Outcome mark q q' ends Q u x := by
  cases h with
  | read hu hresult hrun hends₁ hshows =>
    exact read hu (hQ _ _ hresult) hrun (hends _ hends₁) hshows
  | fault hu hrun hfault hshows hviable =>
    obtain ⟨a, v, hviable⟩ := hviable
    exact fault hu hrun hfault hshows ⟨a, v, hQ _ _ hviable⟩

/-- Returning passes nothing. -/
theorem pure {a : α} (hs : s.Shows mark u) (hends : ends u) (hresult : Q a []) :
    Outcome mark q q ends Q u ((Pure.pure a : Parser α) s) :=
  read (w := []) rfl hresult rfl hends hs

/-- One parser after another: the second goes on where the first has stopped, and what the first
may return can always be completed. -/
theorem bind {Q : β → List Token → Prop} {p : Parser α} {f : α → Parser β}
    (hp : Outcome mark q q₁ ends₁ Q₁ u (p s))
    (hviable : ∀ a w, Q₁ a w → ∃ b v, Q b (w ++ v))
    (hf : ∀ a w r s', u = w.map .token ++ r → Q₁ a w → ends₁ r → s'.Shows mark r →
      Outcome mark q₁ q' ends (fun b v => Q b (w ++ v)) r (f a s')) :
    Outcome mark q q' ends Q u ((p >>= f) s) := by
  simp only [Bind.bind, EStateM.bind]
  generalize p s = x at hp
  cases hp with
  | @fault e s' w r stop hu hrun hfault hshows hbegun =>
    obtain ⟨a, v, hresult⟩ := hbegun
    obtain ⟨b, v', hcomplete⟩ := hviable a (w ++ v) hresult
    exact fault hu hrun hfault hshows ⟨b, v ++ v', by simpa using hcomplete⟩
  | @read a s' w r hu hresult hrun hends hshows =>
    have hrest := hf a w r s' hu hresult hends hshows
    change Outcome mark q q' ends Q u (f a s')
    generalize f a s' = y at hrest
    cases hrest with
    | @read b s'' w' r' hu' hresult' hrun' hends' hshows' =>
      have hboth : u = (w ++ w').map .token ++ r' := by simp [hu, hu']
      have hrunBoth : q.run (w ++ w') = some q' := by simp [Scan.run_append, hrun, hrun']
      exact read hboth hresult' hrunBoth hends' hshows'
    | @fault e s'' w' r' stop hu' hrun' hfault' hshows' hbegun =>
      obtain ⟨b, v, hresult'⟩ := hbegun
      have hboth : u = (w ++ w').map .token ++ r' := by simp [hu, hu']
      have hrunBoth : q.run (w ++ w') = some stop := by simp [Scan.run_append, hrun, hrun']
      exact fault hboth hrunBoth hfault' hshows' ⟨b, v, by simpa using hresult'⟩

/-- What comes of the items after a token comes of all of them, once the scan passes the token. -/
theorem cons {t : Token} {r : List Item} {x : EStateM.Result Error Cursor α}
    (hstep : q.step t.kind = some q₁) (h : Outcome mark q₁ q' ends (fun a v => Q a (t :: v)) r x) :
    Outcome mark q q' ends Q (.token t :: r) x := by
  cases h with
  | @read a s' w r' hu hresult hrun hends hshows =>
    have hboth : .token t :: r = (t :: w).map .token ++ r' := by simp [hu]
    have hrunBoth : q.run (t :: w) = some q' := by simp [hstep, hrun]
    exact read hboth hresult hrunBoth hends hshows
  | @fault e s' w r' stop hu hrun hfault hshows hbegun =>
    obtain ⟨a, v, hresult⟩ := hbegun
    have hboth : .token t :: r = (t :: w).map .token ++ r' := by simp [hu]
    have hrunBoth : q.run (t :: w) = some stop := by simp [hstep, hrun]
    exact fault hboth hrunBoth hfault hshows ⟨a, v, hresult⟩

/-- A token that is passed if it is of a class; a scan passes it as well. -/
theorem accept {allowed : Token.Kind → Bool} {g : Option Token → Parser α} (hs : s.Shows mark u)
    (hend : allowed .endOfInput = false) (hstep : ∀ k, allowed k = true → q.step k = some q₁)
    (hviable : ∃ a v, Q a v)
    (hfound : ∀ t r s', u = .token t :: r → allowed t.kind = true → s'.Shows mark r →
      Outcome mark q₁ q' ends (fun a v => Q a (t :: v)) r (g (some t) s'))
    (hmissing : ∀ s', Ends mark allowed u → s'.Shows mark u →
      Outcome mark q q' ends Q u (g none s')) :
    Outcome mark q q' ends Q u ((Cursor.accept? allowed >>= g) s) := by
  simp only [Bind.bind, EStateM.bind, Cursor.accept?_apply]
  cases hnext : nextItem mark u with
  | stray c p =>
    obtain ⟨s', hpeek, hshows⟩ := hs.peek_stray hnext
    rw [← Scan.left_of_stray hnext] at hshows
    simp only [hpeek]
    exact fault (w := []) rfl rfl (by simp [hnext, Scan.fault?]) hshows hviable
  | token t =>
    obtain ⟨s', hpeek, hshows⟩ := hs.peek_token hnext
    simp only [hpeek]
    by_cases hallowed : allowed t.kind = true
    · have hkind : t.kind ≠ .endOfInput := fun hk => by simp [hk, hend] at hallowed
      obtain ⟨r, rfl⟩ := hs.exists_cons hnext hkind
      have hlook := (Cursor.peek_ok hpeek).1
      have hrest : Cursor.Shows ⟨s'.lexer, none⟩ mark r :=
        .of_lexer (hshows.of_lookahead hlook).2 hshows.endMark
      simp only [hallowed, if_true]
      exact cons (hstep _ hallowed) (hfound t r _ rfl hallowed hrest)
    · simp only [hallowed, Bool.false_eq_true, if_false]
      exact hmissing s' ⟨t, hnext, by simpa using hallowed⟩ hshows

/-- A token that is passed, whatever it is. -/
theorem advance {g : Token → Parser α} (hs : s.Shows mark u) (hviable : ∃ a v, Q a v)
    (htoken : ∀ t s', nextItem mark u = .token t → s'.Shows mark u.tail →
      Outcome mark q q' ends Q u (g t s')) :
    Outcome mark q q' ends Q u ((Cursor.advance >>= g) s) := by
  cases hnext : nextItem mark u with
  | stray c p =>
    obtain ⟨s', hadvance, hshows⟩ := hs.advance_stray hnext
    rw [← Scan.left_of_stray hnext] at hshows
    simp only [Bind.bind, EStateM.bind, hadvance]
    exact fault (w := []) rfl rfl (by simp [hnext, Scan.fault?]) hshows hviable
  | token t =>
    obtain ⟨s', hadvance, hshows⟩ := hs.advance_token hnext
    simp only [Bind.bind, EStateM.bind, hadvance]
    exact htoken t s' hnext hshows

end Outcome

open Nonterminal (continues)

/-- What a phrase leaves after it: a token it could not have taken up. Only an atom does not look
at what follows it. -/
def Leaves (mark : Token) (n : Nonterminal) (r : List Item) : Prop :=
  n = .atom ∨ Ends mark n.continues r

/-- A rule reads phrases of a nonterminal when its cursor shows `u` and a scan is in mode `m`:
what it returns is the meaning of a phrase. -/
def Reads (mark : Token) (n : Nonterminal) (meaning : Derivation n → Expr) (m : Scan.Mode)
    (p : Parser Expr) (u : List Item) : Prop :=
  ∀ s depth, s.Shows mark u →
    Outcome mark ⟨m, depth⟩ ⟨.continuation, depth⟩ (Leaves mark n)
      (fun e w => ∃ d : Derivation n, d.yield = w ∧ meaning d = e) u (p s)

/-- A token that a scan has no use for is at fault, and the rule names what it asks for. -/
theorem Outcome.unexpected {ends : List Item → Prop} {Q : α → List Token → Prop} {t : Token}
    {s' : Cursor} {expected : String} (hnext : nextItem mark u = .token t) (hq : q ≠ .done)
    (hstep : q.step t.kind = none) (hexpected : q.expected? t.kind = some expected)
    (hshows : s'.Shows mark u.tail) (hviable : ∃ a v, Q a v) :
    Outcome mark q q' ends Q u
      ((throw (.parsing (.unexpected expected t)) : Parser α) s') := by
  rw [← Scan.left_of_ne_done hq] at hshows
  exact .fault (w := []) rfl rfl (by simp [hnext, Scan.fault?, hstep, hexpected]) hshows hviable

/-- A closing parenthesis after an expression in a group, or the fault of what is there instead. -/
theorem outcome_close {s : Cursor} {r : List Item} {inner : Expr} (hs : s.Shows mark r)
    (hends : Ends mark Nonterminal.sum.continues r) (depth : Nat) :
    Outcome mark ⟨.continuation, depth + 1⟩ ⟨.continuation, depth⟩ (Leaves mark .atom)
      (fun e w => e = inner ∧ ∃ c : Token, c.kind = .closeParen ∧ w = [c]) r
      ((Cursor.expect .closeParen Rule.groupEnd >>= fun _ => (pure inner : Parser Expr)) s) := by
  obtain ⟨t, hnext, hop⟩ := hends
  rw [Cursor.expect, bind_assoc]
  refine .advance hs ⟨inner, [.symbol .closeParen 0], rfl, _, rfl, rfl⟩ fun t' s' ht' hshows => ?_
  obtain rfl : t = t' := Item.token.inj (hnext.symm.trans ht')
  by_cases hkind : t.kind = .closeParen
  · obtain ⟨r', rfl⟩ := hs.exists_cons hnext (by simp [hkind])
    simp only [hkind, if_true, pure_bind]
    exact .cons (hkind ▸ Scan.step_closeParen depth)
      (.pure hshows (.inl rfl) ⟨rfl, t, hkind, rfl⟩)
  · have hstep : Scan.step ⟨.continuation, depth + 1⟩ t.kind = none := by
      cases hk : t.kind <;> simp_all [Scan.step, continues, Token.Kind.isOperator]
    simp only [hkind, if_false]
    exact .unexpected hnext (by simp [Scan.done]) hstep rfl hshows
      ⟨inner, [.symbol .closeParen 0], rfl, _, rfl, rfl⟩

/-- The rule of atoms, once the rule of sums is known on shorter texts. -/
theorem atom_reads {m : Scan.Mode} (hm : m ≠ .continuation)
    (hsign : m = .operand → Ends mark Token.Kind.isAdditive u)
    (hsum : ∀ r, r.length < u.length → Reads mark .sum Derivation.tree .operand Parser.sum r) :
    Reads mark .atom Derivation.tree m Parser.atom u := by
  intro s depth hs
  have sample : ∃ (e : Expr) (w : List Token) (d : Derivation .atom), d.yield = w ∧ d.tree = e :=
    ⟨_, _, .literal ⟨.literal .integer, "0", 0⟩ rfl, rfl, rfl⟩
  rw [Parser.atom_eq]
  refine .advance hs sample fun t s' hnext hshows => ?_
  have hmode : Scan.expected? ⟨m, depth⟩ t.kind = some Rule.atomStart := by
    cases m <;> simp_all [Scan.expected?]
  have hbefore : (⟨m, depth⟩ : Scan) ≠ .done := by simp [Scan.done, hm]
  cases hkind : t.kind with
  | literal form =>
    obtain ⟨r, rfl⟩ := hs.exists_cons hnext (by simp [hkind])
    have ht : t.kind.isLiteral = true := by simp [hkind, Token.Kind.isLiteral]
    exact .cons (Scan.step_of_isLiteral hm ht depth)
      (.pure hshows (.inl rfl) ⟨.literal t ht, rfl, rfl⟩)
  | openParen =>
    obtain ⟨r, rfl⟩ := hs.exists_cons hnext (by simp [hkind])
    apply Outcome.cons (hkind ▸ Scan.step_openParen hm depth)
    apply Outcome.bind (hsum r (by simp) s' (depth + 1) hshows)
    · intro e w hphrase
      obtain ⟨d, rfl, rfl⟩ := hphrase
      exact ⟨_, _, .group t hkind d (.symbol .closeParen 0) rfl, rfl, rfl⟩
    · intro e w r' s'' _ hphrase hends hshows'
      obtain ⟨d, rfl, rfl⟩ := hphrase
      apply (outcome_close hshows' (hends.resolve_left (by simp)) depth).mono (fun _ h => h)
      intro e v h
      obtain ⟨rfl, c, hc, rfl⟩ := h
      exact ⟨.group t hkind d c hc, rfl, rfl⟩
  | operator op =>
    refine .unexpected hnext hbefore ?_ hmode hshows sample
    cases m with
    | operand =>
      obtain ⟨t', ht', hadditive⟩ := hsign rfl
      obtain rfl : t = t' := Item.token.inj (hnext.symm.trans ht')
      simpa [hkind, Scan.step, Token.Kind.isAdditive] using hadditive
    | bareOperand => simp [hkind, Scan.step]
    | continuation => contradiction
  | closeParen | endOfInput =>
    refine .unexpected hnext hbefore ?_ hmode hshows sample
    cases m <;> simp_all [Scan.step]

/-- A phrase that is no repetition leaves fewer items than there were. -/
theorem length_lt_of_yield {n : Nonterminal} (d : Derivation n) (hproducts : n ≠ .products)
    (hfactors : n ≠ .factors) {r : List Item} (hu : u = d.yield.map .token ++ r) :
    r.length < u.length := by
  have hpos := List.length_pos_of_ne_nil (d.yield_ne_nil hproducts hfactors)
  simp only [hu, List.length_append, List.length_map]
  omega

/-- The rule of powers: an atom, and after `^` a power on a shorter text. -/
theorem power_reads {m : Scan.Mode}
    (hatom : Reads mark .atom Derivation.tree m Parser.atom u)
    (hpower : ∀ r, r.length < u.length →
      Reads mark .power Derivation.tree .bareOperand Parser.power r) :
    Reads mark .power Derivation.tree m Parser.power u := by
  intro s depth hs
  rw [Parser.power_eq]
  apply Outcome.bind (hatom s depth hs)
  · intro e w hphrase
    obtain ⟨d, rfl, rfl⟩ := hphrase
    exact ⟨_, [], .bare d, by simp [Derivation.yield], rfl⟩
  · intro e w r s' hu hphrase _ hshows
    obtain ⟨base, rfl, rfl⟩ := hphrase
    have hr := length_lt_of_yield base (by simp) (by simp) hu
    refine .accept hshows rfl (fun k hk => Scan.step_power hk depth)
      ⟨_, [], .bare base, by simp [Derivation.yield], rfl⟩ ?_ ?_
    · intro op r' s'' heq hop hshows'
      obtain rfl := heq
      have hexponent := hpower r' (by simp at hr; omega) s'' depth hshows'
      apply Outcome.bind hexponent
      · intro e w hphrase
        obtain ⟨exponent, rfl, rfl⟩ := hphrase
        exact ⟨_, [], .raised base op hop exponent, by simp [Derivation.yield], rfl⟩
      · intro e w r'' s₃ _ hphrase hends hshows''
        obtain ⟨exponent, rfl, rfl⟩ := hphrase
        exact .pure hshows'' (.inr (hends.resolve_left (by simp)))
          ⟨.raised base op hop exponent, by simp [Derivation.yield], rfl⟩
    · intro s'' hends hshows'
      exact .pure hshows' (.inr hends) ⟨.bare base, by simp [Derivation.yield], rfl⟩

/-- The rule of signed powers: with a sign the power begins after it and may not have another. -/
theorem signed_reads
    (hpower : Ends mark Token.Kind.isAdditive u →
      Reads mark .power Derivation.tree .operand Parser.power u)
    (hshorter : ∀ r, r.length < u.length →
      Reads mark .power Derivation.tree .bareOperand Parser.power r) :
    Reads mark .signed Derivation.tree .operand Parser.signed u := by
  intro s depth hs
  have sample : Derivation .power := .bare (.literal ⟨.literal .integer, "0", 0⟩ rfl)
  rw [Parser.signed_eq]
  refine .accept hs rfl (fun k hk => Scan.step_sign hk depth) ⟨_, _, .unsigned sample, rfl, rfl⟩
    ?_ ?_
  · intro sign r s' heq hsign hshows
    obtain rfl := heq
    apply Outcome.bind (hshorter r (by simp) s' depth hshows)
    · intro e w hphrase
      obtain ⟨operand, rfl, rfl⟩ := hphrase
      exact ⟨_, [], .signed sign hsign operand, by simp [Derivation.yield], rfl⟩
    · intro e w r' s'' _ hphrase hends hshows'
      obtain ⟨operand, rfl, rfl⟩ := hphrase
      exact .pure hshows' (.inr (hends.resolve_left (by simp)))
        ⟨.signed sign hsign operand, by simp [Derivation.yield], rfl⟩
  · intro s' hends hshows
    apply ((hpower hends) s' depth hshows).mono
    · intro r hleaves
      exact .inr (hleaves.resolve_left (by simp))
    · intro e w hphrase
      obtain ⟨operand, rfl, rfl⟩ := hphrase
      exact ⟨.unsigned operand, rfl, rfl⟩

/-- The repeated end of a line of the grammar with the rules that read its operands and the
operators between them. -/
structure Repetition (n more : Nonterminal) extends Chain n more where
  operand : Parser Expr
  rest : Expr → Parser Expr
  rest_eq (left : Expr) :
    rest left = Cursor.accept? joins >>= fun
      | some op => operand >>= fun right => rest (.binary op left right)
      | none => pure left
  isOperator (k : Token.Kind) : joins k = true → (k.isAdditive || k.isMultiplicative) = true
  progress (s : Cursor) : Progress s.unread.length (operand s)
  operand_ne : n ≠ .products ∧ n ≠ .factors ∧ n ≠ .atom
  more_ne : more ≠ .atom

namespace Repetition

variable {n more whole : Nonterminal} (rep : Repetition n more)

/-- The end joins no operands. -/
theorem joins_endOfInput : rep.joins .endOfInput = false := by
  by_contra hend
  have hoperator := rep.isOperator .endOfInput (by simpa using hend)
  contradiction

/-- An operand that is read leaves fewer items unread. -/
theorem operand_length_lt {s s' : Cursor} {e : Expr} (h : rep.operand s = .ok e s') :
    s'.unread.length < s.unread.length :=
  (rep.progress s).lt_of_ok h

/-- The rule of what follows the first operand, with `left` before it. -/
theorem rest_reads (left : Expr) (hstart : Ends mark n.continues u)
    (hoperand : ∀ r, r.length < u.length → Reads mark n rep.tree .operand rep.operand r)
    (hmore : ∀ left r, r.length < u.length → Ends mark n.continues r →
      Reads mark more (rep.apply · left) .continuation (rep.rest left) r) :
    Reads mark more (rep.apply · left) .continuation (rep.rest left) u := by
  intro s depth hs
  rw [rep.rest_eq]
  refine .accept hs rep.joins_endOfInput
    (fun k hk => Scan.step_operator (rep.isOperator k hk) depth) ⟨_, _, rep.stop, rfl, rfl⟩ ?_ ?_
  · intro op r s' heq hop hshows
    obtain rfl := heq
    apply Outcome.bind (hoperand r (by simp) s' depth hshows)
    · intro e w hphrase
      obtain ⟨next, rfl, rfl⟩ := hphrase
      exact ⟨_, [], rep.add op hop next rep.stop, by simp [rep.yield_add, rep.yield_stop], rfl⟩
    · intro e w r' s'' hu hphrase hends hshows'
      obtain ⟨next, rfl, rfl⟩ := hphrase
      have hr := length_lt_of_yield next rep.operand_ne.1 rep.operand_ne.2.1 hu
      have hrest := hmore (.binary op left (rep.tree next)) r' (by simp; omega)
        (hends.resolve_left rep.operand_ne.2.2) s'' depth hshows'
      apply hrest.mono (fun _ h => h)
      intro e v hphrase
      obtain ⟨later, rfl, rfl⟩ := hphrase
      exact ⟨rep.add op hop next later, by simp [rep.yield_add],
        rep.apply_add op hop next later left⟩
  · intro s' h hshows
    obtain ⟨t, hnext, hjoins⟩ := h
    obtain ⟨t', hnext', htight⟩ := hstart
    obtain rfl : t = t' := Item.token.inj (hnext.symm.trans hnext')
    have hends : Ends mark more.continues u :=
      ⟨t, hnext, by rw [rep.continues_eq, hjoins, htight, Bool.or_self]⟩
    exact .pure hshows (.inr hends) ⟨rep.stop, rep.yield_stop, rep.apply_stop left⟩

/-- The rule of a line that ends with a repetition: an operand and what follows it. -/
theorem whole_reads {p : Parser Expr} {meaning : Derivation whole → Expr}
    (build : Derivation n → Derivation more → Derivation whole)
    (hyield : ∀ first later, (build first later).yield = first.yield ++ later.yield)
    (hmeaning : ∀ first later, meaning (build first later) = rep.apply later (rep.tree first))
    (hcontinues : whole.continues = more.continues) (hp : p = rep.operand >>= rep.rest)
    (hoperand : Reads mark n rep.tree .operand rep.operand u)
    (hmore : ∀ left r, r.length < u.length → Ends mark n.continues r →
      Reads mark more (rep.apply · left) .continuation (rep.rest left) r) :
    Reads mark whole meaning .operand p u := by
  intro s depth hs
  rw [hp]
  apply Outcome.bind (hoperand s depth hs)
  · intro e w hphrase
    obtain ⟨first, rfl, rfl⟩ := hphrase
    exact ⟨_, [], build first rep.stop, by simp [hyield, rep.yield_stop], rfl⟩
  · intro e w r s' hu hphrase hends hshows
    obtain ⟨first, rfl, rfl⟩ := hphrase
    have hr := length_lt_of_yield first rep.operand_ne.1 rep.operand_ne.2.1 hu
    have hrest := hmore (rep.tree first) r hr (hends.resolve_left rep.operand_ne.2.2) s' depth
      hshows
    apply hrest.mono
    · intro r hleaves
      exact .inr (hcontinues ▸ hleaves.resolve_left rep.more_ne)
    · intro e v hphrase
      obtain ⟨later, rfl, rfl⟩ := hphrase
      exact ⟨build first later, hyield first later, hmeaning first later⟩

/-- Factors and the rules that read them. -/
def factors : Repetition .signed .factors where
  toChain := .factors
  operand := Parser.signed
  rest := Parser.moreFactors
  rest_eq := Parser.moreFactors_eq
  isOperator k hk := by simp [show k.isMultiplicative = true from hk]
  progress s := (Rule.signed s).progress
  operand_ne := by simp
  more_ne := by simp

/-- Products and the rules that read them. -/
def products : Repetition .product .products where
  toChain := .products
  operand := Parser.product
  rest := Parser.moreProducts
  rest_eq := Parser.moreProducts_eq
  isOperator k hk := by simp [show k.isAdditive = true from hk]
  progress s := (Rule.product s).progress
  operand_ne := by simp
  more_ne := by simp

end Repetition

/-- What all rules do at a cursor that shows `u`. -/
structure RulesRead (mark : Token) (u : List Item) : Prop where
  power : Reads mark .power Derivation.tree .bareOperand Parser.power u
  signed : Reads mark .signed Derivation.tree .operand Parser.signed u
  moreFactors : ∀ left, Ends mark Nonterminal.signed.continues u →
    Reads mark .factors (·.tree left) .continuation (Parser.moreFactors left) u
  product : Reads mark .product Derivation.tree .operand Parser.product u
  moreProducts : ∀ left, Ends mark Nonterminal.product.continues u →
    Reads mark .products (·.tree left) .continuation (Parser.moreProducts left) u
  sum : Reads mark .sum Derivation.tree .operand Parser.sum u

/-- Every rule reads its phrases. -/
theorem rulesRead (mark : Token) (u : List Item) : RulesRead mark u := by
  have ih : ∀ r : List Item, r.length < u.length → RulesRead mark r :=
    fun r _ => rulesRead mark r
  have hatom (m : Scan.Mode) (hm : m ≠ .continuation)
      (hsign : m = .operand → Ends mark Token.Kind.isAdditive u) :
      Reads mark .atom Derivation.tree m Parser.atom u :=
    atom_reads hm hsign fun r hr => (ih r hr).sum
  have hpower (m : Scan.Mode) (hm : m ≠ .continuation)
      (hsign : m = .operand → Ends mark Token.Kind.isAdditive u) :
      Reads mark .power Derivation.tree m Parser.power u :=
    power_reads (hatom m hm hsign) fun r hr => (ih r hr).power
  have hsigned := signed_reads (fun hsign => hpower .operand (by simp) fun _ => hsign)
    fun r hr => (ih r hr).power
  have hmoreFactors (left : Expr) (hstart : Ends mark Nonterminal.signed.continues u) :=
    Repetition.factors.rest_reads left hstart (fun r hr => (ih r hr).signed)
      fun left r hr => (ih r hr).moreFactors left
  have hproduct : Reads mark .product Derivation.tree .operand Parser.product u :=
    Repetition.factors.whole_reads .product (fun _ _ => rfl) (fun _ _ => rfl) rfl Parser.product_eq
      hsigned fun left r hr => (ih r hr).moreFactors left
  have hmoreProducts (left : Expr) (hstart : Ends mark Nonterminal.product.continues u) :=
    Repetition.products.rest_reads left hstart (fun r hr => (ih r hr).product)
      fun left r hr => (ih r hr).moreProducts left
  have hsum : Reads mark .sum Derivation.tree .operand Parser.sum u :=
    Repetition.products.whole_reads .sum (fun _ _ => rfl) (fun _ _ => rfl) rfl Parser.sum_eq
      hproduct fun left r hr => (ih r hr).moreProducts left
  exact {
    power := hpower .bareOperand (by simp) (by simp)
    signed := hsigned
    moreFactors := hmoreFactors
    product := hproduct
    moreProducts := hmoreProducts
    sum := hsum }
termination_by u.length

end Calculator
