import Calculator.Proofs.Calls

/-!
# Cursors in lockstep

A parser looks at its cursor in two ways only: it looks at the next token, and it passes it. Of a
token it asks nothing but the kind. So when two cursors are related in a way that looking and
advancing keep, with tokens of the same kinds to be seen on both, every rule does the same on both:
it succeeds on both or fails on both, the trees have one shape and related tokens, and the cursors
that are left are related again.

A `Lockstep` is such a relation. The rules are proved to keep it all together, by induction on the
number of unread items; from the rules it goes over to the calls of a parser and to any history of
them. With equality of tokens and a property of a single cursor as the relation, this says that what
looking and advancing keep is kept by everything a parser does.
-/

namespace Calculator

variable {α β γ δ : Type} {cursors : Cursor → Cursor → Prop} {errors : Error → Error → Prop}

/-- Two results in step: both are successes with related answers or both are failures with related
errors, and the cursors that are left are related. -/
inductive InStep (cursors : Cursor → Cursor → Prop) (errors : Error → Error → Prop)
    (answers : α → β → Prop) :
    EStateM.Result Error Cursor α → EStateM.Result Error Cursor β → Prop
  | ok {a : α} {b : β} {s s' : Cursor} (ha : answers a b) (hs : cursors s s') :
      InStep cursors errors answers (.ok a s) (.ok b s')
  | error {e e' : Error} {s s' : Cursor} (he : errors e e') (hs : cursors s s') :
      InStep cursors errors answers (.error e s) (.error e' s')

namespace InStep

variable {answers : α → β → Prop} {s s' : Cursor}

/-- Parsers after one another: the second ones are in step where the first ones have succeeded. -/
theorem bind {results : γ → δ → Prop} {p : Parser α} {q : Parser β} {f : α → Parser γ}
    {g : β → Parser δ} (h : InStep cursors errors answers (p s) (q s'))
    (hfg : ∀ a b t t', p s = .ok a t → answers a b → cursors t t' →
      InStep cursors errors results (f a t) (g b t')) :
    InStep cursors errors results ((p >>= f) s) ((q >>= g) s') := by
  simp only [Bind.bind, EStateM.bind]
  generalize p s = x at h hfg
  generalize q s' = y at h
  cases h with
  | ok ha hs => exact hfg _ _ _ _ rfl ha hs
  | error he hs => exact .error he hs

/-- Parsers in step leave related cursors. -/
theorem leave {p : Parser α} {q : Parser β} (h : InStep cursors errors answers (p s) (q s')) :
    cursors (p.leave s) (q.leave s') := by
  simp only [Parser.leave]
  generalize p s = x at h
  generalize q s' = y at h
  cases h with
  | ok _ hs | error _ hs => exact hs

end InStep

/-- A relation between cursors on which looking and advancing are in step, with related tokens, and
the relation between errors that comes with it. -/
structure Lockstep where
  cursors : Cursor → Cursor → Prop
  tokens : Token → Token → Prop
  errors : Error → Error → Prop
  kind_eq {t t' : Token} : tokens t t' → t'.kind = t.kind
  unexpected {t t' : Token} (expected : String) : tokens t t' →
    errors (.parsing (.unexpected expected t)) (.parsing (.unexpected expected t'))
  peek {s s' : Cursor} :
    cursors s s' → InStep cursors errors tokens (Cursor.peek s) (Cursor.peek s')
  advance {s s' : Cursor} : cursors s s' →
    InStep cursors errors tokens (Cursor.advance s) (Cursor.advance s')

namespace Lockstep

variable (L : Lockstep) {s s' : Cursor} {n : Nat}

/-- Trees of one shape with related tokens at their nodes. -/
inductive Trees : Expr → Expr → Prop
  | leaf {t t' : Token} (ht : L.tokens t t') : Trees (.leaf t) (.leaf t')
  | signed {t t' : Token} {e e' : Expr} (ht : L.tokens t t') (he : Trees e e') :
      Trees (.signed t e) (.signed t' e')
  | binary {t t' : Token} {l l' r r' : Expr} (ht : L.tokens t t') (hl : Trees l l')
      (hr : Trees r r') : Trees (.binary t l r) (.binary t' l' r')

/-- Parsers of trees that are in step at related cursors, the first one with `n` unread items. -/
def Agree (n : Nat) (p q : Parser Expr) : Prop :=
  ∀ s s', s.unread.length = n → L.cursors s s' → InStep L.cursors L.errors L.Trees (p s) (q s')

variable {L}

/-- Errors at related tokens are related. -/
theorem inStep_throw {answers : α → β → Prop} {t t' : Token} (expected : String)
    (ht : L.tokens t t') (hs : L.cursors s s') :
    InStep L.cursors L.errors answers
      ((throw (.parsing (.unexpected expected t)) : Parser α) s)
      ((throw (.parsing (.unexpected expected t')) : Parser β) s') :=
  .error (L.unexpected expected ht) hs

/-- Asking for a token of a class is in step. -/
theorem inStep_accept (allowed : Token.Kind → Bool) (hs : L.cursors s s') :
    InStep L.cursors L.errors (Option.Rel L.tokens) (Cursor.accept? allowed s)
      (Cursor.accept? allowed s') := by
  refine .bind (L.peek hs) fun t t' s₁ s₁' _ ht hs₁ => ?_
  rw [L.kind_eq ht]
  split
  · exact .bind (L.advance hs₁) fun _ _ _ _ _ ht' hs₂ => .ok (.some ht') hs₂
  · exact .ok .none hs₁

/-- Expecting a token is in step. -/
theorem inStep_expect (kind : Token.Kind) (expected : String) (hs : L.cursors s s') :
    InStep L.cursors L.errors L.tokens (Cursor.expect kind expected s)
      (Cursor.expect kind expected s') := by
  refine .bind (L.advance hs) fun t t' s₁ s₁' _ ht hs₁ => ?_
  rw [L.kind_eq ht]
  split
  · exact .ok ht hs₁
  · exact inStep_throw expected ht hs₁

/-- The rule of what follows the first operand. -/
theorem agree_rest {k more : Nonterminal} (rep : Repetition k more)
    (hoperand : ∀ m < n, L.Agree m rep.operand rep.operand)
    (hrest : ∀ m < n, ∀ left left', L.Trees left left' →
      L.Agree m (rep.rest left) (rep.rest left'))
    {left left' : Expr} (hleft : L.Trees left left') :
    L.Agree n (rep.rest left) (rep.rest left') := by
  intro s s' hn hs
  rw [rep.rest_eq, rep.rest_eq]
  refine .bind (inStep_accept rep.joins hs) fun found found' s₁ s₁' haccept hfound hs₁ => ?_
  cases hfound with
  | none => exact .ok hleft hs₁
  | @some op op' hop =>
    have hlt : s₁.unread.length < n :=
      hn ▸ Cursor.accept?_length_lt rep.joins_endOfInput haccept
    refine .bind (hoperand _ hlt s₁ s₁' rfl hs₁) fun right right' s₂ s₂' hread hright hs₂ => ?_
    have hlt' := rep.operand_length_lt hread
    exact hrest _ (hlt'.trans hlt) _ _ (.binary hop hleft hright) s₂ s₂' rfl hs₂

/-- The rule of a line that ends with a repetition. -/
theorem agree_whole {k more : Nonterminal} (rep : Repetition k more)
    (hoperand : L.Agree n rep.operand rep.operand)
    (hrest : ∀ m < n, ∀ left left', L.Trees left left' →
      L.Agree m (rep.rest left) (rep.rest left')) :
    L.Agree n (rep.operand >>= rep.rest) (rep.operand >>= rep.rest) := by
  intro s s' hn hs
  refine .bind (hoperand s s' hn hs) fun left left' s₁ s₁' hread hleft hs₁ => ?_
  exact hrest _ (hn ▸ rep.operand_length_lt hread) left left' hleft s₁ s₁' rfl hs₁

/-- The rule of atoms. -/
theorem agree_atom (hsum : ∀ m < n, L.Agree m Parser.sum Parser.sum) :
    L.Agree n Parser.atom Parser.atom := by
  intro s s' hn hs
  rw [Parser.atom_eq]
  refine .bind (L.advance hs) fun t t' s₁ s₁' hadvance ht hs₁ => ?_
  have hkind := L.kind_eq ht
  cases hk : t.kind with
  | literal form =>
    rw [hk] at hkind
    simp only [hkind]
    exact .ok (.leaf ht) hs₁
  | openParen =>
    rw [hk] at hkind
    simp only [hkind]
    have hlt : s₁.unread.length < n := by
      rw [← hn, Cursor.advance_ok hadvance, hk]
      simp
    refine .bind (hsum _ hlt s₁ s₁' rfl hs₁) fun e e' s₂ s₂' _ he hs₂ => ?_
    exact .bind (inStep_expect .closeParen Rule.groupEnd hs₂) fun _ _ _ _ _ _ hs₃ => .ok he hs₃
  | operator | closeParen | endOfInput =>
    rw [hk] at hkind
    simp only [hkind]
    exact inStep_throw Rule.atomStart ht hs₁

/-- The rule of powers. -/
theorem agree_power (hatom : L.Agree n Parser.atom Parser.atom)
    (hpower : ∀ m < n, L.Agree m Parser.power Parser.power) :
    L.Agree n Parser.power Parser.power := by
  intro s s' hn hs
  rw [Parser.power_eq]
  refine .bind (hatom s s' hn hs) fun base base' s₁ s₁' hread hbase hs₁ => ?_
  refine .bind (inStep_accept _ hs₁) fun found found' s₂ s₂' haccept hfound hs₂ => ?_
  cases hfound with
  | none => exact .ok hbase hs₂
  | some hop =>
    have hlt := (Rule.atom s).progress.lt_of_ok hread
    rw [(Cursor.accept?_some rfl haccept).2, List.length_cons, hn] at hlt
    refine .bind (hpower _ (by omega) s₂ s₂' rfl hs₂) fun e e' s₃ s₃' _ he hs₃ => ?_
    exact .ok (.binary hop hbase he) hs₃

/-- The rule of signed powers. -/
theorem agree_signed (hpower : ∀ m ≤ n, L.Agree m Parser.power Parser.power) :
    L.Agree n Parser.signed Parser.signed := by
  intro s s' hn hs
  rw [Parser.signed_eq]
  refine .bind (inStep_accept _ hs) fun found found' s₁ s₁' haccept hfound hs₁ => ?_
  cases hfound with
  | none =>
    have hsame := (Cursor.accept?_none haccept).1
    exact hpower n le_rfl s₁ s₁' (by rw [hsame, hn]) hs₁
  | some hsign =>
    have hunread := (Cursor.accept?_some rfl haccept).2
    have hle : s₁.unread.length ≤ n := by simp [← hn, hunread]
    refine .bind (hpower _ hle s₁ s₁' rfl hs₁) fun e e' s₂ s₂' _ he hs₂ => ?_
    exact .ok (.signed hsign he) hs₂

variable (L) in
/-- The rules are in step at cursors with `n` unread items on the first one. -/
structure RulesAgree (n : Nat) : Prop where
  power : L.Agree n Parser.power Parser.power
  signed : L.Agree n Parser.signed Parser.signed
  moreFactors : ∀ left left', L.Trees left left' →
    L.Agree n (Parser.moreFactors left) (Parser.moreFactors left')
  product : L.Agree n Parser.product Parser.product
  moreProducts : ∀ left left', L.Trees left left' →
    L.Agree n (Parser.moreProducts left) (Parser.moreProducts left')
  sum : L.Agree n Parser.sum Parser.sum

/-- All rules are in step. -/
theorem rulesAgree (L : Lockstep) (n : Nat) : L.RulesAgree n := by
  have ih : ∀ m < n, L.RulesAgree m := fun m _ => rulesAgree L m
  have hpower := agree_power (agree_atom fun m hm => (ih m hm).sum) fun m hm => (ih m hm).power
  have hpowers : ∀ m ≤ n, L.Agree m Parser.power Parser.power := by
    intro m hm
    rcases Nat.lt_or_eq_of_le hm with hlt | rfl
    · exact (ih m hlt).power
    · exact hpower
  have hsigned := agree_signed hpowers
  have hproduct : L.Agree n Parser.product Parser.product := by
    rw [Parser.product_eq]
    exact agree_whole .factors hsigned fun m hm => (ih m hm).moreFactors
  have hsum : L.Agree n Parser.sum Parser.sum := by
    rw [Parser.sum_eq]
    exact agree_whole .products hproduct fun m hm => (ih m hm).moreProducts
  exact {
    power := hpower
    signed := hsigned
    moreFactors := fun left left' => agree_rest .factors (fun m hm => (ih m hm).signed)
      fun m hm => (ih m hm).moreFactors
    product := hproduct
    moreProducts := fun left left' => agree_rest .products
      (fun m hm => (ih m hm).product) fun m hm => (ih m hm).moreProducts
    sum := hsum }
termination_by n

/-- Reading the next expression is in step. -/
theorem next (L : Lockstep) (hs : L.cursors s s') :
    InStep L.cursors L.errors (Option.Rel L.Trees) (Parser.next s) (Parser.next s') := by
  refine .bind (L.peek hs) fun first first' s₁ s₁' _ hfirst hs₁ => ?_
  rw [L.kind_eq hfirst]
  split
  · exact .ok .none hs₁
  · refine .bind ((L.rulesAgree _).sum s₁ s₁' rfl hs₁) fun e e' s₂ s₂' _ he hs₂ => ?_
    refine .bind (L.peek hs₂) fun follow follow' s₃ s₃' _ hfollow hs₃ => ?_
    rw [L.kind_eq hfollow]
    split
    · exact .ok (.some he) hs₃
    · exact inStep_throw _ hfollow hs₃

/-- Reading the next value is in step where the trees that are read have the same value. -/
theorem nextValue (L : Lockstep) (herror : ∀ e, L.errors (.evaluation e) (.evaluation e))
    (hs : L.cursors s s')
    (hvalue : ∀ e e' t, Parser.next s = .ok (some e) t → L.Trees e e' → e'.value = e.value) :
    InStep L.cursors L.errors Eq (Parser.nextValue s) (Parser.nextValue s') := by
  refine .bind (L.next hs) fun found found' t t' hnext hfound ht => ?_
  cases hfound with
  | none => exact .ok rfl ht
  | @some e e' he =>
    simp only [hvalue e e' t hnext he]
    cases e.value with
    | ok x => exact .ok rfl ht
    | error error => exact .error (herror error) ht

/-- Checking for the end is in step. -/
theorem expectEnd (L : Lockstep) (hs : L.cursors s s') :
    InStep L.cursors L.errors Eq (Parser.expectEnd s) (Parser.expectEnd s') := by
  refine .bind (L.peek hs) fun t t' s₁ s₁' _ ht hs₁ => ?_
  rw [L.kind_eq ht]
  split
  · exact .ok rfl hs₁
  · exact inStep_throw _ ht hs₁

/-- A call leaves related cursors. -/
theorem leave (L : Lockstep) (hs : L.cursors s s') (call : Parser.Call) :
    L.cursors (call.leave s) (call.leave s') := by
  cases call with
  | next => exact (L.next hs).leave
  | nextValue =>
    simp only [Parser.Call.leave, Parser.leave_nextValue]
    exact (L.next hs).leave
  | expectEnd => exact (L.expectEnd hs).leave

/-- Calls leave related cursors. -/
theorem after (L : Lockstep) (hs : L.cursors s s') (calls : List Parser.Call) :
    L.cursors (Parser.after calls s) (Parser.after calls s') := by
  induction calls generalizing s s' with
  | nil => exact hs
  | cons call calls ih => exact ih (L.leave hs call)

variable {I : Cursor → Prop}

/-- A result is in step with itself when a property holds of the cursor that is left. -/
theorem inStep_self {p : Parser α} (h : I (p.leave s)) :
    InStep (fun s s' => s' = s ∧ I s) Eq Eq (p s) (p s) := by
  simp only [Parser.leave] at h
  generalize p s = x at h
  cases x with
  | ok a t => exact .ok rfl ⟨rfl, h⟩
  | error e t => exact .error rfl ⟨rfl, h⟩

/-- A property of cursors that looking and advancing keep, as a relation of a cursor to itself. -/
def ofInvariant (hpeek : ∀ s, I s → I (Parser.leave Cursor.peek s))
    (hadvance : ∀ s, I s → I (Parser.leave Cursor.advance s)) : Lockstep where
  cursors s s' := s' = s ∧ I s
  tokens := Eq
  errors := Eq
  kind_eq ht := congrArg Token.kind ht.symm
  unexpected expected ht := congrArg (fun t => Error.parsing (.unexpected expected t)) ht
  peek hs := by
    obtain ⟨rfl, hs⟩ := hs
    exact inStep_self (hpeek _ hs)
  advance hs := by
    obtain ⟨rfl, hs⟩ := hs
    exact inStep_self (hadvance _ hs)

end Lockstep

/-- A change of items that leaves the kinds of tokens as they are, and the change of errors that
goes with it. -/
structure Relabelling where
  token : Token → Token
  item : Item → Item
  error : Error → Error
  kind_eq (t : Token) : (token t).kind = t.kind
  item_token (t : Token) : item (.token t) = .token (token t)
  item_stray (c : Char) (p : Nat) : ∃ c' p', item (.stray c p) = .stray c' p' ∧
    error (.strayCharacter c p) = .strayCharacter c' p'
  unexpected (expected : String) (t : Token) :
    error (.parsing (.unexpected expected t)) = .parsing (.unexpected expected (token t))

namespace Relabelling

variable (r : Relabelling)

/-- Cursors of which the second shows what the first one shows, changed. -/
def Shown (s s' : Cursor) : Prop :=
  ∃ mark u, s.Shows mark u ∧ s'.Shows (r.token mark) (u.map r.item)

/-- The next item is changed with the others. -/
theorem nextItem_map (mark : Token) (u : List Item) :
    nextItem (r.token mark) (u.map r.item) = r.item (nextItem mark u) := by
  cases u with
  | nil => exact (r.item_token mark).symm
  | cons item u => rfl

/-- A parser of tokens is in step on changed items when the next item decides what it does. -/
theorem inStep {p : Parser Token} {left : List Item → List Item}
    (htoken : ∀ {s : Cursor} {mark t : Token} {u : List Item}, s.Shows mark u →
      nextItem mark u = .token t → ∃ s', p s = .ok t s' ∧ s'.Shows mark (left u))
    (hstray : ∀ {s : Cursor} {mark : Token} {u : List Item} {c : Char} {q : Nat}, s.Shows mark u →
      nextItem mark u = .stray c q →
      ∃ s', p s = .error (.strayCharacter c q) s' ∧ s'.Shows mark u.tail)
    (hleft : ∀ u, left (u.map r.item) = (left u).map r.item) {s s' : Cursor} (h : r.Shown s s') :
    InStep r.Shown (fun e e' => e' = r.error e) (fun t t' => t' = r.token t) (p s) (p s') := by
  obtain ⟨mark, u, hs, hs'⟩ := h
  have hnext := r.nextItem_map mark u
  cases hitem : nextItem mark u with
  | token t =>
    rw [hitem, r.item_token] at hnext
    obtain ⟨s₁, hp, hshows⟩ := htoken hs hitem
    obtain ⟨s₁', hp', hshows'⟩ := htoken hs' hnext
    rw [hp, hp']
    exact .ok rfl ⟨mark, left u, hshows, hleft u ▸ hshows'⟩
  | stray c q =>
    obtain ⟨c', q', hstray', herror⟩ := r.item_stray c q
    rw [hitem, hstray'] at hnext
    obtain ⟨s₁, hp, hshows⟩ := hstray hs hitem
    obtain ⟨s₁', hp', hshows'⟩ := hstray hs' hnext
    rw [hp, hp']
    exact .error herror.symm ⟨mark, u.tail, hshows, List.map_tail ▸ hshows'⟩

/-- Cursors that show the same items up to a change are in lockstep. -/
def lockstep : Lockstep where
  cursors := r.Shown
  tokens t t' := t' = r.token t
  errors e e' := e' = r.error e
  kind_eq ht := ht ▸ r.kind_eq _
  unexpected expected ht := ht ▸ (r.unexpected expected _).symm
  peek := r.inStep Cursor.Shows.peek_token Cursor.Shows.peek_stray fun _ => rfl
  advance := r.inStep Cursor.Shows.advance_token Cursor.Shows.advance_stray fun _ =>
    List.map_tail.symm

end Relabelling

/-- What looking and advancing keep is kept by any calls. -/
theorem Parser.invariant_after {I : Cursor → Prop} {s : Cursor}
    (hpeek : ∀ s, I s → I (leave Cursor.peek s)) (hadvance : ∀ s, I s → I (leave Cursor.advance s))
    (hs : I s) (calls : List Parser.Call) : I (after calls s) :=
  ((Lockstep.ofInvariant hpeek hadvance).after ⟨rfl, hs⟩ calls).2

end Calculator
