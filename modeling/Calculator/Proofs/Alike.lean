import Calculator.Proofs.Placement
import Calculator.Proofs.Results

/-!
# Texts that read alike

Two lists of items are alike when they differ in two ways only. Their items may stand at other
places, as a map of positions says; and where one has a group the other may have another group, if
the trees of the two are related. Any relation will do that every node of a tree carries from the
operands to the whole.

A phrase at the start of one list has a phrase of the same nonterminal at the start of the other,
with a related tree, whatever stands around it. A scan that stops in one stops in the other at the
item in the same place. So an evaluation of alike texts goes alike to its end or to its error.
-/

namespace Calculator

/-- Two lists of items with the same items up to their positions and up to groups that have
related trees. -/
inductive Alike (f : Nat → Nat) (R : Expr → Expr → Prop) : List Item → List Item → Prop
  | nil : Alike f R [] []
  | item (item : Item) {u u' : List Item} (later : Alike f R u u') :
      Alike f R (item :: u) (item.move f :: u')
  | group (opening : Token) (hopening : opening.kind = .openParen) {d d' : Sentence}
      (related : R d.tree d'.tree) {closing closing' : Token}
      (hclosing : closing.kind = .closeParen) (hclosing' : closing'.kind = .closeParen)
      {u u' : List Item} (later : Alike f R u u') :
      Alike f R (.token opening :: (d.yield.map .token ++ .token closing :: u))
        (.token (opening.move f) :: (d'.yield.map .token ++ .token closing' :: u'))

/-- A relation between trees, said of what phrases stand for; the ends of repetitions keep it. -/
def Nonterminal.Relates (R : Expr → Expr → Prop) : (n : Nonterminal) → n.Meaning → n.Meaning → Prop
  | .products, g, g' | .factors, g, g' => ∀ left left', R left left' → R (g left) (g' left')
  | .sum, e, e' | .product, e, e' | .signed, e, e' | .power, e, e' | .atom, e, e' => R e e'

variable {f : Nat → Nat} {R : Expr → Expr → Prop} {u u' r : List Item} {t mark : Token}

/-- After a closing parenthesis that was never opened no scan can go on. -/
theorem Scan.stuck_closeParen (ht : t.kind = .closeParen) : done.Stuck (.token t :: u) := by
  intro t' u' heq
  obtain ⟨rfl, -⟩ : t = t' ∧ u = u' := by simpa using heq
  rw [ht]
  rfl

/-- A group that may be opened takes a scan to a state that does not depend on what is inside. -/
theorem Scan.exists_run_group {q q₁ : Scan} (h : q.step .openParen = some q₁) :
    ∃ q₂, ∀ (d : Sentence) {closing : Token}, closing.kind = .closeParen →
      q₁.run (d.yield ++ [closing]) = some q₂ := by
  obtain ⟨m, depth⟩ := q
  obtain rfl : q₁ = ⟨.operand, depth + 1⟩ := by cases m <;> simp_all [step]
  refine ⟨⟨.continuation, depth⟩, fun d closing hclosing => ?_⟩
  simp [run_append, d.run_yield .operand rfl, hclosing, step_closeParen]

namespace Alike

/-- Texts that are alike go on alike after texts that only moved. -/
theorem append (u₀ : List Item) (h : Alike f R u u') :
    Alike f R (u₀ ++ u) (u₀.map (Item.move f) ++ u') := by
  induction u₀ with
  | nil => exact h
  | cons item u₀ ih => exact .item item ih

/-- A text and the same text moved are alike. -/
theorem move (u : List Item) : Alike f R u (u.map (Item.move f)) := by
  simpa using append u (.nil : Alike f R [] [])

/-- The next item is the same but for its place. -/
theorem nextItem_eq (h : Alike f R u u') :
    nextItem (mark.move f) u' = (nextItem mark u).move f := by
  cases h <;> rfl

/-- A text is empty when one like it is. -/
theorem nil_iff (h : Alike f R u u') : u' = [] ↔ u = [] := by
  cases h <;> simp

/-- A token that opens no group is matched by itself. -/
theorem cons_token (h : Alike f R (.token t :: u) u') (ht : t.kind ≠ .openParen) :
    ∃ u₁, u' = .token (t.move f) :: u₁ ∧ Alike f R u u₁ := by
  cases h with
  | item _ later => exact ⟨_, rfl, later⟩
  | group _ hopening => exact absurd hopening ht

/-- What may follow an expression is matched by what may follow one. -/
theorem follows (h : Alike f R u u') (hu : Follows u) : Follows u' := by
  cases h with
  | nil => exact hu
  | item item later =>
    obtain ⟨t, rfl, ht⟩ := hu item (by simp)
    simpa [Follows, Item.move] using ht
  | group opening hopening => simp [Follows, hopening, Token.Kind.startsOperand]

/-- An operator is matched by itself. -/
theorem operator {w : List Token} (ht : t.kind.isOperator = true)
    (h : Alike f R ((t :: w).map .token ++ r) u') :
    ∃ u₁, u' = .token (t.move f) :: u₁ ∧ Alike f R (w.map .token ++ r) u₁ :=
  h.cons_token fun hkind => by simp [hkind, Token.Kind.isOperator] at ht

/-- A phrase that is matched, in any text like one that begins with it, by a phrase of the same
nonterminal with a related tree. -/
def Matched (f : Nat → Nat) (R : Expr → Expr → Prop) {n : Nonterminal} (d : Derivation n) : Prop :=
  ∀ ⦃r u' : List Item⦄, Alike f R (d.yield.map .token ++ r) u' →
    ∃ (d' : Derivation n) (r' : List Item), u' = d'.yield.map .token ++ r' ∧ Alike f R r r' ∧
      n.Relates R d.tree d'.tree

/-- Two phrases after one another are matched when each of them is. -/
theorem Matched.pair {k n : Nonterminal} {first : Derivation k} {later : Derivation n}
    (hfirst : Matched f R first) (hlater : Matched f R later)
    (h : Alike f R ((first.yield ++ later.yield).map .token ++ r) u') :
    ∃ (first' : Derivation k) (later' : Derivation n) (r' : List Item),
      u' = (first'.yield ++ later'.yield).map .token ++ r' ∧ Alike f R r r' ∧
      k.Relates R first.tree first'.tree ∧ n.Relates R later.tree later'.tree := by
  rw [List.map_append, List.append_assoc] at h
  obtain ⟨first', u₁, rfl, hrest, hfirst⟩ := hfirst h
  obtain ⟨later', r', rfl, hrest, hlater⟩ := hlater hrest
  exact ⟨first', later', r', by simp, hrest, hfirst, hlater⟩

/-- A line that ends with a chain is matched when its parts are. -/
theorem Matched.line {k n whole : Nonterminal}
    {build : Derivation k → Derivation n → Derivation whole} {first : Derivation k}
    {later : Derivation n}
    (hyield : ∀ first later, (build first later).yield = first.yield ++ later.yield)
    (hrelates : ∀ first' later', k.Relates R first.tree first'.tree →
      n.Relates R later.tree later'.tree →
      whole.Relates R (build first later).tree (build first' later').tree)
    (hfirst : Matched f R first) (hlater : Matched f R later) :
    Matched f R (build first later) := by
  intro r u' h
  rw [hyield] at h
  obtain ⟨first', later', r', rfl, hrest, hfirst, hlater⟩ := hfirst.pair hlater h
  exact ⟨build first' later', r', by rw [hyield], hrest, hrelates _ _ hfirst hlater⟩

/-- One more operand of a chain is matched when it and the later ones are. -/
theorem Matched.add {k n : Nonterminal} (chain : Chain k n) {op : Token}
    (hop : chain.joins op.kind = true) (hoperator : op.kind.isOperator = true)
    {next : Derivation k} {later : Derivation n}
    (hrelates : ∀ next' later', k.Relates R next.tree next'.tree →
      n.Relates R later.tree later'.tree →
      n.Relates R (chain.add op hop next later).tree (chain.add (op.move f) hop next' later').tree)
    (hnext : Matched f R next) (hlater : Matched f R later) :
    Matched f R (chain.add op hop next later) := by
  intro r u' h
  rw [chain.yield_add] at h
  obtain ⟨u₁, rfl, hoperands⟩ := h.operator hoperator
  obtain ⟨next', later', r', rfl, hrest, hnext, hlater⟩ := hnext.pair hlater hoperands
  have hyield := chain.yield_add (op.move f) hop next' later'
  exact ⟨_, r', congrArg (·.map Item.token ++ r') hyield.symm, hrest, hrelates _ _ hnext hlater⟩

/-- A group is matched by a group: the same one when what is inside is matched there, or the one
that stands in its place. -/
theorem Matched.group {opening closing : Token} {inner : Sentence} (hinner : Matched f R inner)
    (hopening : opening.kind = .openParen) (hclosing : closing.kind = .closeParen) :
    Matched f R (.group opening hopening inner closing hclosing) := by
  intro r u' h
  simp only [Derivation.yield, List.map_cons, List.map_append, List.map_nil, List.cons_append,
    List.append_assoc, List.nil_append] at h
  generalize hlater : inner.yield.map Item.token ++ .token closing :: r = later at h
  cases h with
  | item _ hinside =>
    obtain ⟨inner', u₁, rfl, hclose, hrelated⟩ := hinner (hlater ▸ hinside)
    obtain ⟨r', rfl, hrest⟩ := hclose.cons_token (by simp [hclosing])
    exact ⟨.group (opening.move f) hopening inner' (closing.move f) hclosing, r',
      by simp [Derivation.yield, Item.move], hrest, hrelated⟩
  | @group _ _ d d' related closing₁ closing' hclosing₁ hclosing' v v' hrest =>
    -- both sentences end where the group that was opened is closed
    obtain ⟨hyield, hsame, -⟩ := Scan.run_unique hlater inner.run_sentence d.run_sentence
      (Scan.stuck_closeParen hclosing) (Scan.stuck_closeParen hclosing₁)
    obtain rfl := Derivation.yield_injective hyield
    obtain ⟨rfl, rfl⟩ : closing = closing₁ ∧ r = v := by simpa using hsame
    exact ⟨.group (opening.move f) hopening d' closing' hclosing', v',
      by simp [Derivation.yield], hrest, related⟩

/-- Every phrase is matched, if the relation is carried from operands to trees. -/
theorem matched (hR : Expr.Congruent f R) {n : Nonterminal} (d : Derivation n) : Matched f R d := by
  induction d with
  | noProducts => exact fun r u' h => ⟨.noProducts, u', rfl, h, fun _ _ hleft => hleft⟩
  | noFactors => exact fun r u' h => ⟨.noFactors, u', rfl, h, fun _ _ hleft => hleft⟩
  | group opening hopening inner closing hclosing ih => exact ih.group hopening hclosing
  | sum first more ihFirst ihMore | product first more ihFirst ihMore =>
    exact .line (fun _ _ => rfl) (fun _ _ hfirst hmore => hmore _ _ hfirst) ihFirst ihMore
  | addProduct op hop next more ihNext ihMore =>
    exact .add .products hop (Token.Kind.isOperator_of_isAdditive hop)
      (fun _ _ hright hmore _ _ hleft => hmore _ _ (hR.binary op hleft hright)) ihNext ihMore
  | addFactor op hop next more ihNext ihMore =>
    exact .add .factors hop (Token.Kind.isOperator_of_isMultiplicative hop)
      (fun _ _ hright hmore _ _ hleft => hmore _ _ (hR.binary op hleft hright)) ihNext ihMore
  | unsigned operand ih =>
    intro r u' h
    obtain ⟨operand', r', rfl, hrest, hoperand⟩ := ih h
    exact ⟨.unsigned operand', r', rfl, hrest, hoperand⟩
  | signed sign hsign operand ih =>
    intro r u' h
    obtain ⟨u₁, rfl, hlater⟩ := h.operator (Token.Kind.isOperator_of_isAdditive hsign)
    obtain ⟨operand', r', rfl, hrest, hoperand⟩ := ih hlater
    exact ⟨.signed (sign.move f) hsign operand', r', rfl, hrest, hR.signed sign hoperand⟩
  | bare base ih =>
    intro r u' h
    obtain ⟨base', r', rfl, hrest, hbase⟩ := ih h
    exact ⟨.bare base', r', rfl, hrest, hbase⟩
  | raised base op hop exponent ihBase ihExponent =>
    intro r u' h
    rw [Derivation.yield, List.map_append, List.append_assoc] at h
    obtain ⟨base', u₁, rfl, hpower, hbase⟩ := ihBase h
    obtain ⟨u₂, rfl, hlater⟩ := hpower.operator (Token.Kind.isOperator_of_isPower hop)
    obtain ⟨exponent', r', rfl, hrest, hexponent⟩ := ihExponent hlater
    exact ⟨.raised base' (op.move f) hop exponent', r', by simp [Derivation.yield], hrest,
      hR.binary op hbase hexponent⟩
  | literal t ht =>
    intro r u' h
    obtain ⟨r', rfl, hrest⟩ := h.cons_token fun hkind => by simp [hkind, Token.Kind.isLiteral] at ht
    exact ⟨.literal (t.move f) ht, r', rfl, hrest, hR.leaf t⟩

/-- A scan that is stuck in a text is stuck at the same place in a text like it. -/
theorem scan {q stop : Scan} {w : List Token} (h : Alike f R u u') (hu : u = w.map .token ++ r)
    (hrun : q.run w = some stop) (hstuck : stop.Stuck r) :
    ∃ (w' : List Token) (r' : List Item), u' = w'.map .token ++ r' ∧ q.run w' = some stop ∧
      Alike f R r r' := by
  induction h generalizing q w with
  | nil =>
    obtain ⟨rfl, rfl⟩ : w = [] ∧ r = [] := by simpa using hu.symm
    exact ⟨[], [], rfl, hrun, .nil⟩
  | item item later ih =>
    cases w with
    | nil =>
      obtain rfl : _ = r := hu
      exact ⟨[], _, rfl, hrun, .item item later⟩
    | cons t w =>
      obtain ⟨rfl, rfl⟩ : item = .token t ∧ _ = w.map Item.token ++ r := by simpa using hu
      obtain ⟨q', hstep, hrun⟩ := Option.bind_eq_some_iff.mp ((Scan.run_cons t).symm.trans hrun)
      obtain ⟨w', r', rfl, hrun', h⟩ := ih rfl hrun
      exact ⟨t.move f :: w', r', rfl, by simp [hstep, hrun'], h⟩
  | @group opening hopening d d' related closing closing' hclosing hclosing' v v' later ih =>
    cases w with
    | nil =>
      obtain rfl : _ = r := hu
      exact ⟨[], _, rfl, hrun, .group opening hopening related hclosing hclosing' later⟩
    | cons t w =>
      simp only [List.map_cons, List.cons_append, List.cons.injEq, Item.token.injEq] at hu
      obtain ⟨rfl, hu⟩ := hu
      obtain ⟨q₁, hstep, hrun⟩ :=
        Option.bind_eq_some_iff.mp ((Scan.run_cons opening).symm.trans hrun)
      rw [hopening] at hstep
      obtain ⟨q₂, hgroup⟩ := Scan.exists_run_group hstep
      -- the scan comes by the end of the group, and from there the induction takes it on
      have hthrough : w.map Item.token ++ r = (d.yield ++ [closing]).map Item.token ++ v := by
        rw [← hu]
        simp
      obtain ⟨w₂, -, rfl, hrun₂⟩ := Scan.run_through hthrough hrun hstuck (hgroup d hclosing)
      obtain ⟨w', r', rfl, hrun', h⟩ := ih rfl hrun₂
      refine ⟨opening.move f :: ((d'.yield ++ [closing']) ++ w'), r', by simp, ?_, h⟩
      rw [Scan.run_cons, Token.move_kind, hopening, hstep, Option.bind_some, Scan.run_append,
        hgroup d' hclosing', Option.bind_some, hrun']

end Alike

/-- An item is refused wherever it stands, and the error moves with it. -/
theorem Scan.fault?_move (q : Scan) (item : Item) :
    q.fault? (item.move f) = (q.fault? item).map (Error.move f) := by
  cases item with
  | stray c p => rfl
  | token t =>
    simp only [Item.move, fault?, Token.move_kind]
    by_cases hstep : (q.step t.kind).isSome = true
    · simp [hstep]
    · simp [hstep, Function.comp_def, Error.move_unexpected]

/-- The ways in which reading the next expression ends alike in two texts; `u` is the first one. -/
inductive NextAlike (f : Nat → Nat) (R : Expr → Expr → Prop) (mark : Token) (u : List Item) :
    EStateM.Result Error Cursor (Option Expr) → EStateM.Result Error Cursor (Option Expr) → Prop
  | nothing {s s' : Cursor} : NextAlike f R mark u (.ok none s) (.ok none s')
  | expression {e e' : Expr} {s s' : Cursor} {r r' : List Item} (related : R e e')
      (later : Alike f R r r') (shorter : r.length < u.length) (hs : s.Shows mark r)
      (hs' : s'.Shows (mark.move f) r') : NextAlike f R mark u (.ok (some e) s) (.ok (some e') s')
  | error {e : Error} {s s' : Cursor} : NextAlike f R mark u (.error e s) (.error (e.move f) s')

variable {s s' : Cursor}

/-- Reading the next expression ends alike in texts that are alike. -/
theorem Parser.next_alike (hR : Expr.Congruent f R) (h : Alike f R u u') (hs : s.Shows mark u)
    (hs' : s'.Shows (mark.move f) u') : NextAlike f R mark u (Parser.next s) (Parser.next s') := by
  have hout := Parser.next_outcome hs
  generalize Parser.next s = x at hout
  cases hout with
  | nothing hu =>
    obtain rfl := h.nil_iff.mpr hu
    obtain ⟨s₁', hnext', -⟩ := next_nil hs'
    rw [hnext']
    exact .nothing
  | @sentence s₁ d r hu hfollows hshows =>
    subst hu
    obtain ⟨d', r', rfl, hlater, hrelated⟩ := Alike.matched hR d h
    obtain ⟨s₁', hnext', hshows'⟩ := next_of_sentence hs' (hlater.follows hfollows)
    have hpos := List.length_pos_iff.mpr (d.yield_ne_nil (by simp) (by simp))
    rw [hnext']
    exact .expression hrelated hlater (by simp [hpos]) hshows hshows'
  | @fault s₁ e w r r₁ hu hsome hfault hleft hshows =>
    obtain ⟨stop, hrun, hstop⟩ := hfault.stops
    obtain ⟨w', r', rfl, hrun', hlater⟩ := h.scan hu hrun (Scan.stuck_of_fault hstop)
    have hstop' : stop.fault? (nextItem (mark.move f) r') = some (e.move f) := by
      rw [hlater.nextItem_eq, Scan.fault?_move, hstop]
      rfl
    obtain ⟨s₁', hnext'⟩ := next_of_stop hs' (mt h.nil_iff.mp hsome) hrun' hstop'
    rw [hnext']
    exact .error

/-- Evaluations of texts that are alike give the same values, and the same error moved. -/
theorem Evaluation.results_alike (hR : Expr.Congruent f R)
    (hvalue : ∀ e e', R e e' → e'.value = e.value) {u u' : List Item} {s s' : Cursor}
    (h : Alike f R u u') (hs : s.Shows mark u) (hs' : s'.Shows (mark.move f) u') :
    (ofCursor s').results = (ofCursor s).results.map (Except.mapError (Error.move f)) := by
  have hread := Parser.next_alike hR h hs hs'
  rw [results_eq, results_eq, Parser.nextValue_eq, Parser.nextValue_eq]
  generalize Parser.next s = x at hread
  generalize Parser.next s' = x' at hread
  cases hread with
  | nothing => rfl
  | @expression e e' s₁ s₁' r r' related later shorter hs₁ hs₁' =>
    have hlater := results_alike hR hvalue later hs₁ hs₁'
    simp only [hvalue e e' related]
    cases e.value with
    | error error => rfl
    | ok x => simp [hlater, Except.mapError]
  | error => rfl
termination_by u.length

/-- Evaluations of a text at two places give the same values, and the same error moved. -/
theorem Evaluation.results_moved (hs : s.Shows mark u)
    (hs' : s'.Shows (mark.move f) (u.map (Item.move f))) :
    (ofCursor s').results = (ofCursor s).results.map (Except.mapError (Error.move f)) :=
  results_alike (Expr.congruent_value f) (fun _ _ hsame => hsame) (.move u) hs hs'

/-- Collecting values goes on past a change of the error. -/
theorem mapM_mapError (g : Error → Error) (xs : List (Except Error Float)) :
    (xs.map (Except.mapError g)).mapM id = (xs.mapM id).mapError g := by
  induction xs with
  | nil => rfl
  | cons x xs ih =>
    cases x with
    | error e => rfl
    | ok x =>
      simp only [List.map_cons, List.mapM_cons, ih, id, Except.mapError]
      cases xs.mapM id <;> rfl

/-- Sources whose items are alike evaluate to the same values or to the same error moved. -/
theorem evaluateAll_alike {source source' : String} (hR : Expr.Congruent f R)
    (hvalue : ∀ e e', R e e' → e'.value = e.value)
    (h : Alike f R (Lexer.ofString source).items (Lexer.ofString source').items)
    (hmark : (Lexer.ofString source').endMark = (Lexer.ofString source).endMark.move f) :
    evaluateAll source' = (evaluateAll source).mapError (Error.move f) := by
  have hs' := Cursor.shows_ofString source'
  rw [hmark] at hs'
  rw [evaluateAll, evaluateAll, ← mapM_mapError]
  exact congrArg (List.mapM id)
    (Evaluation.results_alike hR hvalue h (Cursor.shows_ofString source) hs')

/-- Sources with the same items at other places evaluate to the same values or to the same error
moved. -/
theorem evaluateAll_moved {source source' : String}
    (hitems : (Lexer.ofString source').items = (Lexer.ofString source).items.map (Item.move f))
    (hmark : (Lexer.ofString source').endMark = (Lexer.ofString source).endMark.move f) :
    evaluateAll source' = (evaluateAll source).mapError (Error.move f) :=
  evaluateAll_alike (Expr.congruent_value f) (fun _ _ hsame => hsame) (hitems ▸ .move _) hmark

end Calculator
