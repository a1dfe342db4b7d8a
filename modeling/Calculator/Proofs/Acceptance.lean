import Calculator.Proofs.Expression
import Calculator.Proofs.WellFormed

/-!
# The sources of one expression

A source is accepted when an expression is read from its start and the end follows. The main
statement says that these are the sources whose items are the tokens of a sentence of the grammar,
and that the tree is the one of its derivation, which is the only one. `evaluate` then gives the
value of this tree; it gives nothing for a source of blanks, and an error for all other sources.
-/

namespace Calculator

/-- A parser at the start of a source reads a tree, and nothing follows it. -/
def Parser.Accepts (source : String) (e : Expr) : Prop :=
  ∃ s s', Parser.next (.ofString source) = .ok (some e) s ∧ Parser.expectEnd s = .ok () s'

variable {source : String}

/-- A cursor at the start of a source shows the items of the source. -/
theorem Cursor.shows_ofString (source : String) :
    (ofString source).Shows (Lexer.ofString source).endMark (Lexer.ofString source).items :=
  shows_ofLexer _

/-- A source has no items exactly when it is blank. -/
theorem Lexer.items_ofString_eq_nil :
    (Lexer.ofString source).items = [] ↔ ∀ c ∈ source.toList, isBlank c = true := by
  rw [show source.toList = (Lexer.ofString source).rest from rfl, ← next?_eq_none_iff]
  constructor
  · intro hitems
    cases hnext : (Lexer.ofString source).next? with
    | none => rfl
    | some found => simp [items_of_some hnext] at hitems
  · exact items_of_none

/-- The tokens that a source begins with are read by the lexer. -/
theorem Lexer.lexical_of_items {l : Lexer} {w : List Token} {r : List Item}
    (h : l.items = w.map .token ++ r) : ∀ t ∈ w, t.Lexical := by
  intro t ht
  have hmem : .token t ∈ l.items := by simp [h, ht]
  exact lexical_of_mem_items hmem

/-- A sentence of a source has a well-formed tree. -/
theorem Derivation.wellFormed_of_items {l : Lexer} (d : Sentence) {r : List Item}
    (h : l.items = d.yield.map .token ++ r) : Expr.WellFormed d.tree :=
  d.wellFormed (Lexer.lexical_of_items h)

/-- The tokens among items can be told from the items. -/
theorem Item.eq_of_map_token {ts ts' : List Token} (h : ts.map Item.token = ts'.map Item.token) :
    ts = ts' :=
  List.map_injective_iff.mpr (fun _ _ => Item.token.inj) h

/-- The items of an accepted source are the tokens of a sentence, and its tree is what is read. -/
theorem Parser.accepts_iff {e : Expr} :
    Accepts source e ↔
      ∃ d : Sentence, (Lexer.ofString source).items = d.yield.map .token ∧ d.tree = e := by
  have hs := Cursor.shows_ofString source
  constructor
  · intro h
    obtain ⟨s, s', hnext, hend⟩ := h
    have hout := next_outcome hs
    rw [hnext] at hout
    cases hout with
    | @sentence _ d r hu hfollows hshows =>
      cases r with
      | nil => exact ⟨d, by simpa using hu, rfl⟩
      | cons item r =>
        obtain ⟨s₂, r', herror, -, -⟩ := expectEnd_cons hshows
        simp [herror] at hend
  · intro h
    obtain ⟨d, hitems, rfl⟩ := h
    rw [hitems, ← List.append_nil (d.yield.map Item.token)] at hs
    obtain ⟨s, hnext, hshows⟩ := next_of_sentence hs (by simp [Follows])
    obtain ⟨s', hend, -⟩ := expectEnd_nil hshows
    exact ⟨s, s', hnext, hend⟩

/-- Evaluating a source is reading a value and then the end. -/
theorem evaluate_eq (source : String) :
    evaluate source =
      match Parser.nextValue (.ofString source) with
      | .error e _ => .error e
      | .ok x s =>
        match Parser.expectEnd s with
        | .ok _ _ => .ok x
        | .error e _ => .error e := by
  simp only [evaluate, Parser.onSource, bind, EStateM.bind]
  cases Parser.nextValue (.ofString source) with
  | error e s => rfl
  | ok x s =>
    simp only
    cases Parser.expectEnd s <;> rfl

/-- A source of one sentence evaluates to the value of its tree. -/
theorem evaluate_of_sentence {d : Sentence}
    (h : (Lexer.ofString source).items = d.yield.map .token) :
    ∃ x, Expr.value d.tree = .ok x ∧ evaluate source = .ok (some x) := by
  obtain ⟨s, s', hnext, hend⟩ := Parser.accepts_iff.mpr ⟨d, h, rfl⟩
  obtain ⟨x, hx⟩ := (d.wellFormed_of_items (h.trans (List.append_nil _).symm)).exists_value
  refine ⟨x, hx, ?_⟩
  simp only [evaluate_eq, Parser.nextValue_eq, hnext, hx, hend]

/-- A source without items evaluates to nothing. -/
theorem evaluate_of_nil (h : (Lexer.ofString source).items = []) :
    evaluate source = .ok none := by
  have hs := Cursor.shows_ofString source
  rw [h] at hs
  obtain ⟨s, hnext, hshows⟩ := Parser.next_nil hs
  obtain ⟨s', hend, -⟩ := Parser.expectEnd_nil hshows
  simp only [evaluate_eq, Parser.nextValue_eq, hnext, hend]

/-- A source that is neither blank nor a sentence evaluates to an error. -/
theorem evaluate_of_other (hsome : (Lexer.ofString source).items ≠ [])
    (hnone : ¬ ∃ d : Sentence, (Lexer.ofString source).items = d.yield.map .token) :
    ∃ e, evaluate source = .error e := by
  have hout := Parser.next_outcome (Cursor.shows_ofString source)
  rw [evaluate_eq, Parser.nextValue_eq]
  generalize Parser.next (.ofString source) = x at hout
  cases hout with
  | nothing hu => exact absurd hu hsome
  | @sentence s d r hu hfollows hshows =>
    obtain ⟨x, hx⟩ := (d.wellFormed_of_items hu).exists_value
    cases r with
    | nil => exact absurd ⟨d, by simpa using hu⟩ hnone
    | cons item r =>
      obtain ⟨s', r', hend, -, -⟩ := Parser.expectEnd_cons hshows
      exact ⟨item.unexpected Parser.inputEnd, by simp only [hx, hend]⟩
  | fault => exact ⟨_, rfl⟩

/-- A source is accepted with a tree exactly when it is made of the tokens of a sentence whose
derivation has that tree, and a sentence has one derivation. Evaluating a source gives the value of
the tree it is accepted with, nothing when the source is blank, and otherwise an error. -/
theorem accepts_iff_derivation (source : String) :
    (∀ e, Parser.Accepts source e ↔
      ∃ ts : List Token, (Lexer.ofString source).items = ts.map .token ∧
        ∃ d : Sentence, d.yield = ts ∧ d.tree = e) ∧
    Function.Injective (Derivation.yield : Sentence → List Token) ∧
    (∀ x, evaluate source = .ok (some x) ↔
      ∃ e, Parser.Accepts source e ∧ e.value = .ok x) ∧
    ((∃ x, evaluate source = .ok (some x)) ↔ ∃ e, Parser.Accepts source e) ∧
    (evaluate source = .ok none ↔ ∀ c ∈ source.toList, isBlank c = true) ∧
    ((∃ error, evaluate source = .error error) ↔
      (¬ ∃ e, Parser.Accepts source e) ∧ ¬ ∀ c ∈ source.toList, isBlank c = true) := by
  have haccepts (e : Expr) : Parser.Accepts source e ↔
      ∃ ts : List Token, (Lexer.ofString source).items = ts.map .token ∧
        ∃ d : Sentence, d.yield = ts ∧ d.tree = e := by
    rw [Parser.accepts_iff]
    constructor
    · intro h
      obtain ⟨d, hitems, htree⟩ := h
      exact ⟨d.yield, hitems, d, rfl, htree⟩
    · intro h
      obtain ⟨ts, hitems, d, rfl, htree⟩ := h
      exact ⟨d, hitems, htree⟩
  refine ⟨haccepts, fun d d' => Derivation.yield_injective, ?_⟩
  rw [← Lexer.items_ofString_eq_nil]
  -- a source is blank, a sentence, or neither; each clause is read off its case
  by_cases hnil : (Lexer.ofString source).items = []
  · have hvalue := evaluate_of_nil hnil
    have hnone (e : Expr) : ¬ Parser.Accepts source e := by
      rw [Parser.accepts_iff]
      intro h
      obtain ⟨d, hitems, -⟩ := h
      have hyield := d.yield_ne_nil (by simp) (by simp)
      simp [hnil, hyield] at hitems
    simp [hvalue, hnil, hnone]
  · by_cases hsentence : ∃ d : Sentence, (Lexer.ofString source).items = d.yield.map .token
    · obtain ⟨d, hitems⟩ := hsentence
      obtain ⟨x, hx, hvalue⟩ := evaluate_of_sentence hitems
      have hsome : Parser.Accepts source d.tree := Parser.accepts_iff.mpr ⟨d, hitems, rfl⟩
      have hunique (e : Expr) : Parser.Accepts source e ↔ e = d.tree := by
        refine ⟨fun he => ?_, fun he => he ▸ hsome⟩
        obtain ⟨d', hitems', rfl⟩ := Parser.accepts_iff.mp he
        have hyield := Item.eq_of_map_token (hitems'.symm.trans hitems)
        exact congrArg Derivation.tree (Derivation.yield_injective hyield)
      simp [hvalue, hnil, hunique, hx]
    · obtain ⟨error, hvalue⟩ := evaluate_of_other hnil hsentence
      have hnone (e : Expr) : ¬ Parser.Accepts source e := by
        rw [Parser.accepts_iff]
        intro h
        obtain ⟨d, hitems, -⟩ := h
        exact hsentence ⟨d, hitems⟩
      simp [hvalue, hnil, hnone]

end Calculator
