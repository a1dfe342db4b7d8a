import Calculator.Proofs.Locality
import Calculator.Proofs.Results

/-!
# Errors at the earliest place

The error of a source names one item, and it could not have named an earlier one: the items before
it are tokens with which some sequence of sentences begins. Nor should it have named a later one:
with that item added no sequence of sentences begins so. When the end is at fault, the tokens of the
source are no sequence of sentences.

What an evaluation gives up to the item at fault does not depend on what comes after it. A text that
agrees with the source through this item, and then ends or goes on with a blank, gives the same
values and the same error.
-/

namespace Calculator

variable {mark : Token} {ds : List Sentence} {w ts : List Token} {r : List Item} {e : Error}

/-- A sequence of sentences does not have an item at fault. -/
theorem Fault.not_yields (hfault : Fault w (nextItem mark r) e)
    (hmark : mark.kind = .endOfInput) (hparted : Parted ds (w.map .token ++ r))
    (hsome : w.map .token ++ r ≠ []) (ds' : List Sentence) :
    (yields ds').map Item.token ≠ (yields ds).map .token ++ (w.map .token ++ r) := by
  obtain ⟨stop, hrun, hstop⟩ := hfault.stops
  obtain ⟨ds'', hseparated, hsame⟩ := exists_separated ds'
  intro hyields
  rw [← hsame] at hyields
  obtain ⟨rfl, hfollows⟩ :=
    hseparated.stuck hparted hyields hsome hrun (Scan.stuck_of_fault hstop)
  simp [hfollows.fault? hmark] at hstop

/-- What an error says of the item after the tokens `ts` of a source: it gives a stray character
and its place; or it gives a token with which no sequence of sentences goes on; or it gives the
place of the end when the tokens are no sequence of sentences. -/
def Error.Names (source : String) (ts : List Token) (e : Error) : Option Item → Prop
  | some (.stray c p) => e = .strayCharacter c p
  | some (.token t) =>
    (∀ ds, ¬ ts ++ [t] <+: yields ds) ∧ ∃ expected, e = .parsing (.unexpectedToken expected t)
  | none =>
    (∀ ds, yields ds ≠ ts) ∧
      ∃ expected, e = .parsing (.unexpectedEnd expected source.utf8ByteSize)

/-- A text agrees with a source through the first items of the source, and then it ends or goes on
with a blank. -/
def AgreesThrough (n : Nat) (source source' : String) : Prop :=
  ∃ front tail : List Char,
    source.toList = front ++ ((Lexer.ofString source).passing n).rest ∧
      source'.toList = front ++ tail ∧ ∀ c ∈ tail.head?, isBlank c = true

/-- The error of an item at fault names this item. -/
theorem Fault.names {source : String}
    (hfault : Fault w (nextItem (Lexer.ofString source).endMark r) e)
    (hitems : (Lexer.ofString source).items = (yields ds).map .token ++ (w.map .token ++ r))
    (hparted : Parted ds (w.map .token ++ r)) (hsome : w.map .token ++ r ≠ []) :
    e.Names source (yields ds ++ w) r.head? := by
  obtain ⟨stop, -, hstop⟩ := hfault.stops
  have hexpected {t : Token} (ht : stop.fault? (.token t) = some e) :
      ∃ expected, e = .parsing (.unexpected expected t) := by
    simp only [Scan.fault?] at ht
    split at ht
    · simp at ht
    · simp only [Option.map_eq_some_iff] at ht
      obtain ⟨expected, -, rfl⟩ := ht
      exact ⟨expected, rfl⟩
  have hmark := (Cursor.shows_ofString source).mark_kind
  have hnot := hfault.not_yields hmark hparted hsome
  cases r with
  | nil =>
    obtain ⟨expected, he⟩ := hexpected hstop
    rw [Lexer.endMark_ofString] at he
    refine ⟨fun ds' hyields => hnot ds' (by simp [hyields]), expected, he⟩
  | cons item r =>
    cases item with
    | stray c p =>
      have herror : e = .strayCharacter c p := by simpa [nextItem, Scan.fault?, eq_comm] using hstop
      exact herror
    | token t =>
      obtain ⟨expected, he⟩ := hexpected hstop
      have hmem : .token t ∈ (Lexer.ofString source).items := by simp [hitems]
      have hkind := Lexer.kind_ne_endOfInput hmem
      refine ⟨?_, expected, by rw [he, SyntaxError.unexpected, if_neg hkind]⟩
      intro ds' h
      obtain ⟨v, hv⟩ := h
      -- the item at fault stays at fault when other tokens come after it
      have hfault' :
          Fault w (nextItem (Lexer.ofString source).endMark (.token t :: v.map .token)) e :=
        hfault
      have hparted' : Parted ds (w.map .token ++ .token t :: v.map .token) :=
        hparted.of_head (by cases w <;> rfl)
      exact hfault'.not_yields hmark hparted' (by simp) ds' (by simp [← hv])

/-- A text that agrees with a source through its first items has the same first items. -/
theorem AgreesThrough.items {n : Nat} {source source' : String}
    (h : AgreesThrough n source source') (hn : n ≤ (Lexer.ofString source).items.length) :
    ∃ r', (Lexer.ofString source').items = (Lexer.ofString source).items.take n ++ r' := by
  obtain ⟨front, tail, hsource, hsource', htail⟩ := h
  obtain ⟨front', hrest, hcut⟩ := Lexer.items_cut n (Lexer.ofString source) hn
  obtain rfl : front = front' := List.append_cancel_right (hsource.symm.trans hrest)
  have hlexer : Lexer.ofString source' = ⟨front ++ tail, (Lexer.ofString source).position⟩ := by
    simp [Lexer.ofString, hsource']
  exact ⟨_, hlexer ▸ hcut tail fun c hc => endsLexeme_of_isBlank (htail c hc)⟩

/-- What comes before an item at fault, and the error, do not depend on what comes after it. -/
theorem Fault.results_eq {source source' : String} {item : Item} {xs : List Float}
    (hfault : Fault w item e)
    (hitems : (Lexer.ofString source).items = (yields ds).map .token ++ (w.map .token ++ item :: r))
    (hparted : Parted ds (w.map .token ++ item :: r))
    (hvalues : ds.map (fun d => Expr.value d.tree) = xs.map .ok)
    (h : AgreesThrough ((yields ds ++ w).length + 1) source source') :
    (Evaluation.ofString source').results = xs.map .ok ++ [.error e] := by
  have hlength : (yields ds ++ w).length + 1 ≤ (Lexer.ofString source).items.length := by
    simp only [hitems, List.length_append, List.length_map, List.length_cons]
    omega
  obtain ⟨r', hitems'⟩ := h.items hlength
  have hbefore : (Lexer.ofString source).items.take ((yields ds ++ w).length + 1) =
      (yields ds).map .token ++ (w.map .token ++ [item]) := by
    have hsplit : (Lexer.ofString source).items =
        ((yields ds).map .token ++ (w.map .token ++ [item])) ++ r := by simp [hitems]
    rw [hsplit]
    exact List.take_left' (by simp; omega)
  rw [hbefore] at hitems'
  have hsplit' : (Lexer.ofString source').items =
      (yields ds).map .token ++ (w.map .token ++ item :: r') := by simp [hitems']
  have hparted' : Parted ds (w.map .token ++ item :: r') :=
    hparted.of_head (by cases w <;> rfl)
  exact Evaluation.results_of_items hsplit' hparted' (by simp) hfault hvalues

/-- An error of a source names one of its items or its end. The items before it are tokens that
begin some sequence of sentences, and every text that agrees with the source through the item has
the same values and the same error. -/
theorem evaluateAll_error_earliest (source : String) (e : Error)
    (h : evaluateAll source = .error e) :
    ∃ (k : Nat) (ts : List Token) (xs : List Float),
      k ≤ (Lexer.ofString source).items.length ∧
      (Lexer.ofString source).items.take k = ts.map .token ∧
      (∃ ds, ts <+: yields ds) ∧
      e.Names source ts (Lexer.ofString source).items[k]? ∧
      (Evaluation.ofString source).results = xs.map .ok ++ [.error e] ∧
      (k < (Lexer.ofString source).items.length →
        ∀ source', AgreesThrough (k + 1) source source' →
          (Evaluation.ofString source').results = xs.map .ok ++ [.error e]) := by
  rcases split_cases source with
    ⟨ds, hds, hitems⟩ | ⟨ds, w, r, e', xs, hitems, hparted, hsome, hfault, hvalues⟩
  · obtain ⟨xs, hvalues⟩ := exists_values_of_items (hitems.trans (List.append_nil _).symm)
    rw [evaluateAll_of_separated hds hitems hvalues] at h
    contradiction
  · have hresults := Evaluation.results_of_items hitems hparted hsome hfault hvalues
    rw [evaluateAll, hresults, mapM_error] at h
    obtain rfl : e' = e := Except.error.inj h
    have hsplit : (Lexer.ofString source).items = (yields ds ++ w).map .token ++ r := by
      simp [hitems]
    have hlength : (Lexer.ofString source).items.length = (yields ds ++ w).length + r.length := by
      rw [hsplit, List.length_append, List.length_map]
    have hitem : (Lexer.ofString source).items[(yields ds ++ w).length]? = r.head? := by
      rw [hsplit, List.getElem?_append_right (by simp), List.length_map, Nat.sub_self,
        List.head?_eq_getElem?]
    refine ⟨(yields ds ++ w).length, yields ds ++ w, xs, by omega, ?_, ?_, ?_, hresults, ?_⟩
    · rw [hsplit]
      exact List.take_left' (by simp)
    · obtain ⟨d, v, hd⟩ := hfault.viable
      exact ⟨ds ++ [d], v, by simp [yields_append, ← hd]⟩
    · rw [hitem]
      exact hfault.names hitems hparted hsome
    · intro hlt source' hagrees
      cases r with
      | nil =>
        rw [hlength] at hlt
        exact absurd hlt (Nat.lt_irrefl _)
      | cons item r => exact Fault.results_eq hfault hitems hparted hvalues hagrees

/-- In the source `1 )` the closing parenthesis is at fault. -/
theorem evaluateAll_error_unopened :
    evaluateAll "1 )" =
        .error (.parsing (.unexpectedToken Parser.expressionEnd ⟨.closeParen, "", 2⟩)) ∧
      ∃ (k : Nat) (ts : List Token), (Lexer.ofString "1 )").items.take k = ts.map .token ∧
        (∃ ds, ts <+: yields ds) ∧
        Error.Names "1 )" ts
          (.parsing (.unexpectedToken Parser.expressionEnd ⟨.closeParen, "", 2⟩))
          (Lexer.ofString "1 )").items[k]? := by
  let one : Token := ⟨.literal .integer, "1", 0⟩
  let closing : Token := ⟨.closeParen, "", 2⟩
  have hitems : (Lexer.ofString "1 )").items = (yields []).map .token ++
      ([one].map .token ++ [.token closing]) := by decide +kernel
  let d : Sentence :=
    .sum (.product (.unsigned (.bare (.literal one rfl))) .noFactors) .noProducts
  have hfault : Fault [one] (.token closing)
      (.parsing (.unexpectedToken Parser.expressionEnd closing)) :=
    ⟨⟨d, List.prefix_rfl⟩, .done, rfl, rfl⟩
  have hvalues : ([] : List Sentence).map (fun d => Expr.value d.tree) =
      ([] : List Float).map .ok := rfl
  have hresults := Evaluation.results_of_items hitems trivial (by simp) hfault hvalues
  have herror : evaluateAll "1 )" =
      .error (.parsing (.unexpectedToken Parser.expressionEnd closing)) := by
    rw [evaluateAll, hresults]
    rfl
  obtain ⟨k, ts, xs, -, hbefore, hviable, hnames, -⟩ :=
    evaluateAll_error_earliest "1 )" _ herror
  exact ⟨herror, k, ts, hbefore, hviable, hnames⟩

end Calculator
