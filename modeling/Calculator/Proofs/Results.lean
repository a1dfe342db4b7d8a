import Calculator.Proofs.Acceptance

/-!
# The results of a source of several expressions

An evaluation reads the sentences of a separated split of the source, one after another, and gives
their values. It comes to the end when the whole source is such a split, and otherwise it stops at
the first item that no sentence can go on with. Since every split can be turned into a separated
one, no source that can be split at all is refused.
-/

namespace Calculator

variable {source : String} {mark : Token} {u r : List Item} {s : Cursor} {ds : List Sentence}
  {xs : List Float} {e : Error}

/-- After a failure there are no results. -/
theorem Evaluation.results_failed (s : Cursor) : results ⟨s, true⟩ = [] := by
  rw [results, drain]
  split
  · rfl
  · rename_i h
    simp [next, run, step] at h

/-- The results are the next one and those after it. -/
theorem Evaluation.results_eq_next (s : Evaluation) :
    s.results =
      match s.next with
      | (none, _) => []
      | (some result, s') => result :: s'.results := by
  rw [results, drain]
  split <;> rename_i h <;> simp [h, results]

/-- The results at a cursor are the value of the next expression and what comes after it. -/
theorem Evaluation.results_eq (s : Cursor) :
    (ofCursor s).results =
      match Parser.nextValue s with
      | .ok none _ => []
      | .ok (some x) s' => .ok x :: (ofCursor s').results
      | .error e _ => [.error e] := by
  rw [results_eq_next]
  simp only [ofCursor, next, run, step, Bool.false_eq_true, if_false]
  cases Parser.nextValue s with
  | error e s' => simp [results_failed]
  | ok found s' => cases found <;> rfl

/-- Collecting goes on past values and puts them first. -/
theorem mapM_append (xs : List Float) (rs : List (Except Error Float)) :
    (xs.map Except.ok ++ rs).mapM id = (rs.mapM id).map (xs ++ ·) := by
  induction xs with
  | nil => cases hrs : rs.mapM id <;> simp [hrs, Except.map]
  | cons x xs ih =>
    simp only [List.map_cons, List.cons_append, List.mapM_cons, ih, id]
    cases rs.mapM id <;> rfl

/-- Collecting values gives the values. -/
theorem mapM_ok (xs : List Float) :
    (xs.map Except.ok).mapM id = (.ok xs : Except Error (List Float)) := by
  have h := mapM_append xs []
  rw [List.append_nil] at h
  rw [h, List.mapM_nil]
  exact congrArg Except.ok (List.append_nil xs)

/-- Collecting values gives the error after them. -/
theorem mapM_error (xs : List Float) (e : Error) :
    (xs.map Except.ok ++ [Except.error e]).mapM id = (.error e : Except Error (List Float)) := by
  rw [mapM_append]
  rfl

/-- Sentences that are parted are evaluated one after another, up to the text after them. -/
theorem Evaluation.results_of_split (hs : s.Shows mark ((yields ds).map .token ++ r))
    (hparted : Parted ds r) (hvalues : ds.map (fun d => Expr.value d.tree) = xs.map .ok) :
    ∃ s', s'.Shows mark r ∧
      (ofCursor s).results = xs.map .ok ++ (ofCursor s').results := by
  induction ds generalizing s xs with
  | nil =>
    obtain rfl : xs = [] := by simpa using hvalues.symm
    exact ⟨s, by simpa using hs, rfl⟩
  | cons d ds ih =>
    obtain ⟨hfollows, hparted⟩ := hparted
    obtain ⟨x, xs', hx, hxs, rfl⟩ : ∃ x xs', Expr.value d.tree = .ok x ∧
        ds.map (fun d => Expr.value d.tree) = xs'.map .ok ∧ xs = x :: xs' := by
      cases xs with
      | nil => simp at hvalues
      | cons x xs' =>
        simp only [List.map_cons, List.cons.injEq] at hvalues
        exact ⟨x, xs', hvalues.1, hvalues.2, rfl⟩
    rw [yields_cons, List.map_append, List.append_assoc] at hs
    obtain ⟨s₁, hnext, hshows⟩ := Parser.next_of_sentence hs hfollows
    obtain ⟨s', hshows', hresults⟩ := ih hshows hparted hxs
    refine ⟨s', hshows', ?_⟩
    simp only [results_eq s, Parser.nextValue_eq, hnext, hx, hresults, List.map_cons,
      List.cons_append]

/-- When nothing is left, there are no results. -/
theorem Evaluation.results_of_nil (hs : s.Shows mark []) : (ofCursor s).results = [] := by
  obtain ⟨s', hnext, -⟩ := Parser.next_nil hs
  simp only [results_eq, Parser.nextValue_eq, hnext]

/-- A fault is the last result. -/
theorem Evaluation.results_of_fault {w : List Token} (hs : s.Shows mark (w.map .token ++ r))
    (hsome : w.map .token ++ r ≠ []) (hfault : Fault w (nextItem mark r) e) :
    (ofCursor s).results = [.error e] := by
  obtain ⟨s', hnext⟩ := Parser.next_of_fault hs hsome hfault
  simp only [results_eq, Parser.nextValue_eq, hnext]

/-- Every text begins with sentences that are parted; after them it ends, or there are tokens that
begin another sentence and an item at fault. -/
theorem exists_split (u : List Item) (s : Cursor) (hs : s.Shows mark u) :
    ∃ (ds : List Sentence) (r : List Item), u = (yields ds).map .token ++ r ∧ Parted ds r ∧
      (r = [] ∨ ∃ (w : List Token) (r' : List Item) (e : Error), r = w.map .token ++ r' ∧
        r ≠ [] ∧ Fault w (nextItem mark r') e) := by
  have hout := Parser.next_outcome hs
  generalize Parser.next s = x at hout
  cases hout with
  | nothing hu => exact ⟨[], [], by simpa using hu, trivial, .inl rfl⟩
  | @fault s' e w r r' hu hsome hfault =>
    exact ⟨[], u, by simp, trivial, .inr ⟨w, r, e, hu, hsome, hfault⟩⟩
  | @sentence s' d r hu hfollows hshows =>
    have hlt := length_lt_of_yield d (by simp) (by simp) hu
    obtain ⟨ds, r', hr, hparted, hrest⟩ := exists_split r s' hshows
    exact ⟨d :: ds, r', by simp [hu, hr], ⟨hr ▸ hfollows, hparted⟩, hrest⟩
termination_by u.length

/-- Sentences of tokens that have the texts their kinds ask for have values. -/
theorem exists_values (h : ∀ t ∈ yields ds, t.Lexical) :
    ∃ xs : List Float, ds.map (fun d => Expr.value d.tree) = xs.map .ok := by
  induction ds with
  | nil => exact ⟨[], rfl⟩
  | cons d ds ih =>
    have hwellFormed : Expr.WellFormed d.tree := d.wellFormed fun t ht => h t (by simp [ht])
    obtain ⟨x, hx⟩ := hwellFormed.exists_value
    obtain ⟨xs, hxs⟩ := ih fun t ht => h t (by simp [ht])
    exact ⟨x :: xs, by simp [hx, hxs]⟩

/-- The sentences that a source begins with have values. -/
theorem exists_values_of_items {l : Lexer} (h : l.items = (yields ds).map .token ++ r) :
    ∃ xs : List Float, ds.map (fun d => Expr.value d.tree) = xs.map .ok :=
  exists_values (Lexer.lexical_of_items h)

/-- A source that is a separated split gives the values of its sentences. -/
theorem Evaluation.results_of_separated (hds : Separated ds)
    (hitems : (Lexer.ofString source).items = (yields ds).map .token)
    (hvalues : ds.map (fun d => Expr.value d.tree) = xs.map .ok) :
    (ofString source).results = xs.map .ok := by
  have hs := Cursor.shows_ofString source
  rw [hitems, ← List.append_nil (List.map _ _)] at hs
  obtain ⟨s', hshows, hresults⟩ := results_of_split hs (parted_nil_iff.mpr hds) hvalues
  rw [ofString, hresults, results_of_nil hshows, List.append_nil]

/-- A source that is a separated split evaluates to the values of its sentences. -/
theorem evaluateAll_of_separated (hds : Separated ds)
    (hitems : (Lexer.ofString source).items = (yields ds).map .token)
    (hvalues : ds.map (fun d => Expr.value d.tree) = xs.map .ok) :
    evaluateAll source = .ok xs := by
  rw [evaluateAll, Evaluation.results_of_separated hds hitems hvalues, mapM_ok]

/-- A source with an item at fault after some sentences gives their values and the error. -/
theorem Evaluation.results_of_items {w : List Token}
    (hitems : (Lexer.ofString source).items = (yields ds).map .token ++ (w.map .token ++ r))
    (hparted : Parted ds (w.map .token ++ r)) (hsome : w.map .token ++ r ≠ [])
    (hfault : Fault w (nextItem (Lexer.ofString source).endMark r) e)
    (hvalues : ds.map (fun d => Expr.value d.tree) = xs.map .ok) :
    (ofString source).results = xs.map .ok ++ [.error e] := by
  have hs := Cursor.shows_ofString source
  rw [hitems] at hs
  obtain ⟨s', hshows, hresults⟩ := results_of_split hs hparted hvalues
  rw [ofString, hresults, results_of_fault hshows hsome hfault]

/-- A source is a separated split, or it has an item at fault after some sentences. -/
theorem split_cases (source : String) :
    (∃ ds, Separated ds ∧ (Lexer.ofString source).items = (yields ds).map .token) ∨
      ∃ (ds : List Sentence) (w : List Token) (r : List Item) (e : Error) (xs : List Float),
        (Lexer.ofString source).items = (yields ds).map .token ++ (w.map .token ++ r) ∧
        Parted ds (w.map .token ++ r) ∧ w.map .token ++ r ≠ [] ∧
        Fault w (nextItem (Lexer.ofString source).endMark r) e ∧
        ds.map (fun d => Expr.value d.tree) = xs.map .ok := by
  obtain ⟨ds, r, hitems, hparted, hrest⟩ := exists_split _ _ (Cursor.shows_ofString source)
  rcases hrest with rfl | ⟨w, r', e, rfl, hsome, hfault⟩
  · exact .inl ⟨ds, parted_nil_iff.mp hparted, by simpa using hitems⟩
  · obtain ⟨xs, hvalues⟩ := exists_values_of_items hitems
    exact .inr ⟨ds, w, r', e, xs, hitems, hparted, hsome, hfault, hvalues⟩

/-- A source evaluates to the values of its separated split. -/
theorem evaluateAll_eq_ok :
    evaluateAll source = .ok xs ↔
      ∃ ds, (Lexer.ofString source).items = (yields ds).map .token ∧ Separated ds ∧
        ds.map (fun d => Expr.value d.tree) = xs.map .ok := by
  constructor
  · intro hok
    rcases split_cases source with
      ⟨ds, hds, hitems⟩ | ⟨ds, w, r, e, xs', hitems, hparted, hsome, hfault, hvalues⟩
    · obtain ⟨xs', hvalues⟩ := exists_values_of_items (hitems.trans (List.append_nil _).symm)
      have hok' := evaluateAll_of_separated hds hitems hvalues
      obtain rfl : xs' = xs := Except.ok.inj (hok'.symm.trans hok)
      exact ⟨ds, hitems, hds, hvalues⟩
    · rw [evaluateAll, Evaluation.results_of_items hitems hparted hsome hfault hvalues,
        mapM_error] at hok
      contradiction
  · intro h
    obtain ⟨ds, hitems, hds, hvalues⟩ := h
    exact evaluateAll_of_separated hds hitems hvalues

/-- When the items of a source can be split into sentences, one split is both the separated one and
the one that takes the longest sentence each time, and the source evaluates to its values. -/
theorem exists_best_split {ds₀ : List Sentence}
    (hitems₀ : (Lexer.ofString source).items = (yields ds₀).map .token) :
    ∃ (ds : List Sentence) (xs : List Float), yields ds = yields ds₀ ∧
      (∀ ds', yields ds' = yields ds₀ → (Separated ds' ↔ ds' = ds)) ∧
      (∀ ds', yields ds' = yields ds₀ → (LongestFirst ds' ↔ ds' = ds)) ∧
      ds.map (fun d => Expr.value d.tree) = xs.map .ok ∧ evaluateAll source = .ok xs := by
  obtain ⟨ds, hds, hyields⟩ := exists_separated ds₀
  have hitems : (Lexer.ofString source).items = (yields ds).map .token := by rw [hitems₀, hyields]
  obtain ⟨xs, hvalues⟩ := exists_values_of_items (hitems.trans (List.append_nil _).symm)
  have hlongest (ds' : List Sentence) (h : yields ds' = yields ds₀) :
      LongestFirst ds' ↔ ds' = ds := by
    constructor
    · intro hds'
      exact hds'.unique hds.longestFirst (h.trans hyields.symm)
    · intro heq
      rw [heq]
      exact hds.longestFirst
  have hseparated (ds' : List Sentence) (h : yields ds' = yields ds₀) :
      Separated ds' ↔ ds' = ds := by
    rw [separated_iff_longestFirst, hlongest ds' h]
  exact ⟨ds, xs, hyields, hseparated, hlongest, hvalues,
    evaluateAll_of_separated hds hitems hvalues⟩

/-- A source is evaluated exactly when its items are tokens that can be split into sentences. The
results are the values of the one split in which no later sentence begins with a sign, which is also
the only one that takes the longest sentence each time. -/
theorem evaluateAll_iff_split (source : String) :
    ((∃ xs, evaluateAll source = .ok xs) ↔
      ∃ ts : List Token, (Lexer.ofString source).items = ts.map .token ∧
        ∃ ds, yields ds = ts) ∧
    ∀ ts : List Token, (Lexer.ofString source).items = ts.map .token →
      (∃ ds, yields ds = ts) →
        ∃ (ds : List Sentence) (xs : List Float), yields ds = ts ∧
          (∀ ds', yields ds' = ts → (Separated ds' ↔ ds' = ds)) ∧
          (∀ ds', yields ds' = ts → (LongestFirst ds' ↔ ds' = ds)) ∧
          ds.map (fun d => Expr.value d.tree) = xs.map .ok ∧ evaluateAll source = .ok xs := by
  constructor
  · constructor
    · intro hok
      obtain ⟨xs, hok⟩ := hok
      obtain ⟨ds, hitems, -, -⟩ := evaluateAll_eq_ok.mp hok
      exact ⟨yields ds, hitems, ds, rfl⟩
    · intro hsplit
      obtain ⟨ts, hitems, ds₀, rfl⟩ := hsplit
      obtain ⟨ds, xs, -, -, -, -, hok⟩ := exists_best_split hitems
      exact ⟨xs, hok⟩
  · intro ts hitems hsplit
    obtain ⟨ds₀, rfl⟩ := hsplit
    exact exists_best_split hitems

end Calculator
