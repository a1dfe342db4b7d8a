import Calculator.Proofs.Groups

/-!
# Sources put together

A source and, after some blanks, a second one are evaluated one after the other, as long as the
second does not begin with a sign: the values of both, or the values of the first and the error of
the second, which has moved by what stands before it. The blanks keep the lexemes apart, and an
operand or the end ends the last expression of the first source.

When the second source begins with a sign, its first expression continues the last one of the first
source. The two become one, and all the others keep their values.
-/

namespace Calculator

variable {source a b w : String} {d d' : Sentence} {ds later : List Sentence} {t : Token}
  {u : List Item} {xs ys : List Float} {f : Nat → Nat}

/-- What may follow a sentence may follow one at another place. -/
theorem Follows.move (h : Follows u) : Follows (u.map (Item.move f)) :=
  (Alike.move u : Alike f (fun _ _ => True) u _).follows h

/-- A sequence is separated when no sentence after the first begins with a sign. -/
theorem separated_iff_beginsSign :
    Separated ds ↔ ∀ sign ∈ (ds.map Derivation.beginsSign).tail, sign = false := by
  simp [Separated, ← List.map_tail, Derivation.beginsSign_eq_false_iff]

/-- Sentences of the same tokens at two places begin alike. -/
theorem Derivation.beginsSign_move
    (h : (d.yield.map Item.token).map (Item.move f) = d'.yield.map .token) :
    d'.beginsSign = d.beginsSign := by
  obtain ⟨t, v, hyield, -⟩ := d.exists_head (by simp) (by simp)
  have hhead : (d.yield.map Item.token).head? = some (.token t) := by simp [hyield]
  have hhead' : (d'.yield.map Item.token).head? = some (.token (t.move f)) := by
    rw [← h, List.head?_map, hhead]
    rfl
  rw [beginsSign_of_head hhead, beginsSign_of_head hhead', Token.move_kind]

/-- The sentences of a sequence may stand at other places. They keep their values there and begin
with what they began with. -/
theorem exists_yields_move (ds : List Sentence) (f : Nat → Nat) :
    ∃ ds', ((yields ds).map Item.token).map (Item.move f) = (yields ds').map .token ∧
      ds'.map (fun d => Expr.value d.tree) = ds.map (fun d => Expr.value d.tree) ∧
      ds'.map Derivation.beginsSign = ds.map Derivation.beginsSign := by
  induction ds with
  | nil => exact ⟨[], rfl, rfl, rfl⟩
  | cons d ds ih =>
    obtain ⟨d', hyield, hvalue⟩ := d.exists_move (Expr.congruent_value f)
    obtain ⟨ds', hyields, hvalues, hsigns⟩ := ih
    exact ⟨d' :: ds', by simp [← hyield, ← hyields], by simp [hvalue, hvalues],
      by simp [Derivation.beginsSign_move hyield, hsigns]⟩

/-- A source that is evaluated is a separated split wherever it stands. -/
theorem exists_split_move (h : evaluateAll source = .ok xs) (f : Nat → Nat) :
    ∃ ds, (Lexer.ofString source).items.map (Item.move f) = (yields ds).map .token ∧
      Separated ds ∧ ds.map (fun d => Expr.value d.tree) = xs.map .ok := by
  obtain ⟨ds, hitems, hds, hvalues⟩ := evaluateAll_eq_ok.mp h
  obtain ⟨ds', hmoved, hvalues', hsigns⟩ := exists_yields_move ds f
  refine ⟨ds', by rw [hitems, hmoved], ?_, hvalues'.trans hvalues⟩
  rw [separated_iff_beginsSign, hsigns, ← separated_iff_beginsSign]
  exact hds

/-- A sequence that begins with a sign is put after another one by joining the two sentences in the
middle. -/
theorem Separated.exists_append (h : Separated (ds ++ [d])) (h' : Separated (d' :: later))
    (hsign : d'.beginsSign = true) :
    ∃ both, Separated (ds ++ both :: later) ∧
      yields (ds ++ both :: later) = yields (ds ++ [d]) ++ yields (d' :: later) := by
  have hjoin : ¬ d'.BeginsOperand := by
    rw [← Derivation.beginsSign_eq_false_iff, hsign]
    simp
  obtain ⟨both, hboth⟩ := exists_joined d d' hjoin
  refine ⟨both, ?_, by simp [yields_append, hboth]⟩
  cases ds with
  | nil => exact h'
  | cons d₀ ds =>
    intro e he
    simp only [List.cons_append, List.tail_cons, List.mem_append, List.mem_cons] at he
    rcases he with he | rfl | he
    · exact h e (by simp [he])
    · obtain ⟨t, v, hyield, ht⟩ := h d (by simp)
      exact ⟨t, v ++ d'.yield, by simp [hboth, hyield], ht⟩
    · exact h' e he

/-- The items of two sources with blanks between them. -/
theorem Lexer.items_joined (a b : String) (hw : w ≠ "")
    (hblank : ∀ c ∈ w.toList, isBlank c = true) :
    (ofString (a ++ w ++ b)).items = (ofString a).items ++
      (ofString b).items.map (Item.move (· + (a ++ w).utf8ByteSize)) := by
  have hends : ∀ c ∈ (w.toList ++ b.toList).head?, endsLexeme c = true := by
    obtain ⟨c, cs, hcs⟩ := List.exists_cons_of_ne_nil (mt String.toList_eq_nil_iff.mp hw)
    simpa [hcs] using endsLexeme_of_isBlank (hblank c (by simp [hcs]))
  have hsize : (a ++ w).utf8ByteSize = byteCount a.toList + byteCount w.toList := by
    rw [← byteCount_toList, String.toList_append, byteCount_append]
  have hmove := items_move b.toList 0 (byteCount a.toList + byteCount w.toList)
  simp only [Nat.zero_add] at hmove
  simp only [ofString, String.toList_append, List.append_assoc, items_append hends,
    items_blanks hblank, Nat.zero_add, hmove, hsize]

/-- The end of two sources with blanks between them. -/
theorem Lexer.endMark_joined (a w b : String) :
    (ofString (a ++ w ++ b)).endMark =
      (ofString b).endMark.move (· + (a ++ w).utf8ByteSize) := by
  simp [endMark_ofString, Token.move, Token.symbol, String.utf8ByteSize_append, Nat.add_comm]

/-- When the second of two sources does not begin with a sign, it is evaluated after the first. -/
theorem evaluateAll_joined (ha : evaluateAll a = .ok xs) (hw : w ≠ "")
    (hblank : ∀ c ∈ w.toList, isBlank c = true) (hb : Follows (Lexer.ofString b).items) :
    evaluateAll (a ++ w ++ b) =
      ((evaluateAll b).map (xs ++ ·)).mapError (Error.move (· + (a ++ w).utf8ByteSize)) := by
  obtain ⟨ds, hitems, hds, hvalues⟩ := evaluateAll_eq_ok.mp ha
  have hs := Cursor.shows_ofString (a ++ w ++ b)
  rw [Lexer.items_joined a b hw hblank, Lexer.endMark_joined, hitems] at hs
  obtain ⟨s, hshows, hresults⟩ := Evaluation.results_of_split hs (hds.parted hb.move) hvalues
  have hsecond := Evaluation.results_moved (Cursor.shows_ofString b) hshows
  rw [evaluateAll, Evaluation.ofString, hresults, mapM_append, hsecond, mapM_mapError]
  rw [evaluateAll, Evaluation.ofString]
  cases (Evaluation.ofCursor (.ofString b)).results.mapM id <;> rfl

/-- The first sentence of a text that begins with a sign begins with it. -/
theorem beginsSign_of_items (h : .token t :: u = (yields (d :: ds)).map Item.token)
    (ht : t.kind.isAdditive = true) : d.beginsSign = true := by
  obtain ⟨t', v, hyield, -⟩ := d.exists_head (by simp) (by simp)
  obtain ⟨rfl, -⟩ : t = t' ∧ _ := by simpa [hyield] using h
  simp [Derivation.beginsSign, hyield, Token.Kind.startsOperand_of_isAdditive ht]

/-- When the second of two sources begins with a sign, its first expression continues the last one
of the first source. -/
theorem evaluateAll_continued (ha : evaluateAll a = .ok xs) (hw : w ≠ "")
    (hblank : ∀ c ∈ w.toList, isBlank c = true) (hb : (Lexer.ofString b).items = .token t :: u)
    (ht : t.kind.isAdditive = true) (hxs : xs ≠ []) (hys : evaluateAll b = .ok ys) :
    ∃ z, evaluateAll (a ++ w ++ b) = .ok (xs.dropLast ++ z :: ys.tail) := by
  obtain ⟨ds, hitems, hds, hvalues⟩ := evaluateAll_eq_ok.mp ha
  obtain ⟨ds', hitems', hds', hvalues'⟩ := exists_split_move hys (· + (a ++ w).utf8ByteSize)
  have hall := Lexer.items_joined a b hw hblank
  rw [hitems, hitems', ← List.map_append] at hall
  rw [hb, List.map_cons] at hitems'
  obtain ⟨front, d, rfl⟩ : ∃ front d, ds = front ++ [d] := by
    rcases List.eq_nil_or_concat ds with rfl | h
    · simp [hxs] at hvalues
    · simpa using h
  cases ds' with
  | nil => simp at hitems'
  | cons d' later =>
    obtain ⟨both, hseparated, hyields⟩ := hds.exists_append hds' (beginsSign_of_items hitems' ht)
    rw [← hyields] at hall
    obtain ⟨zs, hzs⟩ := exists_values_of_items (hall.trans (List.append_nil _).symm)
    obtain ⟨z, -, hz⟩ : ∃ z ∈ zs, .ok z = Expr.value both.tree := by
      rw [← List.mem_map, ← hzs]
      exact List.mem_map.mpr ⟨both, by simp, rfl⟩
    have hfront : front.map (fun d => Expr.value d.tree) = xs.dropLast.map .ok := by
      simpa using congrArg List.dropLast hvalues
    have hlater : later.map (fun d => Expr.value d.tree) = ys.tail.map .ok := by
      simpa using congrArg List.tail hvalues'
    refine ⟨z, evaluateAll_of_separated hseparated hall ?_⟩
    simp [hfront, hlater, ← hz]

/-- After a source without an error and blanks, the values of another source come next, or its error
further on. When the other source begins with a sign and both have values, the last value of the one
and the first value of the other become one. -/
theorem evaluateAll_append_blanks (a w b : String) (xs : List Float) (ha : evaluateAll a = .ok xs)
    (hw : w ≠ "") (hblank : ∀ c ∈ w.toList, isBlank c = true) :
    (Follows (Lexer.ofString b).items →
      evaluateAll (a ++ w ++ b) =
        ((evaluateAll b).map (xs ++ ·)).mapError (Error.move (· + (a ++ w).utf8ByteSize))) ∧
    ∀ t u ys, (Lexer.ofString b).items = .token t :: u → t.kind.isAdditive = true → xs ≠ [] →
      evaluateAll b = .ok ys →
        ∃ z, evaluateAll (a ++ w ++ b) = .ok (xs.dropLast ++ z :: ys.tail) ∧
          (xs.dropLast ++ z :: ys.tail).length = xs.length + ys.length - 1 := by
  constructor
  · exact evaluateAll_joined ha hw hblank
  · intro t u ys hb ht hxs hys
    obtain ⟨z, hz⟩ := evaluateAll_continued ha hw hblank hb ht hxs hys
    have hsome : ys ≠ [] := by
      rintro rfl
      simp [evaluateAll_eq_nil_iff.mp hys] at hb
    have hxsLength := List.length_pos_iff.mpr hxs
    have hysLength := List.length_pos_iff.mpr hsome
    refine ⟨z, hz, ?_⟩
    simp only [List.length_append, List.length_dropLast, List.length_cons, List.length_tail]
    omega

/-- On a new line an operand begins an expression, and its error is found there; a sign continues
the expression of the line before. -/
theorem evaluateAll_append_line :
    evaluateAll "1 2\n3 )" = .error (.parsing (.unexpectedToken "an operator or end of input"
      (.symbol .closeParen 6))) ∧
    ∃ z, evaluateAll "1 2\n-3 4" =
      .ok [Magnitude.toFloat false (Magnitude.nearest 1 1), z,
        Magnitude.toFloat false (Magnitude.nearest 4 1)] := by
  have hfirst : evaluateAll "1 2" = .ok [Magnitude.toFloat false (Magnitude.nearest 1 1),
      Magnitude.toFloat false (Magnitude.nearest 2 1)] := by
    decide +kernel
  have hblank : ∀ c ∈ "\n".toList, isBlank c = true := by simp [isBlank]
  constructor
  · have hitems : (Lexer.ofString "3 )").items =
        [.token ⟨.literal .integer, "3", 0⟩, .token (.symbol .closeParen 2)] := by
      decide +kernel
    have herror : evaluateAll "3 )" = .error (.parsing (.unexpectedToken
        "an operator or end of input" (.symbol .closeParen 2))) := by
      decide +kernel
    have happend := (evaluateAll_append_blanks "1 2" "\n" "3 )" _ hfirst (by decide) hblank).1
      (by simp [Follows, hitems, Token.Kind.startsOperand])
    rw [herror] at happend
    exact happend
  · have hitems : (Lexer.ofString "-3 4").items =
        [.token (.symbol (.operator .minus) 0), .token ⟨.literal .integer, "3", 1⟩,
          .token ⟨.literal .integer, "4", 3⟩] := by
      decide +kernel
    have hvalues : evaluateAll "-3 4" = .ok [-Magnitude.toFloat false (Magnitude.nearest 3 1),
        Magnitude.toFloat false (Magnitude.nearest 4 1)] := by
      decide +kernel
    obtain ⟨z, hz, -⟩ := (evaluateAll_append_blanks "1 2" "\n" "-3 4" _ hfirst (by decide)
      hblank).2 _ _ _ hitems rfl (by simp) hvalues
    exact ⟨z, hz⟩

end Calculator
