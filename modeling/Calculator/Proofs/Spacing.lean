import Calculator.Proofs.Alike
import Calculator.Proofs.Resumption
import Calculator.Proofs.Tiling

/-!
# Blanks make no difference

Between the lexemes of a source there may be other blanks, as long as some are left where there were
some. `Respaced` says what this allows. Then the lexemes are still the longest ones that begin where
they stand: a word without blanks that begins in the new text begins in the old one as well. So the
items are the same at other places, and a place differs from the old one by the blanks before it.

Everything that is read from a source is read from its items. Trees, values and errors are therefore
the same, with their positions moved to the new places.
-/

namespace Calculator

/-- A text from the byte `p` on, and another one with the same lexemes. The blanks before a lexeme
are others, but there are some if there were some; the blanks at the end may be any. -/
inductive Respaced : Nat → List Char → List Char → Prop
  | blanks {p : Nat} {last last' : List Char} (hlast : ∀ c ∈ last, isBlank c = true)
      (hlast' : ∀ c ∈ last', isBlank c = true) : Respaced p last last'
  | piece {p : Nat} {rest rest' gap : List Char} {x : Piece} (hfits : x.Fits p rest)
      (hgap : ∀ c ∈ gap, isBlank c = true) (hkept : x.blanks ≠ [] → gap ≠ [])
      (hrest : Respaced (p + byteCount x.text) rest rest') :
      Respaced p (x.text ++ rest) (gap ++ (x.lexeme ++ rest'))

/-- The bytes that the blanks of a text take. -/
def blankBytes (cs : List Char) : Nat :=
  byteCount (cs.filter isBlank)

/-- A byte of one text and a byte of another one that differ by the blanks before them alone. -/
def SamePlace (cs cs' : List Char) (n n' : Nat) : Prop :=
  ∃ front rest front' rest' : List Char, cs = front ++ rest ∧ cs' = front' ++ rest' ∧
    byteCount front = n ∧ byteCount front' = n' ∧ n' + blankBytes front = n + blankBytes front'

variable {p p' n n' : Nat} {cs cs' rest rest' v w gap : List Char} {x : Piece} {item : Item}
  {f : Nat → Nat}

/-- The blanks of two texts take as many bytes as those of both. -/
theorem blankBytes_append (cs ds : List Char) :
    blankBytes (cs ++ ds) = blankBytes cs + blankBytes ds := by
  rw [blankBytes, List.filter_append, byteCount_append, blankBytes, blankBytes]

/-- All bytes of blanks are bytes of blanks. -/
theorem blankBytes_of_blank (h : ∀ c ∈ cs, isBlank c = true) : blankBytes cs = byteCount cs := by
  rw [blankBytes, List.filter_eq_self.mpr h]

namespace SamePlace

/-- The places after blanks and before the lexeme that they precede. -/
theorem of_blanks (hblanks : ∀ c ∈ cs, isBlank c = true) (hblanks' : ∀ c ∈ cs', isBlank c = true)
    (rest rest' : List Char) :
    SamePlace (cs ++ rest) (cs' ++ rest') (byteCount cs) (byteCount cs') := by
  refine ⟨cs, rest, cs', rest', rfl, rfl, rfl, rfl, ?_⟩
  rw [blankBytes_of_blank hblanks, blankBytes_of_blank hblanks', Nat.add_comm]

/-- Places in what follows are places in the whole texts. -/
theorem append (h : SamePlace rest rest' n n') (hblanks : ∀ c ∈ cs, isBlank c = true)
    (hblanks' : ∀ c ∈ cs', isBlank c = true) (w : List Char) :
    SamePlace (cs ++ w ++ rest) (cs' ++ w ++ rest') (byteCount (cs ++ w) + n)
      (byteCount (cs' ++ w) + n') := by
  obtain ⟨front, later, front', later', rfl, rfl, rfl, rfl, hplaces⟩ := h
  refine ⟨cs ++ w ++ front, later, cs' ++ w ++ front', later', by simp, by simp,
    byteCount_append _ _, byteCount_append _ _, ?_⟩
  simp only [blankBytes_append, byteCount_append, blankBytes_of_blank hblanks,
    blankBytes_of_blank hblanks']
  omega

end SamePlace

/-- When words without blanks that begin one text begin another one, so do those that begin the two
texts with the same characters before them. -/
theorem prefix_append_of_prefix
    (h : ∀ v, (∀ c ∈ v, isBlank c = false) → v <+: rest' → v <+: rest)
    (hv : ∀ c ∈ v, isBlank c = false) (hbegin : v <+: w ++ rest') : v <+: w ++ rest := by
  rcases List.prefix_or_prefix_of_prefix hbegin (List.prefix_append w rest') with hshort | hlong
  · exact hshort.trans (List.prefix_append w rest)
  · obtain ⟨v', rfl⟩ := hlong
    rw [List.prefix_append_right_inj] at hbegin ⊢
    exact h v' (fun c hc => hv c (List.mem_append_right w hc)) hbegin

/-- No word without blanks begins with a blank. -/
theorem eq_nil_of_isPrefix (hfirst : ∀ c ∈ cs.head?, isBlank c = true)
    (hv : ∀ c ∈ v, isBlank c = false) (hbegin : v <+: cs) : v = [] := by
  cases v with
  | nil => rfl
  | cons c v =>
    obtain ⟨rest, rfl⟩ := hbegin
    have hblank := hfirst c (by simp)
    simp [hv c (by simp)] at hblank

/-- A word without blanks that begins the new text begins the old one. -/
theorem Respaced.isPrefix (h : Respaced p cs cs') (v : List Char)
    (hv : ∀ c ∈ v, isBlank c = false) (hbegin : v <+: cs') : v <+: cs := by
  induction h generalizing v with
  | @blanks p last last' hlast hlast' =>
    have hfirst : ∀ c ∈ last'.head?, isBlank c = true :=
      fun c hc => hlast' c (List.mem_of_mem_head? hc)
    rw [eq_nil_of_isPrefix hfirst hv hbegin]
    exact List.nil_prefix
  | @piece p rest rest' gap x hfits hgap hkept hrest ih =>
    cases gap with
    | nil =>
      have hblanks : x.blanks = [] := by
        by_contra hsome
        exact hkept hsome rfl
      rw [Piece.text, hblanks, List.nil_append]
      exact prefix_append_of_prefix ih hv hbegin
    | cons c gap =>
      have hfirst : ∀ c' ∈ (c :: gap ++ (x.lexeme ++ rest')).head?, isBlank c' = true := by
        simpa using hgap c (by simp)
      rw [eq_nil_of_isPrefix hfirst hv hbegin]
      exact List.nil_prefix

/-- A lexeme is read as the same item, wherever it stands, when every word without blanks that
begins what follows it now began what followed it before. -/
theorem Item.Reads.move (h : item.Reads w rest)
    (hrest : ∀ v, (∀ c ∈ v, isBlank c = false) → v <+: rest' → v <+: rest) :
    (item.move f).Reads w rest' := by
  have hwords (kind : Token.Kind) (w' : List Char) (hw' : kind.Spells w')
      (hbegin : w' <+: w ++ rest') : w' <+: w ++ rest :=
    prefix_append_of_prefix hrest (Lexeme.isBlank_of_mem hw').2 hbegin
  cases item with
  | token t =>
    obtain ⟨hspells, hlongest, htext⟩ := h
    exact ⟨hspells, fun kind w' hw' hbegin => hlongest kind w' hw' (hwords kind w' hw' hbegin),
      htext⟩
  | stray c q =>
    obtain ⟨hchar, hnone⟩ := h
    exact ⟨hchar, fun kind w' hw' hbegin => hnone kind w' hw' (hwords kind w' hw' hbegin)⟩

namespace Lexer

/-- All that a lexer delivers, up to the end mark. -/
def itemsToEnd (l : Lexer) : List Item :=
  l.items ++ [.token l.endMark]

/-- Blanks deliver the end mark alone. -/
theorem itemsToEnd_of_blank (h : ∀ c ∈ cs, isBlank c = true) :
    itemsToEnd ⟨cs, p⟩ = [.token (endMark ⟨cs, p⟩)] := by
  rw [itemsToEnd, items_of_none (next?_eq_none_iff.mpr h), List.nil_append]

/-- A text that begins with a piece delivers its item and then what is after it. -/
theorem itemsToEnd_of_fits (h : x.Fits p rest) :
    itemsToEnd ⟨x.text ++ rest, p⟩ = x.item :: itemsToEnd ⟨rest, p + byteCount x.text⟩ := by
  have hmark : endMark ⟨x.text ++ rest, p⟩ = endMark ⟨rest, p + byteCount x.text⟩ := by
    simp [endMark, byteCount_append, Nat.add_assoc]
  rw [itemsToEnd, items_of_fits h, hmark, itemsToEnd, List.cons_append]

/-- Nothing is delivered that stands before the text. -/
theorem le_position_of_mem_itemsToEnd {l : Lexer} (h : item ∈ l.itemsToEnd) :
    l.position ≤ item.position := by
  rcases List.mem_append.mp h with hitem | hmark
  · obtain ⟨xs, htiles, hitems⟩ := l.exists_tiles
    rw [hitems] at hitem
    obtain ⟨x, hx, rfl⟩ := List.mem_map.mp hitem
    exact htiles.position_le x hx
  · rw [List.mem_singleton.mp hmark]
    exact Nat.le_add_right _ _

/-- What is delivered has moved when the items and the end mark have. -/
theorem itemsToEnd_eq_map_iff {l l' : Lexer} :
    l'.itemsToEnd = l.itemsToEnd.map (Item.move f) ↔
      l'.items = l.items.map (Item.move f) ∧ l'.endMark = l.endMark.move f := by
  simp [itemsToEnd, Item.move]

end Lexer

open Lexer (itemsToEnd)

/-- The lexemes of a piece after other blanks are read as its item at another place. -/
theorem Respaced.fits (h : Respaced (p + byteCount x.text) rest rest') (hfits : x.Fits p rest)
    (hgap : ∀ c ∈ gap, isBlank c = true) (p' : Nat) :
    Piece.Fits ⟨gap, x.lexeme, x.item.move fun _ => p' + byteCount gap⟩ p' rest' where
  blanks := hgap
  lexeme := hfits.lexeme
  position := by cases x.item <;> rfl
  reads := hfits.reads.move h.isPrefix

/-- The new text delivers the same items at other places, and each place differs from the old one by
the blanks before it. -/
theorem Respaced.exists_move (h : Respaced p cs cs') (p' : Nat) :
    ∃ f : Nat → Nat, itemsToEnd ⟨cs', p'⟩ = (itemsToEnd ⟨cs, p⟩).map (Item.move f) ∧
      ∀ item ∈ itemsToEnd ⟨cs, p⟩, ∃ n n', item.position = p + n ∧ f item.position = p' + n' ∧
        SamePlace cs cs' n n' := by
  induction h generalizing p' with
  | @blanks p last last' hlast hlast' =>
    rw [Lexer.itemsToEnd_of_blank hlast, Lexer.itemsToEnd_of_blank hlast']
    refine ⟨fun _ => p' + byteCount last', rfl, fun item hitem => ?_⟩
    rw [List.mem_singleton.mp hitem]
    have hplaces := SamePlace.of_blanks hlast hlast' [] []
    rw [List.append_nil, List.append_nil] at hplaces
    exact ⟨_, _, rfl, rfl, hplaces⟩
  | @piece p rest rest' gap x hfits hgap hkept hrest ih =>
    obtain ⟨g, hlater, hplaces⟩ := ih (p' + byteCount (gap ++ x.lexeme))
    have hfits' := hrest.fits hfits hgap p'
    have hitems' := Lexer.itemsToEnd_of_fits hfits'
    simp only [Piece.text, List.append_assoc] at hitems'
    -- the first item stands before all others, so the map may be changed there
    let f := Function.update g x.item.position (p' + byteCount gap)
    have hfirst : f x.item.position = p' + byteCount gap := Function.update_self ..
    have hother : ∀ item ∈ itemsToEnd ⟨rest, p + byteCount x.text⟩,
        f item.position = g item.position := by
      intro item hitem
      have hle : p + byteCount x.text ≤ item.position := Lexer.le_position_of_mem_itemsToEnd hitem
      have hlt := hfits.position_lt
      exact Function.update_of_ne (by omega) ..
    refine ⟨f, ?_, fun item hitem => ?_⟩
    · rw [hitems', hlater, Lexer.itemsToEnd_of_fits hfits, List.map_cons]
      congr 1
      · exact Item.move_congr hfirst.symm
      · exact List.map_congr_left fun item hitem => Item.move_congr (hother item hitem).symm
    · rw [Lexer.itemsToEnd_of_fits hfits, List.mem_cons] at hitem
      rcases hitem with rfl | hitem
      · have hfront := SamePlace.of_blanks hfits.blanks hgap (x.lexeme ++ rest) (x.lexeme ++ rest')
        refine ⟨_, _, hfits.position, hfirst, ?_⟩
        rwa [Piece.text, List.append_assoc]
      · obtain ⟨n, n', hn, hn', hsame⟩ := hplaces item hitem
        refine ⟨byteCount x.text + n, byteCount (gap ++ x.lexeme) + n', ?_, ?_, ?_⟩
        · rw [hn, Nat.add_assoc]
        · rw [hother item hitem, hn', Nat.add_assoc]
        · rw [← List.append_assoc]
          exact hsame.append hfits.blanks hgap x.lexeme

variable {source source' : String}

/-- A source with other blanks delivers the same items at other places. -/
theorem Respaced.exists_move_source (h : Respaced 0 source.toList source'.toList) :
    ∃ f : Nat → Nat,
      (Lexer.ofString source').itemsToEnd = (Lexer.ofString source).itemsToEnd.map (Item.move f) ∧
      ∀ item ∈ (Lexer.ofString source).itemsToEnd,
        SamePlace source.toList source'.toList item.position (f item.position) := by
  obtain ⟨f, hstream, hplaces⟩ := h.exists_move 0
  refine ⟨f, hstream, fun item hitem => ?_⟩
  obtain ⟨n, n', hn, hn', hsame⟩ := hplaces item hitem
  rw [Nat.zero_add] at hn hn'
  rwa [hn', hn]

/-- Sources with the same items at other places are read in lockstep, from any of the items on. -/
theorem Lockstep.moved_passing
    (hitems : (Lexer.ofString source').items = (Lexer.ofString source).items.map (Item.move f))
    (hmark : (Lexer.ofString source').endMark = (Lexer.ofString source).endMark.move f)
    (skipped : Nat) :
    (moved f).cursors (.ofLexer ((Lexer.ofString source).passing skipped))
      (.ofLexer ((Lexer.ofString source').passing skipped)) := by
  have hs := Cursor.shows_ofLexer ((Lexer.ofString source).passing skipped)
  have hs' := Cursor.shows_ofLexer ((Lexer.ofString source').passing skipped)
  rw [Lexer.passing_items, Lexer.passing_endMark] at hs hs'
  rw [hitems, hmark, ← List.map_drop] at hs'
  exact ⟨_, _, hs, hs'⟩

/-- Evaluating a source is asking for a value and then for the end. -/
theorem evaluate_eq_answers (source : String) :
    evaluate source =
      match Parser.nextValue.answer (.ofString source) with
      | .error e => .error e
      | .ok x =>
        (Parser.expectEnd.answer (Parser.Call.nextValue.leave (.ofString source))).map
          fun _ => x := by
  simp only [evaluate_eq, Parser.answer, Parser.Call.leave, Parser.leave]
  cases Parser.nextValue (.ofString source) with
  | error e s => rfl
  | ok x s =>
    simp only
    cases Parser.expectEnd s <;> rfl

/-- Sources of which the first value and the end after it are answered alike evaluate alike. -/
theorem evaluate_eq_mapError {change : Error → Error}
    (hvalue : Parser.nextValue.answer (.ofString source') =
      (Parser.nextValue.answer (.ofString source)).mapError change)
    (hend : Parser.expectEnd.answer (Parser.Call.nextValue.leave (.ofString source')) =
      (Parser.expectEnd.answer (Parser.Call.nextValue.leave (.ofString source))).mapError change) :
    evaluate source' = (evaluate source).mapError change := by
  rw [evaluate_eq_answers, evaluate_eq_answers, hvalue, hend]
  cases Parser.nextValue.answer (.ofString source) with
  | error e => rfl
  | ok x =>
    simp only [Except.mapError]
    cases Parser.expectEnd.answer (Parser.Call.nextValue.leave (.ofString source)) <;> rfl

/-- Sources that are read in lockstep evaluate to the same value or to the same error moved. -/
theorem evaluate_moved (h : (Lockstep.moved f).cursors (.ofString source) (.ofString source')) :
    evaluate source' = (evaluate source).mapError (Error.move f) :=
  evaluate_eq_mapError (Answer.value.inj (Parser.Call.nextValue.answer_moved h))
    ((Lockstep.moved f).expectEnd ((Lockstep.moved f).leave h .nextValue)).answer_eq_mapError

/-- Other blanks between the lexemes of a source, with some left where there were some, leave
its items, answers, values and errors the same, at places that differ by the blanks before them
alone. -/
theorem answers_respaced (source source' : String)
    (h : Respaced 0 source.toList source'.toList) :
    ∃ f : Nat → Nat,
      (Lexer.ofString source').itemsToEnd = (Lexer.ofString source).itemsToEnd.map (Item.move f) ∧
      (∀ item ∈ (Lexer.ofString source).itemsToEnd,
        SamePlace source.toList source'.toList item.position (f item.position)) ∧
      (∀ (skipped : Nat) (calls : List Parser.Call),
        Parser.answers calls (.ofLexer ((Lexer.ofString source').passing skipped)) =
          (Parser.answers calls (.ofLexer ((Lexer.ofString source).passing skipped))).map
            (Answer.move f)) ∧
      (∀ e : Expr, (e.move f).Same e) ∧
      evaluate source' = (evaluate source).mapError (Error.move f) ∧
      evaluateAll source' = (evaluateAll source).mapError (Error.move f) := by
  obtain ⟨f, hstream, hplaces⟩ := h.exists_move_source
  obtain ⟨hitems, hmark⟩ := Lexer.itemsToEnd_eq_map_iff.mp hstream
  have hpassing := Lockstep.moved_passing hitems hmark
  have hanswers (skipped : Nat) (calls : List Parser.Call) :=
    Parser.answers_moved (hpassing skipped) calls
  exact ⟨f, hstream, hplaces, hanswers, Expr.move_same, evaluate_moved (hpassing 0),
    evaluateAll_moved hitems hmark⟩

/-- A stray character is reported at its new place when the blanks around it are others. -/
theorem evaluateAll_respaced_stray :
    evaluateAll "1 +$2" = .error (.strayCharacter '$' 3) ∧
    ∃ n, evaluateAll "\n1\t+ $ 2 " = .error (.strayCharacter '$' n) ∧
      SamePlace "1 +$2".toList "\n1\t+ $ 2 ".toList 3 n := by
  have hgap (c : Char) (hc : isBlank c = true) : ∀ c' ∈ [c], isBlank c' = true := by
    simpa using hc
  have hend : Respaced 5 [] [' '] := .blanks (by simp) (hgap ' ' rfl)
  have htwo : Respaced 4 ['2'] [' ', '2', ' '] :=
    .piece (x := ⟨[], ['2'], .token ⟨.literal .integer, "2", 4⟩⟩) (by decide +kernel)
      (hgap ' ' rfl) (by simp) hend
  have hstray : Respaced 3 ['$', '2'] [' ', '$', ' ', '2', ' '] :=
    .piece (x := ⟨[], ['$'], .stray '$' 3⟩) (by decide +kernel) (hgap ' ' rfl) (by simp) htwo
  have hplus : Respaced 1 [' ', '+', '$', '2'] ['\t', '+', ' ', '$', ' ', '2', ' '] :=
    .piece (x := ⟨[' '], ['+'], .token (.symbol (.operator .plus) 2)⟩) (by decide +kernel)
      (hgap '\t' rfl) (by simp) hstray
  have hspaced : Respaced 0 "1 +$2".toList "\n1\t+ $ 2 ".toList :=
    .piece (x := ⟨[], ['1'], .token ⟨.literal .integer, "1", 0⟩⟩) (by decide +kernel)
      (hgap '\n' rfl) (by simp) hplus
  obtain ⟨f, -, hplaces, -, -, -, hall⟩ := answers_respaced _ _ hspaced
  have herror : evaluateAll "1 +$2" = .error (.strayCharacter '$' 3) := by
    decide +kernel
  have hmem : .stray '$' 3 ∈ (Lexer.ofString "1 +$2").itemsToEnd := by
    decide +kernel
  rw [herror] at hall
  exact ⟨herror, f 3, hall, hplaces _ hmem⟩

end Calculator
