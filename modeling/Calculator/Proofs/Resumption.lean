import Calculator.Proofs.Answers
import Calculator.Proofs.Lockstep
import Calculator.Proofs.Placement

/-!
# Parsers carry no memory

After any history of calls a parser stands at a place of its source: before the token it has looked
at, if there is one, and otherwise where its lexer stands. What it answers from then on is what a
fresh parser answers on the text from this place, with every position moved by it. Neither the calls
that were made nor the errors that were met make any further difference.

There are two halves. Looking and advancing keep a cursor in place: its items are those of the text
from its place on. And two cursors that show the same items at different positions are in lockstep,
so their answers differ in these positions alone.
-/

namespace Calculator

variable {source : String} {f : Nat → Nat}

/-- The answer with every position in it moved. -/
def Answer.move (f : Nat → Nat) : Answer → Answer
  | tree found => tree ((found.map (Option.map (Expr.move f))).mapError (Error.move f))
  | value found => value (found.mapError (Error.move f))
  | finished reached => finished (reached.mapError (Error.move f))
  | listed result => listed (result.map (Except.mapError (Error.move f)))

/-- The byte of the source before which a cursor stands: that of the token it has looked at, or
where its lexer stands. -/
def Cursor.place (s : Cursor) : Nat :=
  match s.lookahead with
  | some t => t.position
  | none => s.lexer.position

/-- A lexer whose text is that of a source from the byte where the lexer stands. -/
def Lexer.InPlace (source : String) (l : Lexer) : Prop :=
  ∃ front, source.toList = front ++ l.rest ∧ byteCount front = l.position

/-- A cursor whose lexer is in place, and so is a lexer that stands before the token looked at and
delivers what the cursor shows. -/
structure Cursor.InPlace (source : String) (s : Cursor) : Prop where
  lexer : s.lexer.InPlace source
  lookahead : ∀ t, s.lookahead = some t →
    ∃ l : Lexer, l.InPlace source ∧ l.position = t.position ∧ s.Shows l.endMark l.items

namespace Lexer

variable {l : Lexer}

/-- A lexer at the start of a source is in place. -/
theorem inPlace_ofString (source : String) : (ofString source).InPlace source :=
  ⟨[], rfl, rfl⟩

/-- Skipping keeps a lexer in place. -/
theorem InPlace.skip (h : l.InPlace source) (n : Nat) : (l.skip n).InPlace source := by
  obtain ⟨front, hsource, hposition⟩ := h
  refine ⟨front ++ l.rest.take n, ?_, ?_⟩
  · simpa [Lexer.skip] using hsource
  · rw [byteCount_append, hposition, Lexer.skip]

/-- A pull keeps a lexer in place. -/
theorem InPlace.pull (h : l.InPlace source) : l.pull.2.InPlace source := by
  have hblanks : l.skipBlanks.InPlace source := h.skip _
  simp only [Lexer.pull, next?]
  split
  · exact h
  · split
    · exact hblanks.skip _
    · exact hblanks.skip 1

/-- Pulls keep a lexer in place. -/
theorem InPlace.passing (h : l.InPlace source) (n : Nat) : (l.passing n).InPlace source := by
  induction n generalizing l with
  | zero => exact h
  | succ n ih => exact ih h.pull

/-- What is pulled stands where the blanks end. -/
theorem pull_position (l : Lexer) : l.pull.1.position = l.skipBlanks.position := by
  simp only [pull, next?]
  split
  · rename_i hrest
    have hend := skip_end (l.rest.takeWhile isBlank).length l
    rw [← skipBlanks, hrest] at hend
    exact hend.symm
  · split <;> rfl

/-- Skipping blanks skips no items. -/
theorem items_skipBlanks (l : Lexer) : l.skipBlanks.items = l.items := by
  obtain ⟨cs, p⟩ := l
  obtain ⟨blanks, rest, rfl, hblanks, hrest⟩ := exists_blanks cs
  rw [skipBlanks_append hblanks hrest, items_blanks hblanks]

/-- Skipping blanks leaves the end where it is. -/
theorem endMark_skipBlanks (l : Lexer) : l.skipBlanks.endMark = l.endMark := by
  simp [endMark, skipBlanks, skip_end]

end Lexer

namespace Cursor

variable {s : Cursor}

/-- A cursor that has looked at nothing is in place with its lexer. -/
theorem inPlace_ofLexer {l : Lexer} (h : l.InPlace source) : (ofLexer l).InPlace source :=
  ⟨h, by simp [ofLexer]⟩

/-- Looking at a token keeps a cursor in place. -/
theorem InPlace.peek (h : s.InPlace source) : (Parser.leave Cursor.peek s).InPlace source := by
  obtain ⟨lexer, lookahead⟩ := s
  cases lookahead with
  | some t => exact h
  | none =>
    have hlexer := h.lexer.pull
    have hposition := lexer.pull_position
    obtain ⟨l, hpull, -, -⟩ := lexer.pull_eq
    rw [hpull] at hlexer hposition
    cases hitem : nextItem lexer.endMark lexer.items with
    | stray c p =>
      simp only [Parser.leave, Cursor.peek, hpull, hitem]
      exact inPlace_ofLexer hlexer
    | token t =>
      obtain ⟨s', hpeek, hshows⟩ := (shows_ofLexer lexer).peek_token hitem
      obtain rfl : (⟨l, some t⟩ : Cursor) = s' := by
        simpa [Cursor.peek, ofLexer, hpull, hitem] using hpeek
      simp only [Parser.leave, Cursor.peek, hpull, hitem]
      refine ⟨hlexer, fun t' ht' => ?_⟩
      obtain rfl : t = t' := Option.some.inj ht'
      refine ⟨lexer.skipBlanks, h.lexer.skip _, ?_, ?_⟩
      · rw [← hposition, hitem]
        rfl
      · rw [Lexer.endMark_skipBlanks, Lexer.items_skipBlanks]
        exact hshows

/-- Advancing keeps a cursor in place. -/
theorem InPlace.advance (h : s.InPlace source) :
    (Parser.leave Cursor.advance s).InPlace source := by
  obtain ⟨lexer, lookahead⟩ := s
  cases lookahead with
  | some t => exact inPlace_ofLexer h.lexer
  | none =>
    have hlexer := h.lexer.pull
    simp only [Parser.leave, Cursor.advance]
    cases hpull : lexer.pull with
    | mk item l =>
      rw [hpull] at hlexer
      cases item <;> exact inPlace_ofLexer hlexer

/-- A cursor in place shows what the text from its place on holds. -/
theorem InPlace.exists_lexer (h : s.InPlace source) :
    ∃ l : Lexer, l.InPlace source ∧ l.position = s.place ∧ s.Shows l.endMark l.items := by
  obtain ⟨lexer, lookahead⟩ := s
  cases lookahead with
  | some t => exact h.lookahead t rfl
  | none => exact ⟨lexer, h.lexer, rfl, shows_ofLexer lexer⟩

end Cursor

/-- Cursors that show the same items, at places that the map gives for those of the first. -/
def Cursor.MovedTo (f : Nat → Nat) (s s' : Cursor) : Prop :=
  ∃ mark u, s.Shows mark u ∧ s'.Shows (mark.move f) (u.map (Item.move f))

/-- Giving items other places, as a change of items. -/
def moving (f : Nat → Nat) : Relabelling where
  token := Token.move f
  item := Item.move f
  error := Error.move f
  kind_eq _ := rfl
  item_token _ := rfl
  item_stray c p := ⟨c, f p, rfl, rfl⟩
  unexpected expected _ := Error.move_unexpected expected

/-- Cursors that show the same items at different places are in lockstep. -/
def Lockstep.moved (f : Nat → Nat) : Lockstep where
  cursors := Cursor.MovedTo f
  tokens t t' := t' = t.move f
  errors e e' := e' = e.move f
  kind_eq ht := ht ▸ rfl
  unexpected expected ht := ht ▸ (Error.move_unexpected expected).symm
  peek := (moving f).lockstep.peek
  advance := (moving f).lockstep.advance

/-- Trees that are in lockstep at different places are the same tree moved. -/
theorem Lockstep.Trees.eq_move {e e' : Expr} (h : (moved f).Trees e e') : e' = e.move f := by
  induction h with
  | leaf ht => exact congrArg Expr.leaf ht
  | signed ht _ ihe => rw [ihe, show _ = Token.move f _ from ht, Expr.move]
  | binary ht _ _ ihl ihr => rw [ihl, ihr, show _ = Token.move f _ from ht, Expr.move]

/-- Parsers in step whose answers and errors are changed give the same answer changed. -/
theorem InStep.answer_eq {α β : Type} {s s' : Cursor} {cursors : Cursor → Cursor → Prop}
    {p : Parser α} {q : Parser β} {answers : α → β → Prop} {g : α → β} {change : Error → Error}
    (h : InStep cursors (fun e e' => e' = change e) answers (p s) (q s'))
    (hanswers : ∀ a b, answers a b → b = g a) :
    q.answer s' = ((p.answer s).map g).mapError change := by
  simp only [Parser.answer]
  generalize p s = x at h
  generalize q s' = y at h
  cases h with
  | ok ha _ => simp only [hanswers _ _ ha, Except.map, Except.mapError]
  | error he _ => simp only [he, Except.map, Except.mapError]

/-- Parsers in step whose errors alone are changed give the same answer with its error changed. -/
theorem InStep.answer_eq_mapError {α : Type} {s s' : Cursor} {cursors : Cursor → Cursor → Prop}
    {p q : Parser α} {change : Error → Error}
    (h : InStep cursors (fun e e' => e' = change e) Eq (p s) (q s')) :
    q.answer s' = (p.answer s).mapError change := by
  rw [h.answer_eq (g := id) fun _ _ hab => hab.symm]
  cases p.answer s <;> rfl

namespace Parser

variable {s s' : Cursor}

/-- The value of the next expression, as the next tree is answered. -/
theorem answer_nextValue (s : Cursor) :
    Parser.nextValue.answer s =
      match Parser.next.answer s with
      | .ok none => .ok none
      | .ok (some e) => (e.value.map some).mapError .evaluation
      | .error e => .error e := by
  simp only [answer, nextValue_eq]
  cases Parser.next s with
  | error e t => rfl
  | ok found t =>
    cases found with
    | none => rfl
    | some e =>
      simp only
      cases e.value <;> rfl

/-- A call at another place of the same items is answered the same, moved. -/
theorem Call.answer_moved (h : (Lockstep.moved f).cursors s s') (call : Call) :
    call.answer s' = (call.answer s).move f := by
  have hnext : Parser.next.answer s' =
      ((Parser.next.answer s).map (Option.map (Expr.move f))).mapError (Error.move f) := by
    refine ((Lockstep.moved f).next h).answer_eq fun a b hab => ?_
    cases hab with
    | none => rfl
    | some he => exact congrArg some he.eq_move
  cases call with
  | next => exact congrArg Answer.tree hnext
  | nextValue =>
    refine congrArg Answer.value ?_
    simp only [answer_nextValue, hnext]
    cases Parser.next.answer s with
    | error e => rfl
    | ok found =>
      cases found with
      | none => rfl
      | some e =>
        simp only [Except.map, Except.mapError, Option.map, Expr.value_move]
        cases e.value <;> rfl
  | expectEnd => exact congrArg Answer.finished ((Lockstep.moved f).expectEnd h).answer_eq_mapError

/-- Calls at another place of the same items are answered the same, moved. -/
theorem answers_moved (h : (Lockstep.moved f).cursors s s') (calls : List Call) :
    answers calls s' = (answers calls s).map (Answer.move f) := by
  induction calls generalizing s s' with
  | nil => rfl
  | cons call calls ih =>
    rw [answers, answers, call.answer_moved h, ih ((Lockstep.moved f).leave h call), List.map_cons]

end Parser

/-- A text at a byte of a source is shown as the text alone is, moved by that byte. -/
theorem Lockstep.moved_ofString {s : Cursor} {rest : String} {p : Nat}
    (hs : s.Shows (Lexer.endMark ⟨rest.toList, p⟩) (Lexer.items ⟨rest.toList, p⟩)) :
    (moved (· + p)).cursors (.ofString rest) s := by
  refine ⟨_, _, Cursor.shows_ofString rest, ?_⟩
  have hitems := Lexer.items_move rest.toList 0 p
  have hmark : Lexer.endMark ⟨rest.toList, p⟩ = (Lexer.ofString rest).endMark.move (· + p) := by
    simp [Lexer.endMark, Lexer.ofString, Token.move, Token.symbol, Nat.add_comm]
  rw [Nat.zero_add] at hitems
  rwa [hitems, hmark] at hs

/-- The bytes of a prefix of a text determine it. -/
theorem eq_of_byteCount_eq {front front' rest rest' : List Char}
    (h : front ++ rest = front' ++ rest') (hbytes : byteCount front = byteCount front') :
    front = front' ∧ rest = rest' := by
  induction front generalizing front' with
  | nil =>
    cases front' with
    | nil => exact ⟨rfl, h⟩
    | cons c front' =>
      have := c.utf8Size_pos
      simp only [byteCount] at hbytes
      omega
  | cons c front ih =>
    cases front' with
    | nil =>
      have := c.utf8Size_pos
      simp only [byteCount] at hbytes
      omega
    | cons c' front' =>
      simp only [List.cons_append, List.cons.injEq] at h
      obtain ⟨rfl, h⟩ := h
      simp only [byteCount] at hbytes
      obtain ⟨rfl, hrest⟩ := ih h (by omega)
      exact ⟨rfl, hrest⟩

/-- After any calls the cursor of a parser stands between two characters of the source. Further
calls are answered as by a fresh parser on the text from there on, with every position moved,
whether the blanks that come next are counted to this text or not. -/
theorem answers_resumed (source : String) (skipped : Nat) (calls : List Parser.Call) :
    let s := Parser.after calls (.ofLexer ((Lexer.ofString source).passing skipped))
    (∃ front rest : String, source = front ++ rest ∧ front.utf8ByteSize = s.place) ∧
    ∀ front blanks rest : String, source = front ++ blanks ++ rest →
      front.utf8ByteSize = s.place → (∀ c ∈ blanks.toList, isBlank c = true) →
      ∀ later, Parser.answers later s =
        (Parser.answers later (.ofString rest)).map
          (Answer.move (· + (s.place + blanks.utf8ByteSize))) := by
  intro s
  have hlexer := (Lexer.inPlace_ofString source).passing skipped
  have hs : s.InPlace source := Parser.invariant_after (fun _ h => h.peek) (fun _ h => h.advance)
    (Cursor.inPlace_ofLexer hlexer) calls
  obtain ⟨⟨cs, p⟩, ⟨front₀, hsource, hplace₀⟩, hplace, hshows⟩ := hs.exists_lexer
  simp only at hsource hplace₀ hplace
  constructor
  · refine ⟨.ofList front₀, .ofList cs, ?_, ?_⟩
    · rw [← String.ofList_append, ← hsource, String.ofList_toList]
    · rw [← byteCount_toList, String.toList_ofList, hplace₀, hplace]
  · intro front blanks rest hsplit hfront hblanks later
    have hlist : front₀ ++ cs = front.toList ++ (blanks.toList ++ rest.toList) := by
      rw [← hsource, hsplit]
      simp
    obtain ⟨-, rfl⟩ := eq_of_byteCount_eq hlist
      (by rw [hplace₀, hplace, ← hfront, byteCount_toList])
    have hmark : Lexer.endMark ⟨blanks.toList ++ rest.toList, p⟩ =
        Lexer.endMark ⟨rest.toList, p + byteCount blanks.toList⟩ := by
      simp [Lexer.endMark, byteCount_append, Nat.add_assoc]
    rw [hmark, Lexer.items_blanks hblanks] at hshows
    rw [Parser.answers_moved (Lockstep.moved_ofString hshows), hplace, byteCount_toList]

end Calculator
