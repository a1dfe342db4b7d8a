import Calculator.Proofs.Answers
import Calculator.Proofs.Tiling

/-!
# A cursor is an index

A cursor reads items when they are asked for and keeps at most one token for later. Whoever calls it
cannot tell this from an index into the list of all items, which were read beforehand. Looking shows
the item at the index and stays there as long as it is a token. Passing, expecting and meeting a
stray character go on to the next item. Beyond the last item there is the end mark, for ever.

The invariant is that the cursor shows the items from the index on. One lemma says of every call
that it keeps the invariant, what it answers, and that it leaves a token looked at exactly when it
has not moved; the statement on all histories is an induction on top of it.
-/

namespace Calculator

/-- A list of items that have all been read, the end mark after them, and an index into them. -/
structure ItemIndex where
  items : List Item
  mark : Token
  index : Nat
  deriving DecidableEq, Repr

/-- The item at the index, which is the end mark beyond the last item. -/
def ItemIndex.item (x : ItemIndex) : Item :=
  x.items[x.index]?.getD (.token x.mark)

/-- What is found where an item is next: a token, or the error of a stray character. -/
def Item.found : Item → Except Error Token
  | token t => .ok t
  | stray c p => .error (.strayCharacter c p)

/-- The token that an item is. -/
def Item.token? : Item → Option Token
  | token t => some t
  | stray _ _ => none

namespace Cursor

/-- Look at the kind of the next token without passing it. -/
def peekKind : Parser Token.Kind := do
  return (← peek).kind

/-- The calls that a cursor answers. -/
inductive Call where
  | peek
  | peekKind
  | advance
  | expect (kind : Token.Kind) (expected : String)
  deriving DecidableEq, Repr

/-- What a cursor answers: a token or the kind of one, or an error. -/
inductive Reply where
  | token (found : Except Error Token)
  | kind (found : Except Error Token.Kind)
  deriving DecidableEq

/-- What a cursor answers to a call. -/
def Call.answer : Call → Cursor → Reply
  | peek, s => .token (Cursor.peek.answer s)
  | peekKind, s => .kind (Cursor.peekKind.answer s)
  | advance, s => .token (Cursor.advance.answer s)
  | expect kind expected, s => .token ((Cursor.expect kind expected).answer s)

/-- Where a call leaves a cursor, whether it succeeds or fails. -/
def Call.leave : Call → Cursor → Cursor
  | peek => Parser.leave Cursor.peek
  | peekKind => Parser.leave Cursor.peekKind
  | advance => Parser.leave Cursor.advance
  | expect kind expected => Parser.leave (Cursor.expect kind expected)

/-- What a cursor answers to calls after one another, whether they succeed or fail. -/
def answers : List Call → Cursor → List Reply
  | [], _ => []
  | call :: calls, s => call.answer s :: answers calls (call.leave s)

/-- Where calls leave a cursor. -/
def after (calls : List Call) (s : Cursor) : Cursor :=
  calls.foldl (fun s call => call.leave s) s

/-- The item that is named in an answer. -/
def Reply.item? : Reply → Option Item
  | token (.ok t) | token (.error (.parsing (.unexpectedToken _ t))) => some (.token t)
  | token (.error (.strayCharacter c p)) | kind (.error (.strayCharacter c p)) => some (.stray c p)
  | _ => none

/-- The item that a call has passed, as far as its answer tells; the end mark is not one. -/
def Call.passed? : Call → Reply → Option Item
  | peek, .token (.ok _) => none
  | _, reply => reply.item?.filter fun item => !item.isEndMark

/-- The items that calls have passed, as far as the answers tell. -/
def passed (calls : List Call) (s : Cursor) : List Item :=
  (calls.zip (answers calls s)).filterMap fun entry => entry.1.passed? entry.2

/-- What a call is told of the item that is next. -/
def Call.reply : Call → Item → Reply
  | peek, item | advance, item => .token item.found
  | peekKind, item => .kind (item.found.map Token.kind)
  | expect kind expected, item => .token (item.found.bind fun t =>
      if t.kind = kind then .ok t else .error (.parsing (.unexpected expected t)))

/-- The token that a call leaves to be looked at again; nothing when it goes on to the next item. -/
def Call.kept? : Call → Item → Option Token
  | peek, item | peekKind, item => item.token?
  | advance, _ | expect _ _, _ => none

end Cursor

namespace ItemIndex

open Cursor (Call Reply)

/-- The index after a call: it stays where a token was looked at, and goes on by one otherwise. -/
def leave (x : ItemIndex) (call : Call) : ItemIndex :=
  if (call.kept? x.item).isSome then x else { x with index := x.index + 1 }

/-- The index after calls. -/
def after (x : ItemIndex) (calls : List Call) : ItemIndex :=
  calls.foldl leave x

/-- Calls change nothing but the index. -/
theorem after_eq (x : ItemIndex) (calls : List Call) :
    x.after calls = ⟨x.items, x.mark, (x.after calls).index⟩ := by
  induction calls generalizing x with
  | nil => rfl
  | cons call calls ih =>
    have hsame : (x.leave call).items = x.items ∧ (x.leave call).mark = x.mark := by
      rw [leave]
      split <;> exact ⟨rfl, rfl⟩
    have hrest := ih (x.leave call)
    rwa [hsame.1, hsame.2] at hrest

/-- What calls after one another are told. -/
def answers (x : ItemIndex) : List Call → List Reply
  | [] => []
  | call :: calls => call.reply x.item :: (x.leave call).answers calls

end ItemIndex

/-- What is made of an answer alone leaves the cursor where the answer has left it. -/
theorem Parser.answer_bind {α β : Type} {p : Parser α} {f : α → Parser β} {g : α → Except Error β}
    (hf : ∀ a s, (f a).answer s = g a ∧ (f a).leave s = s) (s : Cursor) :
    (p >>= f).answer s = (p.answer s).bind g ∧ (p >>= f).leave s = p.leave s := by
  simp only [Parser.answer, Parser.leave, Bind.bind, EStateM.bind] at hf ⊢
  cases p s with
  | ok a s' => exact hf a s'
  | error e s' => exact ⟨rfl, rfl⟩

namespace Cursor

variable {s s' : Cursor} {mark : Token} {u : List Item} {e : Error}

/-- Passing leaves no token looked at. -/
theorem lookahead_leave_advance (s : Cursor) : (Parser.leave advance s).lookahead = none := by
  simp only [Parser.leave, advance]
  cases s.lookahead with
  | some t => rfl
  | none =>
    cases s.lexer.pull with
    | mk item lexer => cases item <;> rfl

/-- Looking at a stray character leaves no token looked at. -/
theorem lookahead_of_peek_error (h : peek s = .error e s') : s'.lookahead = none := by
  have hnone := lookahead_leave_advance s
  rwa [Parser.leave, peek_eq_error_iff.mp h] at hnone

namespace Shows

/-- Looking finds the next item and keeps it if it is a token. -/
theorem looking (h : s.Shows mark u) :
    peek.answer s = (nextItem mark u).found ∧
      (Parser.leave peek s).lookahead = Call.peek.kept? (nextItem mark u) ∧
      (Parser.leave peek s).Shows mark
        (if (Call.peek.kept? (nextItem mark u)).isSome then u else u.tail) := by
  simp only [Parser.answer, Parser.leave]
  cases hnext : nextItem mark u with
  | token t =>
    obtain ⟨s', hpeek, hshows⟩ := h.peek_token hnext
    rw [hpeek]
    exact ⟨rfl, (peek_ok hpeek).1, hshows⟩
  | stray c p =>
    obtain ⟨s', hpeek, hshows⟩ := h.peek_stray hnext
    rw [hpeek]
    exact ⟨rfl, lookahead_of_peek_error hpeek, hshows⟩

/-- Passing finds the next item and keeps nothing. -/
theorem passing (h : s.Shows mark u) :
    advance.answer s = (nextItem mark u).found ∧ (Parser.leave advance s).lookahead = none ∧
      (Parser.leave advance s).Shows mark u.tail := by
  have hnone := lookahead_leave_advance s
  simp only [Parser.answer, Parser.leave] at hnone ⊢
  cases hnext : nextItem mark u with
  | token t =>
    obtain ⟨s', hadvance, hshows⟩ := h.advance_token hnext
    rw [hadvance] at hnone ⊢
    exact ⟨rfl, hnone, hshows⟩
  | stray c p =>
    obtain ⟨s', hadvance, hshows⟩ := h.advance_stray hnext
    rw [hadvance] at hnone ⊢
    exact ⟨rfl, hnone, hshows⟩

/-- What a call does at a cursor is decided by the next item: what it answers, which token it keeps,
and that it passes the item unless it keeps a token. -/
theorem call (h : s.Shows mark u) (call : Call) :
    call.answer s = call.reply (nextItem mark u) ∧
      (call.leave s).lookahead = call.kept? (nextItem mark u) ∧
      (call.leave s).Shows mark
        (if (call.kept? (nextItem mark u)).isSome then u else u.tail) := by
  obtain ⟨hlook, hlooked⟩ := h.looking
  obtain ⟨hpass, hpassed⟩ := h.passing
  cases call with
  | peek => exact ⟨congrArg Reply.token hlook, hlooked⟩
  | peekKind =>
    obtain ⟨hanswer, hleave⟩ := Parser.answer_bind (p := peek) (g := fun t => .ok t.kind)
      (f := fun t => pure t.kind) (fun t s => ⟨rfl, rfl⟩) s
    refine ⟨congrArg Reply.kind ?_, ?_⟩
    · rw [peekKind, hanswer, hlook]
      cases (nextItem mark u) <;> rfl
    · rw [Call.leave, peekKind, hleave]
      exact hlooked
  | advance => exact ⟨congrArg Reply.token hpass, hpassed⟩
  | expect kind expected =>
    obtain ⟨hanswer, hleave⟩ := Parser.answer_bind (p := advance)
      (f := fun t => if t.kind = kind then pure t else throw (.parsing (.unexpected expected t)))
      (g := fun t => if t.kind = kind then .ok t else .error (.parsing (.unexpected expected t)))
      (fun t s => by split <;> exact ⟨rfl, rfl⟩) s
    refine ⟨congrArg Reply.token ?_, ?_⟩
    · rw [expect, hanswer, hpass]
    · rw [Call.leave, expect, hleave]
      exact hpassed

/-- An item that is looked at and kept is not passed. Any other is, unless it is an end mark. -/
theorem passed?_reply (call : Call) (item : Item) :
    call.passed? (call.reply item) =
      if (call.kept? item).isSome ∨ item.isEndMark then none else some item := by
  cases item with
  | stray c p => cases call <;> rfl
  | token t =>
    cases call with
    | peek | peekKind => rfl
    | advance =>
      by_cases hend : t.kind = .endOfInput <;>
        simp [Call.passed?, Call.reply, Item.found, Reply.item?, Call.kept?, Item.isEndMark, hend]
    | expect kind expected =>
      simp only [Call.reply, Item.found, Except.bind, Call.kept?]
      split <;> by_cases hend : t.kind = .endOfInput <;>
        simp [Call.passed?, Reply.item?, SyntaxError.unexpected, Item.isEndMark, hend]

/-- What a call passes and what is unread after it is what was unread before. -/
theorem passed_append_unread (h : s.Shows mark u) (call : Call) :
    (call.passed? (call.answer s)).toList ++ (call.leave s).unread = u := by
  obtain ⟨hanswer, -, hleave⟩ := h.call call
  rw [hanswer, passed?_reply, hleave.unread]
  have hend := h.isEndMark_nextItem
  cases u with
  | nil => simp [hend]
  | cons item u =>
    have hitem : item.isEndMark = false := hend
    by_cases hkept : (call.kept? item).isSome <;> simp [nextItem, hitem, hkept]

/-- Calls pass items in order and leave the others. -/
theorem passed_append (h : s.Shows mark u) (calls : List Call) :
    passed calls s ++ (after calls s).unread = u := by
  induction calls generalizing s u with
  | nil => exact h.unread
  | cons call calls ih =>
    have hleft := h.passed_append_unread call
    have hrest := ih (u := (call.leave s).unread) (by
      have hleave := (h.call call).2.2
      exact hleave.unread.symm ▸ hleave)
    have hpassed : passed (call :: calls) s =
        (call.passed? (call.answer s)).toList ++ passed calls (call.leave s) := by
      rw [passed, answers, List.zip_cons_cons, List.filterMap_cons]
      cases call.passed? (call.answer s) <;> rfl
    rw [hpassed, List.append_assoc, ← hleft]
    exact congrArg _ hrest

/-- When nothing is left, every call meets the end mark. -/
theorem answers_nil (h : s.Shows mark []) (calls : List Call) :
    answers calls s = calls.map fun call => call.reply (.token mark) := by
  induction calls generalizing s with
  | nil => rfl
  | cons call calls ih =>
    obtain ⟨hanswer, -, hleave⟩ := h.call call
    rw [answers, hanswer, ih (by simpa using hleave)]
    rfl

end Shows

/-- A cursor that shows the items of a list from the index on. -/
def At (x : ItemIndex) (s : Cursor) : Prop :=
  s.Shows x.mark (x.items.drop x.index)

namespace At

variable {x : ItemIndex}

/-- The item at the index is the next one. -/
theorem nextItem_eq (x : ItemIndex) : nextItem x.mark (x.items.drop x.index) = x.item := by
  rw [nextItem, List.headD_eq_head?_getD, List.head?_drop, ItemIndex.item]

/-- A call is answered as the item at the index says. -/
theorem answer (h : s.At x) (call : Call) : call.answer s = call.reply x.item := by
  rw [(h.call call).1, nextItem_eq]

/-- A call keeps the token at the index when it has looked at it, and nothing otherwise. -/
theorem lookahead (h : s.At x) (call : Call) : (call.leave s).lookahead = call.kept? x.item := by
  rw [(h.call call).2.1, nextItem_eq]

/-- After a call the cursor is where the index is. -/
theorem leave (h : s.At x) (call : Call) : (call.leave s).At (x.leave call) := by
  have hshows := (h.call call).2.2
  rw [nextItem_eq] at hshows
  rw [At, ItemIndex.leave]
  split
  · rename_i hkept
    rwa [if_pos hkept] at hshows
  · rename_i hkept
    rwa [if_neg hkept, List.tail_drop] at hshows

/-- Calls are answered as the index is told, and after them the cursor is where the index is. -/
theorem answers (h : s.At x) (calls : List Call) :
    answers calls s = x.answers calls ∧ (after calls s).At (x.after calls) := by
  induction calls generalizing s x with
  | nil => exact ⟨rfl, h⟩
  | cons call calls ih =>
    obtain ⟨hanswers, hafter⟩ := ih (h.leave call)
    refine ⟨?_, hafter⟩
    rw [Cursor.answers, ItemIndex.answers, hanswers, h.answer]

end At

/-- Calls of a cursor, also after failures, are answered as an index into the list of all items is
told. Each item is passed once and in order, a token is kept when it was looked at, and beyond the
last item every call meets the end mark. -/
theorem answers_eq_index (source : String) (skipped : Nat) (calls : List Call) :
    let items := (Lexer.ofString source).items
    let mark : Token := .symbol .endOfInput source.utf8ByteSize
    let start := ofLexer ((Lexer.ofString source).passing skipped)
    let x : ItemIndex := ⟨items, mark, skipped⟩
    let s := after calls start
    let i := (x.after calls).index
    answers calls start = x.answers calls ∧
    (∀ n, ((Lexer.ofString source).passing n).pull.1 = items[n]?.getD (.token mark)) ∧
    passed calls start ++ items.drop i = items.drop skipped ∧
    s.unread = items.drop i ∧
    (∀ call : Call, (call.leave s).lookahead = call.kept? (items[i]?.getD (.token mark))) ∧
    (items.length ≤ i →
      ∀ later, answers later s = later.map fun call => call.reply (.token mark)) := by
  intro items mark start x s i
  have hmark : (Lexer.ofString source).endMark = mark := Lexer.endMark_ofString source
  have hstart : start.At x := by
    have hshows := shows_ofLexer ((Lexer.ofString source).passing skipped)
    rwa [Lexer.passing_items, Lexer.passing_endMark, hmark] at hshows
  obtain ⟨hanswers, hs⟩ := hstart.answers calls
  have hx : x.after calls = ⟨items, mark, i⟩ := x.after_eq calls
  rw [hx] at hs
  have hunread : s.unread = items.drop i := Shows.unread hs
  refine ⟨hanswers, fun n => hmark ▸ Lexer.passing_pull n _, ?_, hunread, hs.lookahead,
    fun hi later => ?_⟩
  · rw [← hunread]
    exact Shows.passed_append hstart calls
  · have hnil : s.Shows mark [] := List.drop_eq_nil_of_le hi ▸ hs
    exact hnil.answers_nil later

/-- A stray character is reported once, and a token is shown as often as it is looked at. -/
example :
    let one : Token := ⟨.literal .integer, "1", 1⟩
    answers [.peek, .peek, .peekKind, .advance, .advance] (ofString "?1") =
      [.token (.error (.strayCharacter '?' 0)), .token (.ok one), .kind (.ok (.literal .integer)),
        .token (.ok one), .token (.ok (.symbol .endOfInput 2))] := by
  decide +kernel

end Cursor

end Calculator
