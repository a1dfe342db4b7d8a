import Calculator.Cursor

/-!
# What a cursor shows

To whoever reads from it, a cursor is the list of items it has not passed and the end mark after
them. Whether the next token has already been looked at makes no difference. `Cursor.Shows` ties a
cursor to this view. Each operation is described by it alone: looking at a token keeps the view,
advancing takes the first item off, and a stray character is taken off by both. The end mark is
never used up.
-/

namespace Calculator

/-- The item that comes next: the first one, or the end mark when there is none. -/
def nextItem (mark : Token) (u : List Item) : Item :=
  u.headD (.token mark)

/-- Whether an item is a mark of the end. -/
def Item.isEndMark : Item → Bool
  | token t => t.kind = .endOfInput
  | stray _ _ => false

/-- Every item that a lexer delivers is delivered by a single reading. -/
theorem Lexer.forall_mem_items {P : Item → Prop}
    (h : ∀ (l : Lexer) (item : Item) (l' : Lexer), l.next? = some (item, l') → P item)
    (l : Lexer) : ∀ item ∈ l.items, P item := by
  fun_induction Lexer.items l with
  | case1 l hnone => simp
  | case2 l item l' hnext ih =>
    intro item' hmem
    rcases List.mem_cons.mp hmem with rfl | hmem
    · exact h l _ l' hnext
    · exact ih item' hmem

/-- What a lexer reads is no mark of the end. -/
theorem Lexer.isEndMark_of_next? {l l' : Lexer} {item : Item} (h : l.next? = some (item, l')) :
    item.isEndMark = false := by
  cases item with
  | token t => simpa [Item.isEndMark] using next?_kind h
  | stray c p => rfl

/-- None of the items is a mark of the end. -/
theorem Lexer.isEndMark_of_mem_items {l : Lexer} {item : Item} (h : item ∈ l.items) :
    item.isEndMark = false :=
  forall_mem_items (fun _ _ _ => isEndMark_of_next?) l item h

/-- The end mark comes next exactly when there are no items, if none of them is such a mark. -/
theorem isEndMark_nextItem {mark : Token} {u : List Item} (hmark : mark.kind = .endOfInput)
    (hu : ∀ item ∈ u, item.isEndMark = false) : (nextItem mark u).isEndMark = u.isEmpty := by
  cases u with
  | nil => simp [nextItem, Item.isEndMark, hmark]
  | cons item u => exact hu item List.mem_cons_self

/-- A pull takes the next item and leaves the end mark where it is. -/
theorem Lexer.pull_eq (l : Lexer) :
    ∃ l', l.pull = (nextItem l.endMark l.items, l') ∧ l'.items = l.items.tail ∧
      l'.endMark = l.endMark := by
  cases hnext : l.next? with
  | none =>
    have hitems := items_of_none hnext
    exact ⟨l, by simp [pull, hnext, hitems, nextItem], by simp [hitems], rfl⟩
  | some found =>
    obtain ⟨item, l'⟩ := found
    have hitems := items_of_some hnext
    exact ⟨l', by simp [pull, hnext, hitems, nextItem], by simp [hitems], next?_endMark hnext⟩

/-- Before a lexer is at its end, the tokens it delivers are not end marks. -/
theorem Lexer.kind_ne_endOfInput {l : Lexer} {t : Token} (h : .token t ∈ l.items) :
    t.kind ≠ .endOfInput := by
  simpa [Item.isEndMark] using isEndMark_of_mem_items h

namespace Cursor

/-- A cursor shows a list of items and the end mark after them. An end mark that was looked at is
this one, and then nothing is left. -/
structure Shows (s : Cursor) (mark : Token) (u : List Item) : Prop where
  unread : s.unread = u
  endMark : s.lexer.endMark = mark
  atEnd : ∀ t, s.lookahead = some t → t.kind = .endOfInput → t = mark ∧ s.lexer.items = []

/-- A fresh cursor shows all that its lexer delivers. -/
theorem shows_ofLexer (l : Lexer) : (ofLexer l).Shows l.endMark l.items :=
  ⟨rfl, rfl, by simp [ofLexer]⟩

namespace Shows

variable {s : Cursor} {mark t : Token} {u : List Item} {c : Char} {p : Nat}

/-- The end mark stands for the end. -/
theorem mark_kind (h : s.Shows mark u) : mark.kind = .endOfInput := by
  rw [← h.endMark]
  rfl

/-- A token that was looked at is the next item. -/
theorem of_lookahead (h : s.Shows mark u) (ht : s.lookahead = some t) :
    nextItem mark u = .token t ∧ s.lexer.items = u.tail := by
  have hunread := h.unread
  simp only [Cursor.unread, ht] at hunread
  split at hunread
  · rename_i hend
    obtain ⟨rfl, hitems⟩ := h.atEnd t ht hend
    simp [← hunread, hitems, nextItem]
  · simp [← hunread, nextItem]

/-- A cursor that has looked at nothing shows what its lexer delivers. -/
theorem of_no_lookahead (h : s.Shows mark u) (hnone : s.lookahead = none) :
    s.lexer.items = u := by
  simpa only [Cursor.unread, hnone] using h.unread

/-- None of the items that are shown is a mark of the end. -/
theorem isEndMark_of_mem {item : Item} (h : s.Shows mark u) (hmem : item ∈ u) :
    item.isEndMark = false := by
  cases hlook : s.lookahead with
  | none => exact Lexer.isEndMark_of_mem_items (h.of_no_lookahead hlook ▸ hmem)
  | some t =>
    have hunread := h.unread
    simp only [Cursor.unread, hlook] at hunread
    split at hunread
    · exact Lexer.isEndMark_of_mem_items (hunread ▸ hmem)
    · rename_i hkind
      rw [← hunread, List.mem_cons] at hmem
      rcases hmem with rfl | hmem
      · simpa [Item.isEndMark] using hkind
      · exact Lexer.isEndMark_of_mem_items hmem

/-- The tokens that are shown are not end marks. -/
theorem kind_ne_endOfInput (h : s.Shows mark u) (ht : .token t ∈ u) : t.kind ≠ .endOfInput := by
  simpa [Item.isEndMark] using h.isEndMark_of_mem ht

/-- The next item is a mark of the end exactly when nothing is left. -/
theorem isEndMark_nextItem (h : s.Shows mark u) : (nextItem mark u).isEndMark = u.isEmpty :=
  Calculator.isEndMark_nextItem h.mark_kind fun _ => h.isEndMark_of_mem

/-- Nothing is left exactly when the end mark comes next. -/
theorem nextItem_endOfInput (h : s.Shows mark u) (ht : nextItem mark u = .token t) :
    t.kind = .endOfInput ↔ u = [] := by
  rw [← List.isEmpty_iff, ← h.isEndMark_nextItem, ht]
  simp [Item.isEndMark]

/-- A next token that is no end mark is the first of the items. -/
theorem exists_cons (h : s.Shows mark u) (ht : nextItem mark u = .token t)
    (hkind : t.kind ≠ .endOfInput) : ∃ r, u = .token t :: r := by
  cases u with
  | nil => exact absurd ((h.nextItem_endOfInput ht).mpr rfl) hkind
  | cons item r => exact ⟨r, congrArg (· :: r) ht⟩

/-- What the lexer of a cursor pulls when nothing was looked at. -/
theorem pull (h : s.Shows mark u) (hnone : s.lookahead = none) :
    ∃ l, s.lexer.pull = (nextItem mark u, l) ∧ l.items = u.tail ∧ l.endMark = mark := by
  obtain ⟨l, hpull, hitems, hmark⟩ := s.lexer.pull_eq
  rw [h.endMark, h.of_no_lookahead hnone] at hpull
  rw [h.of_no_lookahead hnone] at hitems
  exact ⟨l, hpull, hitems, hmark.trans h.endMark⟩

/-- A cursor that is left with a lexer before the remaining items shows them. -/
theorem of_lexer {l : Lexer} (hitems : l.items = u) (hmark : l.endMark = mark) :
    Shows ⟨l, none⟩ mark u :=
  ⟨hitems, hmark, by simp⟩

/-- Looking at a token keeps the view. -/
theorem peek_token (h : s.Shows mark u) (ht : nextItem mark u = .token t) :
    ∃ s', peek s = .ok t s' ∧ s'.Shows mark u := by
  cases hlook : s.lookahead with
  | some t' =>
    obtain rfl : t' = t := Item.token.inj ((h.of_lookahead hlook).1.symm.trans ht)
    exact ⟨s, peek_of_lookahead hlook, h⟩
  | none =>
    obtain ⟨l, hpull, hitems, hmark⟩ := h.pull hlook
    have hpeek : peek s = .ok t ⟨l, some t⟩ := by simp [peek, hlook, hpull, ht]
    refine ⟨_, hpeek, ⟨(peek_ok hpeek).2.trans h.unread, hmark, ?_⟩⟩
    intro t' ht' hend
    obtain rfl : t = t' := Option.some.inj ht'
    have hnil := (h.nextItem_endOfInput ht).mp hend
    subst hnil
    exact ⟨(Item.token.inj ht).symm, hitems⟩

/-- Advancing takes a token off. -/
theorem advance_token (h : s.Shows mark u) (ht : nextItem mark u = .token t) :
    ∃ s', advance s = .ok t s' ∧ s'.Shows mark u.tail := by
  cases hlook : s.lookahead with
  | some t' =>
    obtain ⟨hnext, hitems⟩ := h.of_lookahead hlook
    obtain rfl : t' = t := Item.token.inj (hnext.symm.trans ht)
    exact ⟨⟨s.lexer, none⟩, advance_of_lookahead hlook, of_lexer hitems h.endMark⟩
  | none =>
    obtain ⟨l, hpull, hitems, hmark⟩ := h.pull hlook
    exact ⟨⟨l, none⟩, by simp [advance, hlook, hpull, ht], of_lexer hitems hmark⟩

/-- Advancing takes a stray character off. -/
theorem advance_stray (h : s.Shows mark u) (hc : nextItem mark u = .stray c p) :
    ∃ s', advance s = .error (.strayCharacter c p) s' ∧ s'.Shows mark u.tail := by
  cases hlook : s.lookahead with
  | some t => simp [(h.of_lookahead hlook).1] at hc
  | none =>
    obtain ⟨l, hpull, hitems, hmark⟩ := h.pull hlook
    exact ⟨⟨l, none⟩, by simp [advance, hlook, hpull, hc], of_lexer hitems hmark⟩

/-- Looking at a stray character takes it off as well. -/
theorem peek_stray (h : s.Shows mark u) (hc : nextItem mark u = .stray c p) :
    ∃ s', peek s = .error (.strayCharacter c p) s' ∧ s'.Shows mark u.tail := by
  obtain ⟨s', hadvance, hshows⟩ := h.advance_stray hc
  exact ⟨s', peek_eq_error_iff.mpr hadvance, hshows⟩

end Shows

end Cursor

end Calculator
