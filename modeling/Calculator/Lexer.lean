import Calculator.Lexeme

/-!
# The lexer

A lexer is the text still to be read together with the byte at which that text begins. Reading
skips blanks and then delivers one item: a token, or a stray character at which no lexeme
begins. A stray character is an item of its own and stops nothing; reading goes on right after
it. When only blanks are left there are no more items, and every further pull delivers the mark
of the end of the input, placed at the end of the source.

`Lexer.items` is the list of everything a lexer still delivers before that mark.
-/

namespace Calculator

/-- What a source is made of, blanks apart: tokens, and characters that belong to no token. -/
inductive Item where
  | token (t : Token)
  | stray (character : Char) (position : Nat)
  deriving DecidableEq, Repr, Inhabited

/-- The text still to be read and the byte of the source where it begins. -/
structure Lexer where
  rest : List Char
  position : Nat
  deriving DecidableEq, Repr, Inhabited

namespace Lexer

/-- A lexer at the start of a source. -/
def ofString (source : String) : Lexer :=
  ⟨source.toList, 0⟩

/-- Pass over the next `n` characters. -/
def skip (n : Nat) (l : Lexer) : Lexer :=
  ⟨l.rest.drop n, l.position + byteCount (l.rest.take n)⟩

/-- Pass over the blanks that come next. -/
def skipBlanks (l : Lexer) : Lexer :=
  l.skip (l.rest.takeWhile isBlank).length

/-- The token of a kind that the next `n` characters spell; only a literal keeps its text. -/
def tokenOf (kind : Token.Kind) (n : Nat) (l : Lexer) : Token :=
  ⟨kind, if kind.isLiteral then String.ofList (l.rest.take n) else "", l.position⟩

/-- The next item and the lexer after it; nothing when only blanks are left. -/
def next? (l : Lexer) : Option (Item × Lexer) :=
  let start := l.skipBlanks
  match start.rest with
  | [] => none
  | c :: _ =>
    match Lexeme.first? start.rest with
    | some (kind, n) => some (.token (start.tokenOf kind n), start.skip n)
    | none => some (.stray c start.position, start.skip 1)

/-- The mark of the end of the input. -/
def endMark (l : Lexer) : Token :=
  .symbol .endOfInput (l.position + byteCount l.rest)

/-- The next item, or the end mark once there is none, and the lexer after it. -/
def pull (l : Lexer) : Item × Lexer :=
  (l.next?).getD (.token l.endMark, l)

/-- Skipping leaves no more text than there was. -/
theorem skip_rest_length_le (n : Nat) (l : Lexer) : (l.skip n).rest.length ≤ l.rest.length := by
  simp [skip]

/-- Skipping moves the start of the text without moving its end. -/
theorem skip_end (n : Nat) (l : Lexer) :
    (l.skip n).position + byteCount (l.skip n).rest = l.position + byteCount l.rest := by
  have whole : byteCount l.rest = byteCount (l.rest.take n) + byteCount (l.rest.drop n) := by
    rw [← byteCount_append, List.take_append_drop]
  simp only [skip]
  omega

/-- Every item uses up some of the text. -/
theorem next?_rest_lt {l l' : Lexer} {item : Item} (h : l.next? = some (item, l')) :
    l'.rest.length < l.rest.length := by
  have blanks := skip_rest_length_le (l.rest.takeWhile isBlank).length l
  rw [← skipBlanks] at blanks
  simp only [next?] at h
  split at h
  · simp at h
  · rename_i c cs hrest
    have nonempty : 0 < l.skipBlanks.rest.length := by simp [hrest]
    split at h
    · rename_i kind n hfirst
      have := Lexeme.first?_pos hfirst
      simp only [Option.some.injEq, Prod.mk.injEq] at h
      simp only [← h.2, skip, List.length_drop]
      omega
    · simp only [Option.some.injEq, Prod.mk.injEq] at h
      simp only [← h.2, skip, List.length_drop]
      omega

/-- The end mark stays where it is while items are read. -/
theorem next?_endMark {l l' : Lexer} {item : Item} (h : l.next? = some (item, l')) :
    l'.endMark = l.endMark := by
  have keep (n : Nat) : (l.skipBlanks.skip n).endMark = l.endMark := by
    simp [endMark, skipBlanks, skip_end]
  simp only [next?] at h
  split at h
  · simp at h
  · split at h <;>
    · simp only [Option.some.injEq, Prod.mk.injEq] at h
      rw [← h.2, keep]

/-- The tokens among the items are never end marks. -/
theorem next?_kind {l l' : Lexer} {t : Token} (h : l.next? = some (.token t, l')) :
    t.kind ≠ .endOfInput := by
  simp only [next?] at h
  split at h
  · simp at h
  · split at h
    · rename_i kind n hfirst
      simp only [Option.some.injEq, Prod.mk.injEq, Item.token.injEq] at h
      rw [← h.1]
      exact Lexeme.first?_ne_endOfInput hfirst
    · simp at h

/-- Everything the lexer still delivers, in order. -/
def items (l : Lexer) : List Item :=
  match _h : l.next? with
  | none => []
  | some (item, l') => item :: l'.items
termination_by l.rest.length
decreasing_by exact next?_rest_lt _h

/-- Nothing is delivered when there is no next item. -/
theorem items_of_none {l : Lexer} (h : l.next? = none) : l.items = [] := by
  rw [items]
  split <;> simp_all

/-- The next item is delivered first. -/
theorem items_of_some {l l' : Lexer} {item : Item} (h : l.next? = some (item, l')) :
    l.items = item :: l'.items := by
  rw [items]
  split <;> simp_all

end Lexer

/-- A lexer whose items are also listed one by one up to the end mark, which is listed once. -/
structure Listing where
  lexer : Lexer
  ended : Bool
  deriving DecidableEq, Repr, Inhabited

namespace Listing

/-- A listing that has not begun, over what a lexer still delivers. -/
def ofLexer (lexer : Lexer) : Listing :=
  ⟨lexer, false⟩

/-- Deliver the next item, or the end mark as often as it is asked for, without listing it. -/
def pull (s : Listing) : Item × Listing :=
  let (item, lexer) := s.lexer.pull
  (item, { s with lexer })

/-- List the next item; the end mark is the last thing listed. -/
def next? (s : Listing) : Option (Item × Listing) :=
  if s.ended then none
  else
    match s.lexer.next? with
    | some (item, lexer) => some (item, ⟨lexer, false⟩)
    | none => some (.token s.lexer.endMark, ⟨s.lexer, true⟩)

/-- A listing that lists something has not ended, and either its text gets shorter or it ends. -/
theorem next?_progress {s s' : Listing} {item : Item} (h : s.next? = some (item, s')) :
    s.ended = false ∧
      (s'.lexer.rest.length < s.lexer.rest.length ∨ s'.lexer = s.lexer ∧ s'.ended = true) := by
  simp only [next?] at h
  split at h
  · simp at h
  · rename_i hopen
    refine ⟨by simpa using hopen, ?_⟩
    split at h
    · rename_i hnext
      simp only [Option.some.injEq, Prod.mk.injEq] at h
      exact .inl (h.2 ▸ Lexer.next?_rest_lt hnext)
    · simp only [Option.some.injEq, Prod.mk.injEq] at h
      exact .inr (by simp [← h.2])

/-- Everything that is still to be listed, and the listing after it. -/
def drain (s : Listing) : List Item × Listing :=
  match _h : s.next? with
  | none => ([], s)
  | some (item, s') =>
    let (rest, last) := s'.drain
    (item :: rest, last)
termination_by s.lexer.rest.length + (if s.ended then 0 else 1)
decreasing_by
  obtain ⟨hopen, hlt | ⟨hsame, hclosed⟩⟩ := next?_progress _h
  · simp only [hopen]
    split <;> simp <;> omega
  · simp [hsame, hopen, hclosed]

end Listing

end Calculator
