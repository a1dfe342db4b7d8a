import Calculator.Error
import Calculator.Lexer

/-!
# Cursors

A cursor reads the items of a lexer with one token of lookahead. Items are read only when they
are asked for. Looking at the next token keeps it for later; a stray character is reported once,
as an error, and is gone.

`Cursor.unread` is the list of items a cursor has not passed yet, the token looked at included
and the end mark left out. The lemmas say what each operation does to that list: looking leaves
it alone, advancing takes its head, and an error means that its head was a stray character.
-/

namespace Calculator

/-- A lexer and the token that was looked at but not yet taken. -/
structure Cursor where
  lexer : Lexer
  lookahead : Option Token
  deriving DecidableEq, Repr, Inhabited

/-- A computation that moves a cursor and may fail; a failure leaves the cursor where it got to. -/
abbrev Parser (α : Type) := EStateM Error Cursor α

/-- An error that is thrown leaves the cursor where it is. -/
@[simp] theorem Parser.throw_apply {α : Type} (e : Error) (s : Cursor) :
    (throw e : Parser α) s = .error e s :=
  rfl

namespace Cursor

/-- A cursor before everything a lexer still delivers. -/
def ofLexer (lexer : Lexer) : Cursor :=
  ⟨lexer, none⟩

/-- A cursor at the start of a source. -/
def ofString (source : String) : Cursor :=
  ofLexer (.ofString source)

/-- The items that are still to be passed. -/
def unread (s : Cursor) : List Item :=
  match s.lookahead with
  | some t => if t.kind = .endOfInput then s.lexer.items else .token t :: s.lexer.items
  | none => s.lexer.items

/-- Look at the next token without passing it. -/
def peek : Parser Token := fun s =>
  match s.lookahead with
  | some t => .ok t s
  | none =>
    match s.lexer.pull with
    | (.token t, lexer) => .ok t ⟨lexer, some t⟩
    | (.stray c p, lexer) => .error (.strayCharacter c p) ⟨lexer, none⟩

/-- Pass the next token and return it. -/
def advance : Parser Token := fun s =>
  match s.lookahead with
  | some t => .ok t ⟨s.lexer, none⟩
  | none =>
    match s.lexer.pull with
    | (.token t, lexer) => .ok t ⟨lexer, none⟩
    | (.stray c p, lexer) => .error (.strayCharacter c p) ⟨lexer, none⟩

/-- Pass the next token if its kind is of a class; otherwise leave it to be looked at again. -/
def accept? (allowed : Token.Kind → Bool) : Parser (Option Token) := do
  let t ← peek
  if allowed t.kind then return some (← advance) else return none

/-- Pass the next token, which must be of the given kind. -/
def expect (kind : Token.Kind) (expected : String) : Parser Token := do
  let t ← advance
  if t.kind = kind then return t else throw (.parsing (.unexpected expected t))

/-- Pulling a token takes the first item, or meets the end. -/
theorem pull_token {l l' : Lexer} {t : Token} (h : l.pull = (.token t, l')) :
    l.items = (if t.kind = .endOfInput then [] else [.token t]) ++ l'.items := by
  cases hnext : l.next? with
  | none =>
    simp only [Lexer.pull, hnext, Option.getD_none, Prod.mk.injEq, Item.token.injEq] at h
    simp [← h.1, ← h.2, Lexer.endMark, Token.symbol]
  | some found =>
    simp only [Lexer.pull, hnext, Option.getD_some] at h
    subst h
    simp [Lexer.items_of_some hnext, Lexer.next?_kind hnext]

/-- Pulling a stray character takes the first item. -/
theorem pull_stray {l l' : Lexer} {c : Char} {p : Nat} (h : l.pull = (.stray c p, l')) :
    l.items = .stray c p :: l'.items := by
  cases hnext : l.next? with
  | none => simp [Lexer.pull, hnext] at h
  | some found =>
    simp only [Lexer.pull, hnext, Option.getD_some] at h
    subst h
    exact Lexer.items_of_some hnext

/-- Passing a token takes it from the unread items; passing the end mark takes nothing. -/
theorem advance_ok {s s' : Cursor} {t : Token} (h : advance s = .ok t s') :
    s.unread = (if t.kind = .endOfInput then [] else [.token t]) ++ s'.unread := by
  obtain ⟨lexer, lookahead⟩ := s
  cases lookahead with
  | some t' =>
    simp only [advance, EStateM.Result.ok.injEq] at h
    obtain ⟨rfl, rfl⟩ := h
    simp only [unread]
    split <;> simp
  | none =>
    cases hpull : lexer.pull with
    | mk item lexer' =>
      cases item with
      | token t' =>
        simp only [advance, hpull, EStateM.Result.ok.injEq] at h
        obtain ⟨rfl, rfl⟩ := h
        exact pull_token hpull
      | stray c p => simp [advance, hpull] at h

/-- Passing fails only at a stray character, which it takes from the unread items. -/
theorem advance_error {s s' : Cursor} {e : Error} (h : advance s = .error e s') :
    ∃ c p, e = .strayCharacter c p ∧ s.unread = .stray c p :: s'.unread := by
  obtain ⟨lexer, lookahead⟩ := s
  cases lookahead with
  | some t => simp [advance] at h
  | none =>
    cases hpull : lexer.pull with
    | mk item lexer' =>
      cases item with
      | token t => simp [advance, hpull] at h
      | stray c p =>
        simp only [advance, hpull, EStateM.Result.error.injEq] at h
        obtain ⟨rfl, rfl⟩ := h
        exact ⟨c, p, rfl, pull_stray hpull⟩

/-- Looking at a token passes nothing and keeps the token. -/
theorem peek_ok {s s' : Cursor} {t : Token} (h : peek s = .ok t s') :
    s'.lookahead = some t ∧ s'.unread = s.unread := by
  obtain ⟨lexer, lookahead⟩ := s
  cases lookahead with
  | some t' =>
    simp only [peek, EStateM.Result.ok.injEq] at h
    obtain ⟨rfl, rfl⟩ := h
    exact ⟨rfl, rfl⟩
  | none =>
    cases hpull : lexer.pull with
    | mk item lexer' =>
      cases item with
      | token t' =>
        simp only [peek, hpull, EStateM.Result.ok.injEq] at h
        obtain ⟨rfl, rfl⟩ := h
        refine ⟨rfl, ?_⟩
        simp only [unread, pull_token hpull]
        split <;> simp
      | stray c p => simp [peek, hpull] at h

/-- Looking fails where passing does, and leaves the same cursor. -/
theorem peek_eq_error_iff {s s' : Cursor} {e : Error} :
    peek s = .error e s' ↔ advance s = .error e s' := by
  simp only [peek, advance]
  cases s.lookahead with
  | some t => simp
  | none =>
    cases s.lexer.pull with
    | mk item lexer => cases item <;> simp

/-- Looking fails only at a stray character, which it takes from the unread items. -/
theorem peek_error {s s' : Cursor} {e : Error} (h : peek s = .error e s') :
    ∃ c p, e = .strayCharacter c p ∧ s.unread = .stray c p :: s'.unread :=
  advance_error (peek_eq_error_iff.mp h)

/-- The token that was looked at is found again. -/
theorem peek_of_lookahead {s : Cursor} {t : Token} (h : s.lookahead = some t) :
    peek s = .ok t s := by
  simp [peek, h]

/-- The token that was looked at is the one passed next. -/
theorem advance_of_lookahead {s : Cursor} {t : Token} (h : s.lookahead = some t) :
    advance s = .ok t ⟨s.lexer, none⟩ := by
  simp [advance, h]

/-- Asking for a token of a class is looking at the next token and keeping it if it does not fit. -/
theorem accept?_apply (allowed : Token.Kind → Bool) (s : Cursor) :
    accept? allowed s =
      match peek s with
      | .ok t s' => if allowed t.kind then .ok (some t) ⟨s'.lexer, none⟩ else .ok none s'
      | .error e s' => .error e s' := by
  simp only [accept?, bind, EStateM.bind]
  cases hpeek : peek s with
  | error e s' => rfl
  | ok t s' =>
    by_cases hallowed : allowed t.kind
    · simp [hallowed, EStateM.bind, advance_of_lookahead (peek_ok hpeek).1, pure, EStateM.pure]
    · simp [hallowed, pure, EStateM.pure]

/-- A token of the class is taken from the unread items, if the class leaves out the end mark. -/
theorem accept?_some {allowed : Token.Kind → Bool} (hend : allowed .endOfInput = false)
    {s s' : Cursor} {t : Token} (h : accept? allowed s = .ok (some t) s') :
    allowed t.kind = true ∧ s.unread = .token t :: s'.unread := by
  rw [accept?_apply] at h
  cases hpeek : peek s with
  | error e s₁ => simp [hpeek] at h
  | ok t₁ s₁ =>
    obtain ⟨hlook, hsame⟩ := peek_ok hpeek
    simp only [hpeek] at h
    split at h
    · rename_i hallowed
      simp only [EStateM.Result.ok.injEq, Option.some.injEq] at h
      obtain ⟨rfl, rfl⟩ := h
      have hkind : t₁.kind ≠ .endOfInput := by
        intro hk
        simp [hk, hend] at hallowed
      refine ⟨hallowed, ?_⟩
      rw [← hsame, advance_ok (advance_of_lookahead hlook), if_neg hkind]
      rfl
    · simp at h

/-- When a token of the class is found, fewer items are unread. -/
theorem accept?_length_lt {allowed : Token.Kind → Bool} (hend : allowed .endOfInput = false)
    {s s' : Cursor} {t : Token} (h : accept? allowed s = .ok (some t) s') :
    s'.unread.length < s.unread.length := by
  rw [(accept?_some hend h).2, List.length_cons]
  exact Nat.lt_succ_self _

/-- When no token of the class follows, nothing is passed. -/
theorem accept?_none {allowed : Token.Kind → Bool} {s s' : Cursor}
    (h : accept? allowed s = .ok none s') :
    s'.unread = s.unread ∧ ∃ t, s'.lookahead = some t ∧ allowed t.kind = false := by
  rw [accept?_apply] at h
  cases hpeek : peek s with
  | error e s₁ => simp [hpeek] at h
  | ok t₁ s₁ =>
    obtain ⟨hlook, hsame⟩ := peek_ok hpeek
    simp only [hpeek] at h
    split at h
    · simp at h
    · rename_i hrefused
      simp only [EStateM.Result.ok.injEq, true_and] at h
      subst h
      exact ⟨hsame, t₁, hlook, by simpa using hrefused⟩

/-- Asking for a token of a class fails only at a stray character. -/
theorem accept?_error {allowed : Token.Kind → Bool} {s s' : Cursor} {e : Error}
    (h : accept? allowed s = .error e s') :
    ∃ c p, e = .strayCharacter c p ∧ s.unread = .stray c p :: s'.unread := by
  rw [accept?_apply] at h
  cases hpeek : peek s with
  | error e₁ s₁ =>
    simp only [hpeek, EStateM.Result.error.injEq] at h
    obtain ⟨rfl, rfl⟩ := h
    exact peek_error hpeek
  | ok t₁ s₁ =>
    simp only [hpeek] at h
    split at h <;> simp at h

/-- Expecting a token passes whatever token is next. -/
theorem expect_apply (kind : Token.Kind) (expected : String) (s : Cursor) :
    expect kind expected s =
      match advance s with
      | .ok t s' =>
        if t.kind = kind then .ok t s' else .error (.parsing (.unexpected expected t)) s'
      | .error e s' => .error e s' := by
  simp only [expect, bind, EStateM.bind]
  cases advance s with
  | error e s' => rfl
  | ok t s' =>
    by_cases hkind : t.kind = kind
    · simp [hkind, pure, EStateM.pure]
    · simp [hkind]

/-- Passing a token adds nothing to the unread items. -/
theorem advance_length_le {s s' : Cursor} {t : Token} (h : advance s = .ok t s') :
    s'.unread.length ≤ s.unread.length := by
  simp [advance_ok h]

/-- Passing that fails leaves fewer unread items. -/
theorem advance_length_lt {s s' : Cursor} {e : Error} (h : advance s = .error e s') :
    s'.unread.length < s.unread.length := by
  obtain ⟨c, p, -, hunread⟩ := advance_error h
  simp [hunread]

/-- Passing an expected token adds nothing to the unread items. -/
theorem expect_length_le {kind : Token.Kind} {expected : String} {s s' : Cursor} {t : Token}
    (h : expect kind expected s = .ok t s') : s'.unread.length ≤ s.unread.length := by
  rw [expect_apply] at h
  split at h
  · rename_i hadvance
    split at h <;> simp at h
    exact h.2 ▸ advance_length_le hadvance
  · simp at h

/-- Finding another token than the expected one adds nothing either. -/
theorem expect_error_length_le {kind : Token.Kind} {expected : String} {s s' : Cursor} {e : Error}
    (h : expect kind expected s = .error e s') : s'.unread.length ≤ s.unread.length := by
  rw [expect_apply] at h
  split at h
  · rename_i hadvance
    split at h <;> simp at h
    exact h.2 ▸ advance_length_le hadvance
  · rename_i hadvance
    simp only [EStateM.Result.error.injEq] at h
    exact h.2 ▸ Nat.le_of_lt (advance_length_lt hadvance)

end Cursor

end Calculator
