import Calculator.Error
import Calculator.Proofs.Locality

/-!
# Texts put together

The items of a text that is put together from parts are the items of the parts, as long as no
lexeme goes over from one part to the next. None does before a blank or a symbol, and none does
after a symbol. Where a text begins makes no difference to its items except that their positions
move with it.

`Item.move` and `Error.move` apply a map of positions to all that has one.
-/

namespace Calculator

/-- The byte of the source where an item stands. -/
def Item.position : Item → Nat
  | token t => t.position
  | stray _ p => p

/-- The token at the place that a map of positions gives for its own. -/
def Token.move (f : Nat → Nat) (t : Token) : Token :=
  { t with position := f t.position }

/-- The item at the place that a map of positions gives for its own. -/
def Item.move (f : Nat → Nat) : Item → Item
  | token t => token (t.move f)
  | stray c p => stray c (f p)

/-- The error with its position moved, or that of the token it found. -/
def Error.move (f : Nat → Nat) : Error → Error
  | strayCharacter c p => strayCharacter c (f p)
  | parsing (.unexpectedToken expected found) => parsing (.unexpectedToken expected (found.move f))
  | parsing (.unexpectedEnd expected p) => parsing (.unexpectedEnd expected (f p))
  | evaluation error => evaluation error

variable {f g : Nat → Nat} {t : Token} {front rest blanks w : List Char} {kind : Token.Kind}

/-- A token stays of its kind. -/
@[simp] theorem Token.move_kind : (t.move f).kind = t.kind := rfl

/-- The error at a token moves with it, at the end mark as well. -/
theorem Error.move_unexpected (expected : String) :
    move f (.parsing (.unexpected expected t)) = .parsing (.unexpected expected (t.move f)) := by
  by_cases hend : t.kind = .endOfInput <;> simp [SyntaxError.unexpected, hend, move, Token.move]

/-- Moving twice is moving once, by both maps. -/
theorem Item.move_move (item : Item) : (item.move f).move g = item.move (g ∘ f) := by
  cases item <;> rfl

/-- An item moves as its position does. -/
theorem Item.move_congr {item : Item} (h : f item.position = g item.position) :
    item.move f = item.move g := by
  cases item with
  | token t => exact congrArg (fun p => token { t with position := p }) h
  | stray c p => exact congrArg (stray c) h

/-- Nothing is moved by the map that keeps every position. -/
@[simp] theorem Item.move_id (item : Item) : item.move id = item := by
  cases item <;> rfl

namespace Lexer

variable {l l' : Lexer} {item : Item}

/-- The empty text has no items. -/
@[simp] theorem items_nil (p : Nat) : items ⟨[], p⟩ = [] :=
  items_of_none (next?_eq_none_iff.mpr (List.forall_mem_nil _))

/-- The items depend on the next reading alone. -/
theorem items_congr (h : l.next? = l'.next?) : l.items = l'.items := by
  cases hnext : l'.next? with
  | none => rw [items_of_none (h.trans hnext), items_of_none hnext]
  | some found => rw [items_of_some (h.trans hnext), items_of_some hnext]

/-- Blanks before a text only move it. -/
theorem items_blanks (hblanks : ∀ c ∈ blanks, isBlank c = true) (rest : List Char) (p : Nat) :
    items ⟨blanks ++ rest, p⟩ = items ⟨rest, p + byteCount blanks⟩ := by
  obtain ⟨more, rest, rfl, hmore, hrest⟩ := exists_blanks rest
  have hboth : ∀ c ∈ blanks ++ more, isBlank c = true := by
    intro c hc
    exact (List.mem_append.mp hc).elim (hblanks c) (hmore c)
  have hskip : skipBlanks ⟨blanks ++ (more ++ rest), p⟩ =
      skipBlanks ⟨more ++ rest, p + byteCount blanks⟩ := by
    rw [← List.append_assoc, skipBlanks_append hboth hrest, skipBlanks_append hmore hrest,
      byteCount_append, Nat.add_assoc]
  apply items_congr
  simp only [next?, hskip]

/-- A lexeme that nothing prolongs is the first item, and the rest follows. -/
theorem items_of_spells (hw : kind.Spells w) (hrest : kind.Apart rest) (p : Nat) :
    items ⟨w ++ rest, p⟩ =
      .token ⟨kind, if kind.isLiteral then String.ofList w else "", p⟩ ::
        items ⟨rest, p + byteCount w⟩ := by
  have hnext := next?_of_spells (p := p) (List.forall_mem_nil _) hw hrest
  simpa [byteCount] using items_of_some hnext

/-- A lexeme alone is one item. -/
theorem items_of_lexeme (hw : kind.Spells w) (p : Nat) :
    items ⟨w, p⟩ = [.token ⟨kind, if kind.isLiteral then String.ofList w else "", p⟩] := by
  simpa using items_of_spells hw kind.apart_nil p

/-- A symbol is the first item whatever follows it. -/
theorem items_of_symbol {c : Char} (hc : Token.Kind.ofSymbol? c = some kind) (rest : List Char)
    (p : Nat) :
    items ⟨c :: rest, p⟩ = .token (.symbol kind p) :: items ⟨rest, p + c.utf8Size⟩ := by
  obtain ⟨hspells, hapart⟩ : kind.Spells [c] ∧ kind.Apart rest := Lexeme.spells_of_ofSymbol? hc
  have hliteral : kind.isLiteral = false := by
    simp only [Token.Kind.ofSymbol?] at hc
    split at hc <;> simp at hc <;> subst hc <;> rfl
  simpa [hliteral, byteCount, Token.symbol] using items_of_spells hspells hapart p

/-- The items of two texts follow one another when every lexeme has ended between them. -/
theorem items_append (hrest : ∀ c ∈ rest.head?, endsLexeme c = true) (p : Nat) :
    items ⟨front ++ rest, p⟩ = items ⟨front, p⟩ ++ items ⟨rest, p + byteCount front⟩ := by
  let l : Lexer := ⟨front, p⟩
  obtain ⟨begun, hfront, hcut⟩ := items_cut l.items.length l le_rfl
  have hmark := passing_endMark l.items.length l
  have hnone : (l.passing l.items.length).items = [] := by simp [passing_items]
  generalize l.passing l.items.length = last at hfront hcut hmark hnone
  have hblank : ∀ c ∈ last.rest, isBlank c = true := by
    rw [← next?_eq_none_iff]
    cases hnext : last.next? with
    | none => rfl
    | some found => simp [items_of_some hnext] at hnone
  -- what is left of the first text is blank, so the cut may be made before it
  have htail : ∀ c ∈ (last.rest ++ rest).head?, endsLexeme c = true := by
    cases hlast : last.rest with
    | nil => exact hrest
    | cons c cs => simpa using endsLexeme_of_isBlank (hblank c (by simp [hlast]))
  have hend : last.position + byteCount last.rest = p + byteCount front :=
    congrArg Token.position hmark
  have hitems := hcut (last.rest ++ rest) htail
  rw [← List.append_assoc, ← hfront, List.take_length, items_blanks hblank, hend] at hitems
  exact hitems

/-- The items of two texts with a symbol between them that has a space on either side. -/
theorem items_spaced {c : Char} (hc : Token.Kind.ofSymbol? c = some kind) (left right : List Char)
    (p : Nat) :
    items ⟨left ++ ' ' :: c :: ' ' :: right, p⟩ =
      items ⟨left, p⟩ ++ .token (.symbol kind (p + byteCount left + 1)) ::
        items ⟨right, p + byteCount left + 1 + c.utf8Size + 1⟩ := by
  have hblank : ∀ c ∈ [' '], isBlank c = true := by simp [isBlank]
  have hspace (cs : List Char) (q : Nat) : items ⟨' ' :: cs, q⟩ = items ⟨cs, q + 1⟩ :=
    items_blanks hblank cs q
  rw [items_append (by simp [endsLexeme, isBlank]), hspace, items_of_symbol hc, hspace]

/-- The items of a text in parentheses stand between those of the parentheses, whatever follows. -/
theorem items_parentheses (inside rest : List Char) (p : Nat) :
    items ⟨'(' :: (inside ++ ')' :: rest), p⟩ =
      .token (.symbol .openParen p) :: (items ⟨inside, p + 1⟩ ++
        .token (.symbol .closeParen (p + 1 + byteCount inside)) ::
          items ⟨rest, p + 1 + byteCount inside + 1⟩) := by
  have hclose : ∀ c ∈ (')' :: rest).head?, endsLexeme c = true := by
    simp [endsLexeme, Token.Kind.ofSymbol?]
  rw [items_of_symbol (c := '(') rfl, show '('.utf8Size = 1 from rfl, items_append hclose,
    items_of_symbol (c := ')') rfl, show ')'.utf8Size = 1 from rfl]

/-- One reading of a text further on is the same reading further on. -/
theorem next?_move (cs : List Char) (p k : Nat) :
    next? ⟨cs, p + k⟩ =
      (next? ⟨cs, p⟩).map fun (item, l) => (item.move (· + k), ⟨l.rest, l.position + k⟩) := by
  simp only [next?, skipBlanks, skip]
  split
  · rfl
  · split <;> simp [Item.move, Token.move, tokenOf, Nat.add_right_comm]

/-- The items of a text further on are its items further on. -/
theorem items_move (cs : List Char) (p k : Nat) :
    items ⟨cs, p + k⟩ = (items ⟨cs, p⟩).map (Item.move (· + k)) := by
  have hall (l : Lexer) :
      items ⟨l.rest, l.position + k⟩ = l.items.map (Item.move (· + k)) := by
    fun_induction Lexer.items l with
    | case1 l hnone =>
      exact items_of_none (by rw [next?_move, hnone]; rfl)
    | case2 l item l' hnext ih =>
      have hmoved : next? ⟨l.rest, l.position + k⟩ =
          some (item.move (· + k), ⟨l'.rest, l'.position + k⟩) := by rw [next?_move, hnext]; rfl
      rw [items_of_some hmoved, ih, List.map_cons]
  exact hall ⟨cs, p⟩

/-- No item stands after the end of the text. -/
theorem position_le_of_mem_items {l : Lexer} {item : Item} (h : item ∈ l.items) :
    item.position ≤ l.position + byteCount l.rest := by
  fun_induction Lexer.items l with
  | case1 l hnone => simp at h
  | case2 l next l' hnext ih =>
    have hend : l'.position + byteCount l'.rest = l.position + byteCount l.rest :=
      congrArg Token.position (next?_endMark hnext)
    rcases List.mem_cons.mp h with rfl | hmem
    · cases item with
      | token t =>
        obtain ⟨-, w, -, -, -, -, -, -, hposition⟩ := spells_of_next? hnext
        simp only [Item.position]
        omega
      | stray c p =>
        obtain ⟨-, -, -, -, -, -, hposition⟩ := stray_of_next? hnext
        simp only [Item.position]
        omega
    · rw [← hend]
      exact ih hmem

end Lexer

end Calculator
