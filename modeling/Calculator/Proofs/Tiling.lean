import Calculator.Proofs.Position

/-!
# The lexer tiles the source

The items of a source cut it into pieces, each one some blanks and a lexeme, and after the last
piece there are blanks alone. No character is lost, and none belongs to two pieces. A lexeme is the
longest one that begins where it stands, or the one character there when none begins.

`Tiles` describes such a cutting without running the lexer, and `Tiles.unique` says that a text has
only one. The lexer finds it: its items are those of the pieces in order, and then the end mark
again and again.
-/

namespace Calculator

/-- A part of a source: blanks, the lexeme after them, and the item that it is read as. -/
structure Piece where
  blanks : List Char
  lexeme : List Char
  item : Item
  deriving DecidableEq, Repr

/-- All the characters of a piece. -/
def Piece.text (x : Piece) : List Char :=
  x.blanks ++ x.lexeme

/-- An item is what a lexeme is read as when `rest` comes after it. That of a token is the longest
that begins there, and a literal keeps it as its text; where none begins, a single character is
stray. -/
def Item.Reads : Item → List Char → List Char → Prop
  | token t, w, rest =>
    t.kind.Spells w ∧
      (∀ (kind : Token.Kind) (w' : List Char), kind.Spells w' → w' <+: w ++ rest →
        w'.length ≤ w.length) ∧
      t.text = if t.kind.isLiteral then String.ofList w else ""
  | stray c _, w, rest =>
    w = [c] ∧ ∀ (kind : Token.Kind) (w' : List Char), kind.Spells w' → ¬ w' <+: w ++ rest

/-- A piece is what the lexer takes from a text that begins at a byte, when `rest` comes after it:
all the blanks there, and then the lexeme, whose item stands where it begins. -/
structure Piece.Fits (x : Piece) (p : Nat) (rest : List Char) : Prop where
  blanks : ∀ c ∈ x.blanks, isBlank c = true
  lexeme : ∀ c ∈ x.lexeme.head?, isBlank c = false
  position : x.item.position = p + byteCount x.blanks
  reads : x.item.Reads x.lexeme rest

/-- Pieces that fit one after another make up a text that begins at a byte, up to the blanks at its
end. -/
inductive Tiles : Nat → List Char → List Piece → Prop
  | blanks {p : Nat} {last : List Char} (hlast : ∀ c ∈ last, isBlank c = true) : Tiles p last []
  | piece {p : Nat} {rest : List Char} {x : Piece} {xs : List Piece} (hfits : x.Fits p rest)
      (hrest : Tiles (p + byteCount x.text) rest xs) : Tiles p (x.text ++ rest) (x :: xs)

variable {p : Nat} {cs rest rest' w w' : List Char} {x x' : Piece} {xs ys : List Piece}
  {item item' : Item}

/-- What is read has a first character. -/
theorem Item.Reads.ne_nil (h : item.Reads w rest) : w ≠ [] := by
  cases item with
  | token t => exact (Lexeme.isBlank_of_mem h.1).1
  | stray c p => simp [h.1]

/-- A text begins with one lexeme, which is read as one item. -/
theorem Item.Reads.unique (h : item.Reads w rest) (h' : item'.Reads w' rest')
    (hposition : item.position = item'.position) (hsame : w ++ rest = w' ++ rest') :
    item = item' ∧ w = w' := by
  have hbegin : w <+: w' ++ rest' := hsame ▸ List.prefix_append w rest
  have hbegin' : w' <+: w ++ rest := hsame ▸ List.prefix_append w' rest'
  cases item with
  | token t =>
    cases item' with
    | token t' =>
      have hlength : w.length = w'.length :=
        (h'.2.1 _ w h.1 hbegin).antisymm (h.2.1 _ w' h'.1 hbegin')
      obtain ⟨rfl, -⟩ := List.append_inj hsame hlength
      obtain ⟨kind, text, q⟩ := t
      obtain ⟨kind', text', q'⟩ := t'
      obtain rfl : kind = kind' := Lexeme.kind_eq_of_spells h.1 h'.1
      obtain rfl : q = q' := hposition
      have htext : text = text' := h.2.2.trans h'.2.2.symm
      exact ⟨by rw [htext], rfl⟩
    | stray c q => exact absurd hbegin (h'.2 _ w h.1)
  | stray c q =>
    cases item' with
    | token t' => exact absurd hbegin' (h.2 _ w' h'.1)
    | stray c' q' =>
      obtain ⟨rfl, -⟩ := h
      obtain ⟨rfl, -⟩ := h'
      obtain ⟨rfl, -⟩ : c = c' ∧ rest = rest' := by simpa using hsame
      obtain rfl : q = q' := hposition
      exact ⟨rfl, rfl⟩

namespace Piece.Fits

/-- The lexeme of a piece that fits is where the blanks end. -/
theorem takeWhile_isBlank (h : x.Fits p rest) : (x.text ++ rest).takeWhile isBlank = x.blanks := by
  obtain ⟨c, w, hlexeme⟩ := List.exists_cons_of_ne_nil h.reads.ne_nil
  rw [Piece.text, List.append_assoc]
  refine Lexeme.takeWhile_append_of_head? h.blanks fun c' hc' => h.lexeme c' ?_
  simpa [hlexeme] using hc'

/-- Only one piece fits at the start of a text. -/
theorem unique (h : x.Fits p rest) (h' : x'.Fits p rest')
    (hsame : x.text ++ rest = x'.text ++ rest') : x = x' ∧ rest = rest' := by
  have hblanks : x.blanks = x'.blanks := by
    rw [← h.takeWhile_isBlank, hsame, h'.takeWhile_isBlank]
  have hlexemes : x.lexeme ++ rest = x'.lexeme ++ rest' := by
    simpa [Piece.text, hblanks] using hsame
  have hposition : x.item.position = x'.item.position := by
    rw [h.position, h'.position, hblanks]
  obtain ⟨hitem, hlexeme⟩ := h.reads.unique h'.reads hposition hlexemes
  obtain ⟨blanks, lexeme, item⟩ := x
  obtain ⟨blanks', lexeme', item'⟩ := x'
  simp only at hblanks hlexeme hitem hlexemes
  subst hblanks hlexeme hitem
  exact ⟨rfl, List.append_cancel_left hlexemes⟩

/-- The item of a piece stands before the text that comes after the piece. -/
theorem position_lt (h : x.Fits p rest) : x.item.position < p + byteCount x.text := by
  obtain ⟨c, w, hlexeme⟩ := List.exists_cons_of_ne_nil h.reads.ne_nil
  have hsize := c.utf8Size_pos
  rw [h.position, Piece.text, byteCount_append, hlexeme, byteCount]
  omega

end Piece.Fits

namespace Tiles

/-- A text is made up of pieces in only one way. -/
theorem unique (h : Tiles p cs xs) (h' : Tiles p cs ys) : xs = ys := by
  -- a piece holds a character that is no blank, so it cannot stand in the blanks at the end
  have hpiece {p : Nat} {rest : List Char} {x : Piece} (hfits : x.Fits p rest) :
      ¬ ∀ c ∈ x.text ++ rest, isBlank c = true := by
    intro hall
    obtain ⟨c, w, hlexeme⟩ := List.exists_cons_of_ne_nil hfits.reads.ne_nil
    have hblank := hall c (by simp [Piece.text, hlexeme])
    simp [hfits.lexeme c (by simp [hlexeme])] at hblank
  induction h generalizing ys with
  | blanks hlast =>
    cases h' with
    | blanks => rfl
    | piece hfits => exact absurd hlast (hpiece hfits)
  | piece hfits _ ih =>
    generalize htext : Piece.text _ ++ _ = text at h'
    cases h' with
    | blanks hlast => exact absurd (htext ▸ hlast) (hpiece hfits)
    | piece hfits' hrest' =>
      obtain ⟨rfl, rfl⟩ := hfits.unique hfits' htext
      rw [ih hrest']

/-- The pieces of a text one after another, with the blanks at its end, are the text; and each of
them fits where it stands. -/
theorem exists_last (h : Tiles p cs xs) :
    ∃ last, cs = xs.flatMap Piece.text ++ last ∧ (∀ c ∈ last, isBlank c = true) ∧
      ∀ before x after, xs = before ++ x :: after →
        x.Fits (p + byteCount (before.flatMap Piece.text)) (after.flatMap Piece.text ++ last) := by
  induction h with
  | @blanks p last hlast => exact ⟨last, rfl, hlast, by simp⟩
  | @piece p rest x xs hfits _ ih =>
    obtain ⟨last, rfl, hlast, hall⟩ := ih
    refine ⟨last, by simp, hlast, fun before y after hsplit => ?_⟩
    cases before with
    | nil =>
      obtain ⟨rfl, rfl⟩ := List.cons.inj hsplit
      simpa [byteCount] using hfits
    | cons z before =>
      obtain ⟨rfl, hxs⟩ := List.cons.inj hsplit
      simpa [byteCount_append, Nat.add_assoc] using hall before y after hxs

/-- No item stands before the text. -/
theorem position_le (h : Tiles p cs xs) : ∀ x ∈ xs, p ≤ x.item.position := by
  induction h with
  | blanks => simp
  | @piece p rest x xs hfits _ ih =>
    intro y hy
    rcases List.mem_cons.mp hy with rfl | hy
    · rw [hfits.position]
      omega
    · have := ih y hy
      omega

/-- Every item stands after the one before it. -/
theorem pairwise_position (h : Tiles p cs xs) :
    xs.Pairwise fun x y => x.item.position < y.item.position := by
  induction h with
  | blanks => exact .nil
  | piece hfits hrest ih =>
    exact .cons (fun y hy => hfits.position_lt.trans_le (hrest.position_le y hy)) ih

/-- There are no more pieces than characters. -/
theorem length_le (h : Tiles p cs xs) : xs.length ≤ cs.length := by
  induction h with
  | blanks => simp
  | piece hfits _ ih =>
    have := List.length_pos_iff.mpr hfits.reads.ne_nil
    simp only [List.length_cons, Piece.text, List.length_append]
    omega

end Tiles

namespace Lexer

variable {l l' : Lexer}

/-- What is read in one reading is a piece that fits. -/
theorem exists_piece (h : l.next? = some (item, l')) :
    ∃ x : Piece, x.item = item ∧ x.Fits l.position l'.rest ∧ l.rest = x.text ++ l'.rest ∧
      l'.position = l.position + byteCount x.text := by
  cases item with
  | token t =>
    obtain ⟨blanks, w, hl, hblanks, hspells, hapart, htext, hposition, hposition'⟩ :=
      spells_of_next? h
    obtain ⟨-, hw⟩ := Lexeme.isBlank_of_mem hspells
    have hfirst := Lexeme.first?_of_spells hspells hapart
    refine ⟨⟨blanks, w, .token t⟩, rfl, ⟨hblanks, ?_, hposition, hspells, ?_, htext⟩, ?_, ?_⟩
    · exact fun c hc => hw c (List.mem_of_mem_head? hc)
    · exact fun kind w' hw' hbegin => Lexeme.length_le_of_first? hfirst hw' hbegin
    · rw [hl, Piece.text, List.append_assoc]
    · rw [hposition', hposition, Piece.text, byteCount_append, Nat.add_assoc]
  | stray c p =>
    obtain ⟨blanks, hl, hblanks, hc, hfirst, hposition, hposition'⟩ := stray_of_next? h
    have hnone := Lexeme.first?_eq_none_iff.mp hfirst
    refine ⟨⟨blanks, [c], .stray c p⟩, rfl,
      ⟨hblanks, by simpa using hc, hposition, rfl, hnone⟩, ?_, ?_⟩
    · simp [hl, Piece.text]
    · simp [hposition', hposition, Piece.text, byteCount_append, byteCount, Nat.add_assoc]

/-- A piece that fits is what is read next. -/
theorem next?_of_fits {x : Piece} {p : Nat} {rest : List Char} (h : x.Fits p rest) :
    next? ⟨x.text ++ rest, p⟩ = some (x.item, ⟨rest, p + byteCount x.text⟩) := by
  cases hnext : next? ⟨x.text ++ rest, p⟩ with
  | none =>
    have hblank := next?_eq_none_iff.mp hnext
    obtain ⟨c, w, hlexeme⟩ := List.exists_cons_of_ne_nil h.reads.ne_nil
    have hc := hblank c (by simp [Piece.text, hlexeme])
    simp [h.lexeme c (by simp [hlexeme])] at hc
  | some found =>
    obtain ⟨item, cs, q⟩ := found
    obtain ⟨y, rfl, hfits, hsame, hposition⟩ := exists_piece hnext
    obtain ⟨rfl, rfl⟩ := h.unique hfits hsame
    obtain rfl : q = p + byteCount x.text := hposition
    rfl

/-- The items of a text that begins with a piece that fits. -/
theorem items_of_fits {x : Piece} {p : Nat} {rest : List Char} (h : x.Fits p rest) :
    items ⟨x.text ++ rest, p⟩ = x.item :: items ⟨rest, p + byteCount x.text⟩ :=
  items_of_some (next?_of_fits h)

/-- A piece fits when its blanks and its lexeme are told apart and its item is what is read next. -/
theorem fits_iff_next? {x : Piece} {p : Nat} {rest : List Char} :
    x.Fits p rest ↔
      x.blanks.all isBlank = true ∧ x.lexeme.head?.any (!isBlank ·) = true ∧
        next? ⟨x.text ++ rest, p⟩ = some (x.item, ⟨rest, p + byteCount x.text⟩) := by
  constructor
  · intro h
    obtain ⟨c, w, hlexeme⟩ := List.exists_cons_of_ne_nil h.reads.ne_nil
    have hc : isBlank c = false := h.lexeme c (by simp [hlexeme])
    exact ⟨List.all_eq_true.mpr h.blanks, by simp [hlexeme, hc], next?_of_fits h⟩
  · intro h
    obtain ⟨hblanks, hlexeme, hnext⟩ := h
    obtain ⟨c, w, hw, hc⟩ : ∃ c w, x.lexeme = c :: w ∧ isBlank c = false := by
      cases hw : x.lexeme with
      | nil => simp [hw] at hlexeme
      | cons c w => exact ⟨c, w, rfl, by simpa [hw] using hlexeme⟩
    obtain ⟨y, hitem, hfits, hsame, -⟩ := exists_piece hnext
    have htext : x.text = y.text := List.append_cancel_right hsame
    have hsplit : x.blanks = y.blanks := by
      rw [← hfits.takeWhile_isBlank, ← htext, Piece.text, List.append_assoc, hw]
      exact (Lexeme.takeWhile_append_of_head? (List.all_eq_true.mp hblanks) (by simp [hc])).symm
    have hrest : x.lexeme = y.lexeme := by
      simpa [Piece.text, hsplit] using htext
    obtain ⟨blanks, lexeme, item⟩ := x
    obtain ⟨blanks', lexeme', item'⟩ := y
    obtain ⟨rfl, rfl, rfl⟩ : blanks = blanks' ∧ lexeme = lexeme' ∧ item' = item :=
      ⟨hsplit, hrest, hitem⟩
    exact hfits

/-- Whether a piece fits is decided by reading. -/
instance (x : Piece) (p : Nat) (rest : List Char) : Decidable (x.Fits p rest) :=
  decidable_of_iff _ fits_iff_next?.symm

/-- What a lexer delivers are the items of pieces that make up its text. -/
theorem exists_tiles (l : Lexer) :
    ∃ xs, Tiles l.position l.rest xs ∧ l.items = xs.map Piece.item := by
  fun_induction Lexer.items l with
  | case1 l hnone => exact ⟨[], .blanks (next?_eq_none_iff.mp hnone), rfl⟩
  | case2 l item l' hnext ih =>
    obtain ⟨x, rfl, hfits, hl, hposition⟩ := exists_piece hnext
    obtain ⟨xs, htiles, hitems⟩ := ih
    rw [hposition] at htiles
    exact ⟨x :: xs, hl ▸ htiles.piece hfits, by rw [hitems, List.map_cons]⟩

/-- After a number of pulls the item of that number is delivered, or the end mark when there is
none. -/
theorem passing_pull (n : Nat) (l : Lexer) :
    (l.passing n).pull.1 = l.items[n]?.getD (.token l.endMark) := by
  obtain ⟨l', hpull, -, -⟩ := (l.passing n).pull_eq
  rw [hpull, passing_items, passing_endMark, nextItem, List.headD_eq_head?_getD, List.head?_drop]

/-- Every source is cut into pieces, each of them blanks and the longest lexeme that begins there,
or a single stray character, up to some blanks at its end. Pulls deliver the items of the pieces in
order, and then the mark of the end for ever. -/
theorem tiles_source (source : String) :
    ∃ (pieces : List Piece) (last : List Char),
      source.toList = pieces.flatMap Piece.text ++ last ∧ (∀ c ∈ last, isBlank c = true) ∧
      (∀ before x after, pieces = before ++ x :: after →
        x.Fits (byteCount (before.flatMap Piece.text)) (after.flatMap Piece.text ++ last)) ∧
      (pieces.Pairwise fun x y => x.item.position < y.item.position) ∧
      (∀ x ∈ pieces, ∃ front rest : String,
        source = front ++ rest ∧ front.utf8ByteSize = x.item.position) ∧
      pieces.length ≤ source.length ∧
      ∀ n, ((ofString source).passing n).pull.1 =
        (pieces[n]?.map Piece.item).getD (.token (.symbol .endOfInput source.utf8ByteSize)) := by
  obtain ⟨pieces, htiles, hitems⟩ := (ofString source).exists_tiles
  obtain ⟨last, hsource, hlast, hfits⟩ := htiles.exists_last
  simp only [ofString, Nat.zero_add] at hsource hfits
  refine ⟨pieces, last, hsource, hlast, hfits, htiles.pairwise_position, ?_, ?_, ?_⟩
  · intro x hx
    obtain ⟨before, after, hsplit⟩ := List.append_of_mem hx
    let front := before.flatMap Piece.text ++ x.blanks
    let rest := x.lexeme ++ after.flatMap Piece.text ++ last
    have hboth : source.toList = front ++ rest := by
      simp [hsource, hsplit, front, rest, Piece.text]
    refine ⟨.ofList front, .ofList rest, ?_, ?_⟩
    · rw [← String.ofList_append, ← hboth, String.ofList_toList]
    · rw [← byteCount_toList, String.toList_ofList, byteCount_append,
        (hfits before x after hsplit).position]
  · simpa only [ofString, String.length_toList] using htiles.length_le
  · intro n
    rw [passing_pull, hitems, List.getElem?_map, endMark_ofString]

end Lexer

end Calculator
