import Calculator.Proofs.Outside
import Calculator.Proofs.Resumption
import Calculator.Proofs.Spacing

/-!
# Where a source splits

A source that is accepted as an expression splits at the operator outside of its groups that joins
the whole. The tokens on each side are an expression by themselves: they are what a part of the text
holds, and this part alone is accepted, with the operand as its tree.

A part of a text that holds tokens of the whole is found in the tiling of the text. The trees of the
part and of the whole differ only in the positions, which in the part are counted from its own
start.
-/

namespace Calculator

variable {w : List Token}

/-- The first of the pieces that make up a text make up a part of it that ends with the last of
them, also when the rest is not there. -/
theorem Tiles.exists_append {p : Nat} {cs : List Char} {xs ys : List Piece}
    (h : Tiles p cs (xs ++ ys)) :
    ∃ front rest, cs = front ++ rest ∧ Tiles p front xs ∧
      Tiles (p + byteCount front) rest ys := by
  induction xs generalizing p cs with
  | nil => exact ⟨[], cs, rfl, .blanks (by simp), by simpa [byteCount] using h⟩
  | cons x xs ih =>
    cases h with
    | @piece _ later _ _ hfits hlater =>
      obtain ⟨front, rest, rfl, hfront, hrest⟩ := ih hlater
      have hshort : x.Fits p front := by
        have hreads : (x.item.move id).Reads x.lexeme front :=
          hfits.reads.move fun v _ hv => hv.trans (List.prefix_append front rest)
        exact ⟨hfits.blanks, hfits.lexeme, hfits.position, by simpa using hreads⟩
      refine ⟨x.text ++ front, rest, by simp, .piece hshort hfront, ?_⟩
      rwa [byteCount_append, ← Nat.add_assoc]

/-- Items that follow one another in a text are all that a part of the text holds. -/
theorem Lexer.exists_part {l : Lexer} {u v r : List Item} (h : l.items = u ++ v ++ r) :
    ∃ front part rest, l.rest = front ++ part ++ rest ∧
      items ⟨part, l.position + byteCount front⟩ = v := by
  obtain ⟨xs, htiles, hitems⟩ := l.exists_tiles
  rw [h] at hitems
  obtain ⟨xs₂, zs, rfl, hboth, -⟩ := List.map_eq_append_iff.mp hitems.symm
  obtain ⟨xs, ys, rfl, -, rfl⟩ := List.map_eq_append_iff.mp hboth
  obtain ⟨both, rest, hrest, hbothTiles, -⟩ := htiles.exists_append
  obtain ⟨front, part, rfl, -, hpart⟩ := hbothTiles.exists_append
  obtain ⟨ys', htiles', hitems'⟩ := exists_tiles ⟨part, l.position + byteCount front⟩
  obtain rfl := hpart.unique htiles'
  exact ⟨front, part, rest, hrest, hitems'⟩

/-- A text that holds an expression where it stands holds it by itself, moved to its own start. -/
theorem Parser.accepts_of_items {part : String} {p : Nat} {d : Sentence}
    (h : Lexer.items ⟨part.toList, p⟩ = d.yield.map .token) :
    ∃ e, Accepts part e ∧ e.move (· + p) = d.tree := by
  have hs := Cursor.shows_ofLexer ⟨part.toList, p⟩
  have hmoved := Lockstep.moved_ofString hs
  rw [h, ← List.append_nil (List.map _ _)] at hs
  obtain ⟨s, hnext, hshows⟩ := Parser.next_of_sentence hs (by simp [Follows])
  obtain ⟨s', hend, -⟩ := Parser.expectEnd_nil hshows
  have hstep := (Lockstep.moved (· + p)).next hmoved
  rw [hnext] at hstep
  cases hread : Parser.next (.ofString part) with
  | error e t => rw [hread] at hstep; cases hstep
  | ok found t =>
    rw [hread] at hstep
    cases hstep with
    | ok hfound ht =>
      obtain @⟨e, _, htrees⟩ := hfound
      have hstepEnd := (Lockstep.moved (· + p)).expectEnd ht
      rw [hend] at hstepEnd
      cases hreadEnd : Parser.expectEnd t with
      | error e t' => rw [hreadEnd] at hstepEnd; cases hstepEnd
      | ok _ t' => exact ⟨e, ⟨t, t', hread, hreadEnd⟩, htrees.eq_move.symm⟩

/-- Tokens of a source are an expression by themselves: they are what a part of its text holds, and
this part alone is accepted with the tree. Positions are counted from where the part stands. -/
def AcceptedAlone (source : String) (w : List Token) (e : Expr) : Prop :=
  ∃ front part rest : String, source = front ++ part ++ rest ∧
    (Lexer.ofString part).items.map (Item.move (· + front.utf8ByteSize)) = w.map .token ∧
    ∃ e', Parser.Accepts part e' ∧ e'.move (· + front.utf8ByteSize) = e

/-- Tokens that follow one another in a source and derive an expression are this expression by
themselves. -/
theorem Derives.acceptedAlone {source : String} {w part : List Token} {e : Expr}
    (h : Derives part e) (hitems : (Lexer.ofString source).items = w.map .token)
    (hpart : part <:+: w) : AcceptedAlone source part e := by
  obtain ⟨d, rfl, rfl⟩ := h
  obtain ⟨u, r, rfl⟩ := hpart
  simp only [List.map_append] at hitems
  obtain ⟨front, text, rest, hrest, htext⟩ := Lexer.exists_part hitems
  have hplace : (Lexer.ofString source).position + byteCount front =
      (String.ofList front).utf8ByteSize := by
    rw [← byteCount_toList, String.toList_ofList]
    exact Nat.zero_add _
  rw [hplace] at htext
  refine ⟨.ofList front, .ofList text, .ofList rest, ?_, ?_, ?_⟩
  · rw [← String.ofList_append, ← String.ofList_append, ← hrest]
    exact String.ofList_toList.symm
  · have hmove := Lexer.items_move text 0 (String.ofList front).utf8ByteSize
    rw [Nat.zero_add, htext] at hmove
    simpa [Lexer.ofString] using hmove.symm
  · exact Parser.accepts_of_items (by simpa using htext)

/-- What a text splits into may be said of its parts in other words. -/
theorem SplitsAs.mono {reads reads' : List Token → Expr → Prop} {e : Expr}
    (h : SplitsAs reads w e) (hreads : ∀ part e, part <:+: w → reads part e → reads' part e) :
    SplitsAs reads' w e := by
  have hbefore {before after : List Token} {op : Token} (htext : w = before ++ op :: after) :
      before <:+: w := htext ▸ (List.prefix_append _ _).isInfix
  have hafter {before after : List Token} {op : Token} (htext : w = before ++ op :: after) :
      after <:+: w := htext ▸ ((List.suffix_cons _ _).trans (List.suffix_append _ _)).isInfix
  cases h with
  | sum hop hl hr =>
    exact .sum hop (hreads _ _ (hbefore hop.1.text) hl) (hreads _ _ (hafter hop.1.text) hr)
  | product hsum hop hl hr =>
    exact .product hsum hop (hreads _ _ (hbefore hop.1.text) hl)
      (hreads _ _ (hafter hop.1.text) hr)
  | signed hsum hproduct htext hsign he =>
    exact .signed hsum hproduct htext hsign (hreads _ _ (@hafter [] _ _ htext) he)
  | power hsum hproduct hsigned hop hl hr =>
    exact .power hsum hproduct hsigned hop (hreads _ _ (hbefore hop.1.text) hl)
      (hreads _ _ (hafter hop.1.text) hr)
  | literal hsum hproduct hsigned hpower htext ht =>
    exact .literal hsum hproduct hsigned hpower htext ht
  | @group inside opening closing _ hsum hproduct hsigned hpower htext hopening hclosing he =>
    have hinside : inside <:+: w := ⟨[opening], [closing], by simp [htext]⟩
    exact .group hsum hproduct hsigned hpower htext hopening hclosing (hreads _ _ hinside he)

/-- A source that is accepted splits at the operator or sign that its tokens outside of the groups
single out, or it is a literal or a group. The parts are accepted alone, with the operands as their
trees. -/
theorem accepts_splits (source : String) (e : Expr) (h : Parser.Accepts source e) :
    ∃ w : List Token, (Lexer.ofString source).items = w.map .token ∧
      SplitsAs (AcceptedAlone source) w e := by
  obtain ⟨d, hitems, rfl⟩ := Parser.accepts_iff.mp h
  exact ⟨d.yield, hitems, d.splits.mono fun _ _ hpart hderives =>
    hderives.acceptedAlone hitems hpart⟩

/-- Of two subtractions and a sign the second subtraction joins the whole. -/
theorem accepts_splits_subtractions :
    let minus (p : Nat) : Token := .symbol (.operator .minus) p
    let digit (text : String) (p : Nat) : Token := ⟨.literal .integer, text, p⟩
    let e : Expr := .binary (minus 7)
      (.binary (minus 2) (.leaf (digit "8" 0)) (.signed (minus 4) (.leaf (digit "2" 5))))
      (.leaf (digit "3" 9))
    Parser.Accepts "8 - -2 - 3" e ∧
      ∃ w : List Token, (Lexer.ofString "8 - -2 - 3").items = w.map .token ∧
        SplitsAs (AcceptedAlone "8 - -2 - 3") w e := by
  intro minus digit e
  let operand (text : String) (p : Nat) : Derivation .power := .bare (.literal (digit text p) rfl)
  let d : Sentence := .sum (.product (.unsigned (operand "8" 0)) .noFactors)
    (.addProduct (minus 2) rfl (.product (.signed (minus 4) rfl (operand "2" 5)) .noFactors)
      (.addProduct (minus 7) rfl (.product (.unsigned (operand "3" 9)) .noFactors) .noProducts))
  have haccepts : Parser.Accepts "8 - -2 - 3" e :=
    Parser.accepts_iff.mpr ⟨d, by decide +kernel, rfl⟩
  exact ⟨haccepts, accepts_splits _ _ haccepts⟩

end Calculator
