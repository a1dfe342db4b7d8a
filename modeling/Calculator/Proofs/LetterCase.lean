import Calculator.Proofs.Spacing
import Mathlib

/-!
# Letter case makes no difference

The letters of ASCII are read alike in both cases, and no lexeme holds any other character that has
a case. A text in small letters is therefore cut into the same lexemes at the same places: where a
word breaks off, the reading goes on after the same character. The items differ in the texts of the
two words and in stray letters, and neither a rule of the parser nor a value depends on those.

So a source and the same source in small letters are read in lockstep. Two sources that differ in
letter case are the same source in small letters, since `Char.toLower` changes the capital letters
of ASCII and no other character.
-/

namespace Calculator

/-- The token with its text in small letters. -/
def Token.toLower (t : Token) : Token :=
  { t with text := t.text.toLower }

/-- The item with its text in small letters. -/
def Item.toLower : Item → Item
  | token t => token t.toLower
  | stray c p => stray c.toLower p

/-- The error with the text that it quotes from the source in small letters: that of the token it
found, or the stray character. -/
def Error.toLower : Error → Error
  | strayCharacter c p => strayCharacter c.toLower p
  | parsing (.unexpectedToken expected found) => parsing (.unexpectedToken expected found.toLower)
  | error => error

/-- A lexer of the same text in small letters. -/
def Lexer.toLower (l : Lexer) : Lexer :=
  ⟨l.rest.map Char.toLower, l.position⟩

variable {c : Char} {cs front rest w : List Char} {p : Nat} {kind : Token.Kind} {xs : List Piece}

/-- The letters of ASCII by their numbers. -/
theorem isAlpha_iff :
    c.isAlpha = true ↔ 65 ≤ c.toNat ∧ c.toNat ≤ 90 ∨ 97 ≤ c.toNat ∧ c.toNat ≤ 122 := by
  simp only [Char.isAlpha, Char.isUpper, Char.isLower, Bool.or_eq_true, Bool.and_eq_true,
    decide_eq_true_eq, ge_iff_le, UInt32.le_iff_toNat_le]
  rfl

/-- What is no letter of ASCII has no other case. -/
theorem toLower_of_not_isAlpha (h : ¬ c.isAlpha = true) : c.toLower = c :=
  Char.toLower_eq_of_not_isUpper fun hupper => h (by simp [Char.isAlpha, hupper])

/-- What is the same for all letters does not depend on their case. -/
theorem apply_toLower {α : Type} (f : Char → α) (a : α) (h : ∀ c : Char, c.isAlpha = true → f c = a)
    (c : Char) : f c.toLower = f c := by
  by_cases hletter : c.isAlpha = true
  · rw [h c hletter, h c.toLower (by rwa [Char.isAlpha_toLower_eq_isAlpha])]
  · rw [toLower_of_not_isAlpha hletter]

/-- A letter is no blank, in either case. -/
@[simp] theorem isBlank_toLower (c : Char) : isBlank c.toLower = isBlank c := by
  refine apply_toLower isBlank false (fun c h => Bool.eq_false_iff.mpr fun hblank => ?_) c
  simp only [isBlank, Bool.or_eq_true, beq_iff_eq] at hblank
  rcases hblank with (((rfl | rfl) | rfl) | rfl) | rfl <;> contradiction

/-- A letter is no digit, in either case. -/
@[simp] theorem isDigit_toLower (c : Char) : c.toLower.isDigit = c.isDigit := by
  refine apply_toLower Char.isDigit false (fun c h => Bool.eq_false_iff.mpr fun hdigit => ?_) c
  have hnumber : 48 ≤ c.toNat ∧ c.toNat ≤ 57 := Char.isDigit_iff_toNat.mp hdigit
  have hletter := isAlpha_iff.mp h
  omega

/-- A letter is no symbol, in either case. -/
@[simp] theorem ofSymbol?_toLower (c : Char) :
    Token.Kind.ofSymbol? c.toLower = Token.Kind.ofSymbol? c := by
  refine apply_toLower Token.Kind.ofSymbol? none (fun c h => ?_) c
  simp only [Token.Kind.ofSymbol?]
  split <;> first | rfl | contradiction

/-- A letter takes one byte, in either case. -/
@[simp] theorem utf8Size_toLower (c : Char) : c.toLower.utf8Size = c.utf8Size := by
  refine apply_toLower Char.utf8Size 1 (fun c h => ?_) c
  rw [Char.utf8Size_eq_one_iff, UInt32.le_iff_toNat_le]
  have hletter := isAlpha_iff.mp h
  have hbound : c.toNat ≤ 127 := by omega
  exact hbound

/-- A letter is no dot, in either case. -/
theorem toLower_eq_dot : c.toLower = '.' ↔ c = '.' := by
  refine iff_of_eq (apply_toLower (· = '.') False (fun c h => eq_false fun hdot => ?_) c)
  obtain rfl := hdot
  contradiction

/-- A character with another case is one of ASCII. -/
theorem toNat_lt_of_toLower (h : c.toLower.toNat < 128) : c.toNat < 128 := by
  by_cases hletter : c.isAlpha = true
  · have hnumber := isAlpha_iff.mp hletter
    omega
  · rwa [toLower_of_not_isAlpha hletter] at h

/-- The blanks are characters of ASCII. -/
theorem toNat_lt_of_isBlank (h : isBlank c = true) : c.toNat < 128 := by
  simp only [isBlank, Bool.or_eq_true, beq_iff_eq] at h
  rcases h with (((rfl | rfl) | rfl) | rfl) | rfl <;> decide

/-- A text takes as many bytes in small letters. -/
@[simp] theorem byteCount_map_toLower (cs : List Char) :
    byteCount (cs.map Char.toLower) = byteCount cs := by
  induction cs with
  | nil => rfl
  | cons c cs ih => simp [byteCount, ih]

/-- The characters of a string in small letters. -/
theorem ofList_map_toLower (cs : List Char) :
    String.ofList (cs.map Char.toLower) = (String.ofList cs).toLower := by
  rw [← String.toList_inj]
  simp [String.toLower]

/-- The empty string has no letters. -/
@[simp] theorem toLower_empty : "".toLower = "" :=
  (ofList_map_toLower []).symm

namespace Lexeme

/-- A run of digits is as long in small letters. -/
@[simp] theorem digitCount_map_toLower (cs : List Char) :
    digitCount (cs.map Char.toLower) = digitCount cs := by
  simp [digitCount, List.takeWhile_map, Function.comp_def]

/-- A fraction is as long in small letters. -/
@[simp] theorem fractionLength_map_toLower (cs : List Char) :
    fractionLength (cs.map Char.toLower) = fractionLength cs := by
  cases cs with
  | nil => rfl
  | cons c cs =>
    by_cases hdot : c = '.'
    · subst hdot
      simp only [List.map_cons, show '.'.toLower = '.' from rfl, fractionLength,
        digitCount_map_toLower]
    · have hother (c : Char) (cs : List Char) (h : c ≠ '.') : fractionLength (c :: cs) = 0 := by
        simp [fractionLength, h]
      rw [List.map_cons, hother c cs hdot, hother _ _ (mt toLower_eq_dot.mp hdot)]

/-- A text begins with a word when it does so in small letters. -/
@[simp] theorem beginsWith_map_toLower (word cs : List Char) :
    beginsWith word (cs.map Char.toLower) = beginsWith word cs := by
  simp [beginsWith, ← List.map_take, Function.comp_def]

/-- A text begins with the same lexeme in small letters. -/
theorem first?_map_toLower (cs : List Char) : first? (cs.map Char.toLower) = first? cs := by
  have hsymbol : symbol? (cs.map Char.toLower) = symbol? cs := by
    cases cs with
    | nil => rfl
    | cons c cs => simp [symbol?]
  simp only [first?, numeral?, word?, hsymbol, beginsWith_map_toLower, digitCount_map_toLower,
    ← List.map_drop, fractionLength_map_toLower]

/-- A lexeme has no characters outside ASCII. -/
theorem toNat_lt_of_mem (h : kind.Spells w) (hc : c ∈ w) : c.toNat < 128 := by
  have hletters : ∀ small ∈ nanWord ++ infinityWord, small.toNat < 128 := by
    simp [nanWord, infinityWord]
  rcases char_cases h hc with hdigit | rfl | hletter | ⟨-, hsymbol⟩
  · have hnumber : 48 ≤ c.toNat ∧ c.toNat ≤ 57 := Char.isDigit_iff_toNat.mp hdigit
    omega
  · decide
  · exact toNat_lt_of_toLower (hletters _ hletter)
  · simp only [Token.Kind.ofSymbol?] at hsymbol
    split at hsymbol <;> simp at hsymbol ⊢

end Lexeme

namespace Lexer

/-- Skipping comes to the same place in small letters. -/
theorem skip_toLower (n : Nat) (l : Lexer) : l.toLower.skip n = (l.skip n).toLower := by
  simp [Lexer.toLower, skip, ← List.map_take]

/-- Skipping blanks comes to the same place in small letters. -/
theorem skipBlanks_toLower (l : Lexer) : l.toLower.skipBlanks = l.skipBlanks.toLower := by
  rw [skipBlanks, skipBlanks, ← skip_toLower]
  simp [Lexer.toLower, List.takeWhile_map, Function.comp_def]

/-- A token has its text in small letters when the source has. -/
theorem tokenOf_toLower (kind : Token.Kind) (n : Nat) (l : Lexer) :
    l.toLower.tokenOf kind n = (l.tokenOf kind n).toLower := by
  by_cases hliteral : kind.isLiteral = true <;>
    simp [tokenOf, Token.toLower, Lexer.toLower, hliteral, ← ofList_map_toLower]

/-- One reading in small letters is the reading of the text, in small letters. -/
theorem next?_toLower (l : Lexer) :
    l.toLower.next? = l.next?.map fun (item, l') => (item.toLower, l'.toLower) := by
  simp only [next?, skipBlanks_toLower, skip_toLower, tokenOf_toLower]
  generalize l.skipBlanks = start
  have hrest : start.toLower.rest = start.rest.map Char.toLower := rfl
  rw [hrest, Lexeme.first?_map_toLower]
  cases start.rest with
  | nil => rfl
  | cons c cs =>
    simp only [List.map_cons]
    cases Lexeme.first? (c :: cs) <;> rfl

/-- The items in small letters are the items of the text, in small letters. -/
theorem items_toLower (l : Lexer) : l.toLower.items = l.items.map Item.toLower := by
  fun_induction Lexer.items l with
  | case1 l hnone => exact items_of_none (by rw [next?_toLower, hnone]; rfl)
  | case2 l item l' hnext ih =>
    have hlower : l.toLower.next? = some (item.toLower, l'.toLower) := by
      rw [next?_toLower, hnext]
      rfl
    rw [items_of_some hlower, ih, List.map_cons]

/-- A text ends at the same byte in small letters. -/
theorem endMark_toLower (l : Lexer) : l.toLower.endMark = l.endMark.toLower := by
  simp [endMark, Lexer.toLower, Token.toLower, Token.symbol]

end Lexer

/-- A character that a text does not hold comes after it. -/
theorem exists_append_of_notMem {w later : List Char} (h : w ++ later = front ++ c :: rest)
    (hc : c ∉ w) : ∃ front', front = w ++ front' ∧ later = front' ++ c :: rest := by
  rcases List.append_eq_append_iff.mp h with ⟨front', hfront, hlater⟩ | ⟨gap, rfl, hgap⟩
  · exact ⟨front', hfront, hlater⟩
  · cases gap with
    | nil => exact ⟨[], by simp, by simpa using hgap.symm⟩
    | cons c' gap =>
      obtain rfl : c = c' := (List.cons.inj hgap).1
      simp at hc

namespace Tiles

/-- Every piece of a text fits somewhere. -/
theorem exists_fits (h : Tiles p cs xs) : ∀ x ∈ xs, ∃ q rest, x.Fits q rest := by
  induction h with
  | blanks => simp
  | piece hfits _ ih =>
    intro x hx
    rcases List.mem_cons.mp hx with rfl | hx
    · exact ⟨_, _, hfits⟩
    · exact ih x hx

/-- A character outside ASCII is a stray item of its own. -/
theorem stray_mem (h : Tiles p cs xs) (hsplit : cs = front ++ c :: rest) (hc : 128 ≤ c.toNat) :
    .stray c (p + byteCount front) ∈ xs.map Piece.item := by
  have hblank {w : List Char} (hw : ∀ c ∈ w, isBlank c = true) : c ∉ w := fun hmem => by
    have := toNat_lt_of_isBlank (hw c hmem)
    omega
  induction h generalizing front with
  | blanks hlast => exact absurd (by simp [hsplit]) (hblank hlast)
  | @piece p later x xs hfits _ ih =>
    obtain ⟨blanks, w, item⟩ := x
    simp only [Piece.text, List.append_assoc] at hsplit ih ⊢
    obtain ⟨front, rfl, hlexeme⟩ := exists_append_of_notMem hsplit (hblank hfits.blanks)
    have hother {front' : List Char} (hfront : front = w ++ front')
        (hlater : later = front' ++ c :: rest) :
        .stray c (p + byteCount (blanks ++ front)) ∈ (xs.map Piece.item) := by
      have hmem := ih hlater
      rw [hfront, ← List.append_assoc, byteCount_append, ← Nat.add_assoc]
      exact hmem
    cases item with
    | token t =>
      have hascii : c ∉ w := fun hmem => by
        have := Lexeme.toNat_lt_of_mem hfits.reads.1 hmem
        omega
      obtain ⟨front', hfront, hlater⟩ := exists_append_of_notMem hlexeme hascii
      exact List.mem_cons_of_mem _ (hother hfront hlater)
    | stray c' q =>
      obtain rfl : w = [c'] := hfits.reads.1
      cases front with
      | nil =>
        obtain ⟨rfl, -⟩ : c' = c ∧ later = rest := by simpa using hlexeme
        have hposition : q = p + byteCount blanks := hfits.position
        simp [hposition]
      | cons c₀ front' =>
        obtain ⟨rfl, hlater⟩ : c' = c₀ ∧ later = front' ++ c :: rest := by simpa using hlexeme
        exact List.mem_cons_of_mem _ (hother rfl hlater)

end Tiles

/-- Reading a text in small letters, as a change of items. -/
def lowering : Relabelling where
  token := Token.toLower
  item := Item.toLower
  error := Error.toLower
  kind_eq _ := rfl
  item_token _ := rfl
  item_stray c p := ⟨c.toLower, p, rfl, rfl⟩
  unexpected expected t := by
    by_cases hend : t.kind = .endOfInput <;>
      simp [SyntaxError.unexpected, hend, Error.toLower, Token.toLower]

/-- The numerals have no letters. -/
theorem map_toLower_of_spells {form : LiteralForm} (h : form.Spells w)
    (hform : form.isNumeral = true) : w.map Char.toLower = w := by
  have hdigits {ds : List Char} (hds : IsDigits ds) : ds.map Char.toLower = ds :=
    (List.map_congr_left fun c hc => toLower_of_isDigit (hds.2 c hc)).trans (List.map_id _)
  cases form with
  | integer => exact hdigits h
  | decimal =>
    obtain ⟨whole, fraction, hwhole, hfraction, rfl⟩ := h
    rw [List.map_append, List.map_cons, hdigits hwhole, hdigits hfraction]
    rfl
  | nan | infinity => contradiction

/-- A literal has the same value in small letters. -/
theorem Token.value_toLower {t : Token} {form : LiteralForm} (hkind : t.kind = .literal form)
    (h : form.Spells t.text.toList) : t.toLower.value = t.value := by
  by_cases hform : form.isNumeral = true
  · have htext : t.text.toLower = t.text := by
      rw [← String.toList_inj]
      simpa [String.toLower] using map_toLower_of_spells h hform
    rw [toLower, htext]
  · -- the value of a word does not depend on its text
    cases form with
    | nan | infinity => simp only [value, toLower, hkind, LiteralForm.magnitude?]
    | integer | decimal => exact absurd rfl hform

/-- Trees in lockstep have the same value when the first one is well formed. -/
theorem value_eq_of_trees {e e' : Expr} (h : lowering.lockstep.Trees e e') (he : e.WellFormed) :
    e'.value = e.value := by
  induction h with
  | leaf ht =>
    obtain rfl := ht
    obtain ⟨form, hkind, hspells⟩ := he
    exact Token.value_toLower hkind hspells
  | signed ht _ ih =>
    obtain rfl := ht
    obtain ⟨-, -, he⟩ := he
    simp only [Expr.value, ih he]
    rfl
  | binary ht _ _ ihl ihr =>
    obtain rfl := ht
    obtain ⟨-, -, hl, hr⟩ := he
    simp only [Expr.value, ihl hl, ihr hr]
    rfl

variable {source source' : String}

/-- Within a source, reading the next value is in step in small letters. -/
theorem nextValue_lowering {s s' : Cursor} (hs : lowering.Shown s s') (hwithin : s.Within source) :
    InStep lowering.Shown (fun e e' => e' = e.toLower) Eq (Parser.nextValue s)
      (Parser.nextValue s') :=
  lowering.lockstep.nextValue (fun _ => rfl) hs fun _ _ _ hnext he =>
    value_eq_of_trees he (hwithin.wellFormed_of_next hnext)

/-- The results within a source are the same in small letters, up to the text of an error. -/
theorem Evaluation.results_lowering {s s' : Cursor} (hs : lowering.Shown s s')
    (hwithin : s.Within source) :
    (ofCursor s').results = (ofCursor s).results.map (Except.mapError Error.toLower) := by
  have hread := nextValue_lowering hs hwithin
  have hlater := hwithin.leave .nextValue
  rw [results_eq, results_eq]
  simp only [Parser.Call.leave, Parser.leave] at hlater
  generalize hfirst : Parser.nextValue s = first at hread hlater
  generalize Parser.nextValue s' = first' at hread
  cases hread with
  | error he ht => simp [he, Except.mapError]
  | @ok found _ t t' hfound ht =>
    obtain rfl := hfound
    cases found with
    | none => rfl
    | some x =>
      have hlt := Parser.nextValue_some_length hfirst
      simp [results_lowering ht hlater, Except.mapError]
termination_by s.unread.length

/-- A source in small letters delivers the same items in small letters. -/
theorem Lexer.ofString_toLower (source : String) :
    ofString source.toLower = (ofString source).toLower := by
  simp [ofString, Lexer.toLower, String.toLower]

/-- A source in small letters is read in lockstep with the source. -/
theorem shown_toLower (source : String) :
    lowering.Shown (.ofString source) (.ofString source.toLower) := by
  refine ⟨_, _, Cursor.shows_ofString source, ?_⟩
  have hs := Cursor.shows_ofString source.toLower
  rwa [Lexer.ofString_toLower, Lexer.items_toLower, Lexer.endMark_toLower] at hs

/-- One expression has the same value in small letters, or the same error in small letters. -/
theorem evaluate_toLower (source : String) :
    evaluate source.toLower = (evaluate source).mapError Error.toLower := by
  have hread := nextValue_lowering (shown_toLower source) (Cursor.within_ofString source)
  have hend := lowering.lockstep.expectEnd hread.leave
  exact evaluate_eq_mapError hread.answer_eq_mapError hend.answer_eq_mapError

/-- All expressions have the same values in small letters, or the same error in small letters. -/
theorem evaluateAll_toLower (source : String) :
    evaluateAll source.toLower = (evaluateAll source).mapError Error.toLower := by
  rw [evaluateAll, evaluateAll, ← mapM_mapError]
  exact congrArg (List.mapM id)
    (Evaluation.results_lowering (shown_toLower source) (Cursor.within_ofString source))

/-- Sources that are the same in small letters have the same items and the same values, or the same
errors, up to the case of the letters that these quote. Characters outside ASCII are stray. -/
theorem evaluate_letter_case (source : String) :
    (∀ source' : String, source'.toLower = source.toLower →
      (Lexer.ofString source').itemsToEnd.map Item.toLower =
        (Lexer.ofString source).itemsToEnd.map Item.toLower ∧
      (evaluate source').mapError Error.toLower = (evaluate source).mapError Error.toLower ∧
      (evaluateAll source').mapError Error.toLower =
        (evaluateAll source).mapError Error.toLower) ∧
    (∃ pieces : List Piece, Tiles 0 source.toList pieces ∧
      (Lexer.ofString source).items = pieces.map Piece.item ∧
      ∀ x ∈ pieces, ∀ t : Token, x.item = .token t → ∀ c ∈ x.lexeme, c.toNat < 128) ∧
    ∀ (front rest : String) (c : Char), source = front ++ c.toString ++ rest → 128 ≤ c.toNat →
      .stray c front.utf8ByteSize ∈ (Lexer.ofString source).items := by
  obtain ⟨pieces, htiles, hitems⟩ := (Lexer.ofString source).exists_tiles
  refine ⟨fun source' hcase => ⟨?_, ?_, ?_⟩, ⟨pieces, htiles, hitems, ?_⟩, ?_⟩
  · have hlower (text : String) : (Lexer.ofString text).itemsToEnd.map Item.toLower =
        (Lexer.ofString text.toLower).itemsToEnd := by
      rw [Lexer.ofString_toLower, Lexer.itemsToEnd, Lexer.itemsToEnd, Lexer.items_toLower,
        Lexer.endMark_toLower, List.map_append]
      rfl
    rw [hlower, hlower, hcase]
  · rw [← evaluate_toLower, ← evaluate_toLower, hcase]
  · rw [← evaluateAll_toLower, ← evaluateAll_toLower, hcase]
  · intro x hx t ht
    obtain ⟨q, rest, hfits⟩ := htiles.exists_fits x hx
    have hreads := hfits.reads
    rw [ht] at hreads
    exact fun c => Lexeme.toNat_lt_of_mem hreads.1
  · intro front rest c hsource hc
    have hsplit : source.toList = front.toList ++ c :: rest.toList := by
      simp [hsource]
    have hmem := htiles.stray_mem hsplit hc
    rw [hitems, ← byteCount_toList]
    simpa [Lexer.ofString] using hmem

/-- A letter before a word is stray in either case, and the word after it is read. -/
theorem evaluate_letter_case_stray :
    evaluateAll "nan INan" = .error (.strayCharacter 'I' 4) ∧
      ∃ c, evaluateAll "NAN inAN" = .error (.strayCharacter c 4) ∧ c.toLower = 'i' := by
  have herror : evaluateAll "nan INan" = .error (.strayCharacter 'I' 4) := by decide +kernel
  have hcase : "NAN inAN".toLower = "nan INan".toLower := by
    rw [← String.toList_inj]
    simp [String.toLower]
  obtain ⟨-, -, hall⟩ := (evaluate_letter_case "nan INan").1 "NAN inAN" hcase
  refine ⟨herror, ?_⟩
  rw [herror] at hall
  cases hsmall : evaluateAll "NAN inAN" with
  | ok xs => simp [hsmall, Except.mapError] at hall
  | error e =>
    rw [hsmall] at hall
    cases e with
    | strayCharacter c p =>
      obtain ⟨hc, rfl⟩ : c.toLower = 'i' ∧ p = 4 := by
        simpa [Except.mapError, Error.toLower] using hall
      exact ⟨c, rfl, hc⟩
    | parsing error => cases error <;> simp [Except.mapError, Error.toLower] at hall
    | evaluation error => simp [Except.mapError, Error.toLower] at hall

end Calculator
