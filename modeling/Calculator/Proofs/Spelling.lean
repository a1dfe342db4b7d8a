import Calculator.Lexer
import Mathlib.Data.List.TakeWhile

/-!
# How tokens are spelled

`Token.Kind.Spells` says which texts are lexemes of a kind, apart from how a lexeme is found: a run
of digits, two runs around a dot, a word in any letter case, or one symbol. What the lexer finds at
the start of a text is such a lexeme. Conversely a lexeme is found whenever what follows it is
neither a digit nor a dot, so the tokens of a text can be read off its lexemes.

The last part says the same of one reading of the lexer, blanks and positions included.
-/

namespace Calculator

/-- A run of ASCII digits. -/
def IsDigits (cs : List Char) : Prop :=
  cs ≠ [] ∧ ∀ c ∈ cs, c.isDigit = true

/-- The texts of the literals of a form. -/
def LiteralForm.Spells : LiteralForm → List Char → Prop
  | integer, w => IsDigits w
  | decimal, w =>
    ∃ whole fraction, IsDigits whole ∧ IsDigits fraction ∧ w = whole ++ '.' :: fraction
  | nan, w => w.map Char.toLower = ['n', 'a', 'n']
  | infinity, w => w.map Char.toLower = ['i', 'n', 'f', 'i', 'n', 'i', 't', 'y']

/-- The lexemes of a kind. -/
def Token.Kind.Spells : Token.Kind → List Char → Prop
  | literal form, w => form.Spells w
  | kind, w => ∃ c, ofSymbol? c = some kind ∧ w = [c]

/-- A text that cannot prolong a lexeme of a kind before it: a digit prolongs a numeral, and a dot
with a digit after it prolongs an integer. -/
def Token.Kind.Apart : Token.Kind → List Char → Prop
  | literal .integer, rest =>
    (∀ c ∈ rest.head?, c.isDigit = false) ∧ Lexeme.fractionLength rest = 0
  | literal .decimal, rest => ∀ c ∈ rest.head?, c.isDigit = false
  | _, _ => True

/-- The end of a text prolongs no lexeme. -/
theorem Token.Kind.apart_nil (kind : Token.Kind) : kind.Apart [] := by
  cases kind with
  | literal form => cases form <;> simp [Apart, Lexeme.fractionLength]
  | _ => trivial

/-- The blanks have no other letter case. -/
theorem isBlank_of_toLower {c : Char} (h : isBlank c.toLower = false) : isBlank c = false := by
  by_contra hblank
  simp only [isBlank, Bool.not_eq_false, Bool.or_eq_true, beq_iff_eq] at hblank
  rcases hblank with (((rfl | rfl) | rfl) | rfl) | rfl <;> revert h <;> decide

/-- A digit has no other letter case. -/
theorem toLower_of_isDigit {c : Char} (h : c.isDigit = true) : c.toLower = c := by
  simp only [Char.isDigit, Bool.and_eq_true, decide_eq_true_eq] at h
  have hupper : ¬ (c.val ≥ 65 ∧ c.val ≤ 90) := by
    intro hu
    have := UInt32.le_iff_toNat_le.mp hu.1
    have := UInt32.le_iff_toNat_le.mp h.2
    simp at *
    omega
  exact dif_neg hupper

/-- A blank is no digit. -/
theorem isDigit_of_isBlank {c : Char} (h : isBlank c = true) : c.isDigit = false := by
  simp only [isBlank, Bool.or_eq_true, beq_iff_eq] at h
  rcases h with (((rfl | rfl) | rfl) | rfl) | rfl <;> rfl

/-- A digit is no blank. -/
theorem isBlank_of_isDigit {c : Char} (h : c.isDigit = true) : isBlank c = false := by
  by_contra hblank
  simp [isDigit_of_isBlank (by simpa using hblank)] at h

namespace Lexeme

variable {cs rest w : List Char} {c : Char} {kind : Token.Kind} {n : Nat}

/-- The digits a text begins with, counted. -/
theorem take_digitCount (cs : List Char) : cs.take (digitCount cs) = cs.takeWhile Char.isDigit := by
  have hbegin := List.takeWhile_prefix (l := cs) Char.isDigit
  exact (List.prefix_iff_eq_take.mp hbegin).symm

/-- The longest start in a class ends where a character that is not in it comes next. -/
theorem takeWhile_append_of_head? {P : Char → Bool} (hw : ∀ c ∈ w, P c = true)
    (hrest : ∀ c ∈ rest.head?, P c = false) : (w ++ rest).takeWhile P = w := by
  rw [List.takeWhile_append_of_pos hw]
  cases rest with
  | nil => simp
  | cons c rest => simp [hrest c (by simp)]

/-- All digits that follow one another are counted. -/
theorem digitCount_append (hw : ∀ c ∈ w, c.isDigit = true)
    (hrest : ∀ c ∈ rest.head?, c.isDigit = false) : digitCount (w ++ rest) = w.length := by
  rw [digitCount, takeWhile_append_of_head? hw hrest]

/-- The digits a text begins with are a run of digits. -/
theorem isDigits_take (h : digitCount cs ≠ 0) : IsDigits (cs.take (digitCount cs)) := by
  rw [take_digitCount]
  constructor
  · intro hnil
    exact h (by simp [digitCount, hnil])
  · intro c hc
    exact List.mem_takeWhile_imp hc

/-- After the digits a text begins with there is no further digit. -/
theorem isDigit_of_head?_drop (cs : List Char) :
    ∀ c ∈ (cs.drop (digitCount cs)).head?, c.isDigit = false := by
  intro c hc
  have hsplit : cs.drop (digitCount cs) = cs.dropWhile Char.isDigit := by
    have hboth := List.take_append_drop (digitCount cs) cs
    rw [take_digitCount] at hboth
    exact List.append_cancel_left (hboth.trans List.takeWhile_append_dropWhile.symm)
  have hdrop := List.head?_dropWhile_not Char.isDigit cs
  rw [← hsplit, hc] at hdrop
  simpa using hdrop

/-- There is a fraction exactly when a digit follows a dot. -/
theorem fractionLength_eq_zero :
    fractionLength cs = 0 ↔ ∀ c ds, cs = '.' :: c :: ds → c.isDigit = false := by
  cases cs with
  | nil => simp [fractionLength]
  | cons c ds =>
    by_cases hdot : c = '.'
    · subst hdot
      cases ds with
      | nil => simp [fractionLength, digitCount]
      | cons d ds => cases hd : d.isDigit <;> simp [fractionLength, digitCount, hd]
    · simp [fractionLength, hdot]

/-- A numeral is found as it is spelled, and as long as it can be. -/
theorem numeral?_spells (h : numeral? cs = some (kind, n)) :
    kind.Spells (cs.take n) ∧ kind.Apart (cs.drop n) := by
  simp only [numeral?] at h
  split at h
  · simp at h
  · rename_i hwhole
    have hdigits := isDigits_take hwhole
    have hrest := isDigit_of_head?_drop cs
    split at h
    · rename_i hfraction
      simp only [Option.some.injEq, Prod.mk.injEq] at h
      obtain ⟨rfl, rfl⟩ := h
      exact ⟨hdigits, hrest, hfraction⟩
    · rename_i hfraction
      simp only [Option.some.injEq, Prod.mk.injEq] at h
      obtain ⟨rfl, rfl⟩ := h
      rw [← List.drop_drop, List.take_add]
      generalize cs.drop (digitCount cs) = rest at hfraction
      rw [fractionLength_eq_zero] at hfraction
      simp only [not_forall] at hfraction
      obtain ⟨c, ds, rfl, hc⟩ := hfraction
      have hcount : digitCount (c :: ds) ≠ 0 := by simp [digitCount, hc]
      have hlength : fractionLength ('.' :: c :: ds) = digitCount (c :: ds) + 1 := by
        simp only [fractionLength, hcount, if_false]
      rw [hlength, List.take_succ_cons, List.drop_succ_cons]
      exact ⟨⟨_, _, hdigits, isDigits_take hcount, rfl⟩, isDigit_of_head?_drop (c :: ds)⟩

/-- A word is found as it is spelled. -/
theorem word?_spells (h : word? cs = some (kind, n)) :
    kind.Spells (cs.take n) ∧ kind.Apart (cs.drop n) := by
  simp only [word?, beginsWith, beq_iff_eq] at h
  split at h
  · rename_i hword
    simp only [Option.some.injEq, Prod.mk.injEq] at h
    obtain ⟨rfl, rfl⟩ := h
    exact ⟨hword, trivial⟩
  · split at h
    · rename_i hword
      simp only [Option.some.injEq, Prod.mk.injEq] at h
      obtain ⟨rfl, rfl⟩ := h
      exact ⟨hword, trivial⟩
    · simp at h

/-- Only symbols are kinds of symbols. -/
theorem spells_of_ofSymbol? (h : Token.Kind.ofSymbol? c = some kind) :
    kind.Spells [c] ∧ kind.Apart rest := by
  have hspells : ∃ c', Token.Kind.ofSymbol? c' = some kind ∧ [c] = [c'] := ⟨c, h, rfl⟩
  simp only [Token.Kind.ofSymbol?] at h
  split at h <;> simp at h <;> subst h <;> exact ⟨hspells, trivial⟩

/-- What is found at the start of a text is a lexeme that nothing prolongs. -/
theorem first?_spells (h : first? cs = some (kind, n)) :
    kind.Spells (cs.take n) ∧ kind.Apart (cs.drop n) := by
  simp only [first?, Option.orElse_eq_orElse, Option.orElse_eq_or, Option.or_eq_some_iff] at h
  rcases h with h | ⟨-, h | ⟨-, h⟩⟩
  · exact numeral?_spells h
  · exact word?_spells h
  · cases cs with
    | nil => simp [symbol?] at h
    | cons c cs =>
      simp only [symbol?, Option.map_eq_some_iff, Prod.mk.injEq] at h
      obtain ⟨kind', hkind, rfl, rfl⟩ := h
      exact spells_of_ofSymbol? hkind

/-- A lexeme has a first character. -/
theorem ne_nil_of_spells (h : kind.Spells w) : w ≠ [] := by
  have hword {c : Char} {cs : List Char} (hw : w.map Char.toLower = c :: cs) : w ≠ [] := by
    rintro rfl
    simp at hw
  have hsymbol (h : ∃ c, Token.Kind.ofSymbol? c = some kind ∧ w = [c]) : w ≠ [] := by
    obtain ⟨c, -, rfl⟩ := h
    simp
  cases kind with
  | literal form =>
    cases form with
    | integer => exact h.1
    | decimal =>
      obtain ⟨whole, fraction, -, -, rfl⟩ := h
      simp
    | nan => exact hword h
    | infinity => exact hword h
  | operator | openParen | closeParen | endOfInput => exact hsymbol h

/-- The characters of lexemes: digits, the dot, the letters of the words in either case, and the
symbols, each of which is a lexeme alone. -/
theorem char_cases (h : kind.Spells w) (hc : c ∈ w) :
    c.isDigit = true ∨ c = '.' ∨ c.toLower ∈ nanWord ++ infinityWord ∨
      w = [c] ∧ (Token.Kind.ofSymbol? c).isSome = true := by
  have hword {word : List Char} (hw : w.map Char.toLower = word)
      (hsub : word ⊆ nanWord ++ infinityWord) : c.toLower ∈ nanWord ++ infinityWord :=
    hsub (hw ▸ List.mem_map_of_mem hc)
  have hsymbol (h : ∃ c, Token.Kind.ofSymbol? c = some kind ∧ w = [c]) :
      w = [c] ∧ (Token.Kind.ofSymbol? c).isSome = true := by
    obtain ⟨c', hkind, rfl⟩ := h
    obtain rfl : c = c' := by simpa using hc
    exact ⟨rfl, by simp [hkind]⟩
  cases kind with
  | literal form =>
    cases form with
    | integer => exact .inl (h.2 c hc)
    | decimal =>
      obtain ⟨whole, fraction, hwhole, hfraction, rfl⟩ := h
      rcases List.mem_append.mp hc with hc | hc
      · exact .inl (hwhole.2 c hc)
      · rcases List.mem_cons.mp hc with hdot | hc
        · exact .inr (.inl hdot)
        · exact .inl (hfraction.2 c hc)
    | nan => exact .inr (.inr (.inl (hword h (List.subset_append_left ..))))
    | infinity => exact .inr (.inr (.inl (hword h (List.subset_append_right ..))))
  | operator | openParen | closeParen | endOfInput => exact .inr (.inr (.inr (hsymbol h)))

/-- A lexeme has a first character and no blanks. -/
theorem isBlank_of_mem (h : kind.Spells w) : w ≠ [] ∧ ∀ c ∈ w, isBlank c = false := by
  refine ⟨ne_nil_of_spells h, fun c hc => ?_⟩
  have hletters : ∀ small ∈ nanWord ++ infinityWord, isBlank small = false := by
    simp [nanWord, infinityWord, isBlank]
  rcases char_cases h hc with hdigit | rfl | hletter | ⟨-, hsymbol⟩
  · exact isBlank_of_isDigit hdigit
  · rfl
  · exact isBlank_of_toLower (hletters _ hletter)
  · simp only [Token.Kind.ofSymbol?] at hsymbol
    split at hsymbol <;> simp [isBlank] at hsymbol ⊢

/-- A run of digits that ends is found as an integer. -/
theorem numeral?_of_integer (hw : IsDigits w) (hrest : (Token.Kind.literal .integer).Apart rest) :
    numeral? (w ++ rest) = some (.literal .integer, w.length) := by
  have hcount := digitCount_append hw.2 hrest.1
  simp [numeral?, hcount, hrest.2, hw.1]

/-- Two runs of digits around a dot are found as a decimal. -/
theorem numeral?_of_decimal {whole fraction : List Char} (hwhole : IsDigits whole)
    (hfraction : IsDigits fraction) (hrest : (Token.Kind.literal .decimal).Apart rest) :
    numeral? (whole ++ '.' :: fraction ++ rest) =
      some (.literal .decimal, (whole ++ '.' :: fraction).length) := by
  have hcount : digitCount (whole ++ ('.' :: (fraction ++ rest))) = whole.length :=
    digitCount_append hwhole.2 (by simp)
  have hcount' := digitCount_append hfraction.2 hrest
  simp [numeral?, hcount, hcount', fractionLength, hwhole.1, hfraction.1]

/-- A text that does not begin with a digit does not begin with a numeral. -/
theorem numeral?_of_not_isDigit (hc : c.isDigit = false) : numeral? (c :: cs) = none := by
  simp [numeral?, digitCount, hc]

/-- A letter is no digit. -/
theorem isDigit_of_toLower {small : Char} (hsmall : small.isDigit = false)
    (h : c.toLower = small) : c.isDigit = false := by
  by_contra hdigit
  simp only [Bool.not_eq_false] at hdigit
  rw [toLower_of_isDigit hdigit] at h
  simp [h, hsmall] at hdigit

/-- A text that begins with a letter does not begin with a numeral. -/
theorem first?_of_letter {small : Char} {smalls : List Char} (hsmall : small.isDigit = false)
    (hw : w.map Char.toLower = small :: smalls) :
    first? (w ++ rest) = (word? (w ++ rest)).or (symbol? (w ++ rest)) := by
  obtain ⟨c, cs, rfl, hc, -⟩ := List.map_eq_cons_iff.mp hw
  simp [first?, numeral?_of_not_isDigit (isDigit_of_toLower hsmall hc)]

/-- A text begins with the word that it spells. -/
theorem beginsWith_append {word : List Char} (hw : w.map Char.toLower = word) :
    beginsWith word (w ++ rest) = true := by
  have hlength : word.length = w.length := by simp [← hw]
  simp [beginsWith, hlength, hw]

/-- A text that begins with one word does not begin with the other. -/
theorem beginsWith_nanWord (hw : w.map Char.toLower = infinityWord) :
    beginsWith nanWord (w ++ rest) = false := by
  have hlength : w.length = 8 := by simpa [infinityWord] using congrArg List.length hw
  have htake : ((w ++ rest).take 3).map Char.toLower = infinityWord.take 3 := by
    rw [List.take_append_of_le_length (by omega), List.map_take, hw]
  simp only [beginsWith, show nanWord.length = 3 from rfl, htake]
  decide

/-- A lexeme is found when nothing prolongs it. -/
theorem first?_of_spells (h : kind.Spells w) (hrest : kind.Apart rest) :
    first? (w ++ rest) = some (kind, w.length) := by
  have hsymbol (h : ∃ c, Token.Kind.ofSymbol? c = some kind ∧ w = [c]) :
      first? (w ++ rest) = some (kind, w.length) := by
    obtain ⟨c, hc, rfl⟩ := h
    have hnumeral : numeral? (c :: rest) = none ∧ word? (c :: rest) = none := by
      simp only [Token.Kind.ofSymbol?] at hc
      split at hc <;> simp at hc <;>
        exact ⟨numeral?_of_not_isDigit rfl, by simp [word?, beginsWith, nanWord, infinityWord]⟩
    simp [first?, hnumeral, symbol?, hc]
  cases kind with
  | literal form =>
    cases form with
    | integer => simp [first?, numeral?_of_integer h hrest]
    | decimal =>
      obtain ⟨whole, fraction, hwhole, hfraction, rfl⟩ := h
      simp only [first?, numeral?_of_decimal hwhole hfraction hrest]
      rfl
    | nan =>
      have hw : w.map Char.toLower = nanWord := h
      rw [first?_of_letter (by decide) hw]
      have hlength : w.length = nanWord.length := by simp [← hw]
      simp [word?, beginsWith_append hw, hlength]
    | infinity =>
      have hw : w.map Char.toLower = infinityWord := h
      rw [first?_of_letter (by decide) hw]
      have hlength : w.length = infinityWord.length := by simp [← hw]
      simp [word?, beginsWith_append hw, beginsWith_nanWord hw, hlength]
  | operator op => exact hsymbol h
  | openParen => exact hsymbol h
  | closeParen => exact hsymbol h
  | endOfInput => exact hsymbol h

/-- A text is a lexeme of a kind exactly when it is found whole as one. -/
theorem spells_iff_first? : kind.Spells w ↔ first? w = some (kind, w.length) := by
  constructor
  · intro h
    simpa using first?_of_spells h kind.apart_nil
  · intro h
    simpa using (first?_spells h).1

/-- A text is a lexeme of one kind at most. -/
theorem kind_eq_of_spells {kind' : Token.Kind} (h : kind.Spells w) (h' : kind'.Spells w) :
    kind = kind' := by
  have hfirst := spells_iff_first?.mp h
  rw [spells_iff_first?.mp h'] at hfirst
  simp only [Option.some.injEq, Prod.mk.injEq, and_true] at hfirst
  exact hfirst.symm

/-- A text that begins with a digit begins with a numeral. -/
theorem numeral?_of_isDigits (hw : IsDigits w) : numeral? (w ++ rest) ≠ none := by
  obtain ⟨c, cs, rfl⟩ := List.exists_cons_of_ne_nil hw.1
  have hcount : digitCount (c :: (cs ++ rest)) ≠ 0 := by simp [digitCount, hw.2 c (by simp)]
  simp only [List.cons_append, numeral?, hcount, if_false]
  split <;> simp

/-- All digits that a text begins with are counted. -/
theorem le_digitCount (hw : ∀ c ∈ w, c.isDigit = true) : w.length ≤ digitCount (w ++ rest) := by
  simp [digitCount, List.takeWhile_append_of_pos hw]

/-- A numeral takes the digits a text begins with, and the fraction after them. -/
theorem length_of_numeral? (h : numeral? cs = some (kind, n)) :
    n = digitCount cs + fractionLength (cs.drop (digitCount cs)) := by
  simp only [numeral?] at h
  split at h
  · simp at h
  · split at h
    · rename_i hfraction
      simp only [Option.some.injEq, Prod.mk.injEq] at h
      rw [← h.2, hfraction, Nat.add_zero]
    · simp only [Option.some.injEq, Prod.mk.injEq] at h
      exact h.2.symm

/-- No longer lexeme begins where one is found. -/
theorem length_le_of_first? (h : first? cs = some (kind, n)) {kind' : Token.Kind}
    (hw : kind'.Spells w) (hbegin : w <+: cs) : w.length ≤ n := by
  obtain ⟨rest, rfl⟩ := hbegin
  have hnumeral (hsome : numeral? (w ++ rest) ≠ none) :
      n = digitCount (w ++ rest) + fractionLength ((w ++ rest).drop (digitCount (w ++ rest))) := by
    obtain ⟨found, hfound⟩ := Option.ne_none_iff_exists'.mp hsome
    have hsame : found = (kind, n) := by simpa [first?, hfound] using h
    exact length_of_numeral? (hsame ▸ hfound)
  have hother (hrest : kind'.Apart rest) : w.length ≤ n := by
    rw [first?_of_spells hw hrest] at h
    simp only [Option.some.injEq, Prod.mk.injEq] at h
    exact h.2.le
  cases kind' with
  | literal form =>
    cases form with
    | integer =>
      have hcount : w.length ≤ digitCount (w ++ rest) := le_digitCount hw.2
      have hn := hnumeral (numeral?_of_isDigits hw)
      omega
    | decimal =>
      obtain ⟨whole, fraction, hwhole, hfraction, rfl⟩ := hw
      rw [List.append_assoc, List.cons_append] at hnumeral
      have hcount : digitCount (whole ++ '.' :: (fraction ++ rest)) = whole.length :=
        digitCount_append hwhole.2 (by simp)
      have hcount' : fraction.length ≤ digitCount (fraction ++ rest) := le_digitCount hfraction.2
      have hpos := List.length_pos_iff.mpr hfraction.1
      have hn := hnumeral (numeral?_of_isDigits hwhole)
      rw [hcount, List.drop_left, fractionLength, if_neg (by omega)] at hn
      simp only [List.length_append, List.length_cons]
      omega
    | nan | infinity => exact hother trivial
  | operator | openParen | closeParen | endOfInput => exact hother trivial

/-- No lexeme is found exactly where none begins. -/
theorem first?_eq_none_iff :
    first? cs = none ↔ ∀ (kind : Token.Kind) (w : List Char), kind.Spells w → ¬ w <+: cs := by
  constructor
  · intro hnone kind w hspells h
    obtain ⟨rest, rfl⟩ := h
    have hnumeral (hw : numeral? (w ++ rest) ≠ none) : False := by
      simp only [first?, Option.orElse_eq_orElse, Option.orElse_eq_or, Option.or_eq_none_iff]
        at hnone
      exact hw hnone.1
    cases kind with
    | literal form =>
      cases form with
      | integer => exact hnumeral (numeral?_of_isDigits hspells)
      | decimal =>
        obtain ⟨whole, fraction, hwhole, -, rfl⟩ := hspells
        rw [List.append_assoc] at hnumeral
        exact hnumeral (numeral?_of_isDigits hwhole)
      | nan | infinity =>
        rw [first?_of_spells hspells trivial] at hnone
        contradiction
    | operator | openParen | closeParen | endOfInput =>
      rw [first?_of_spells hspells trivial] at hnone
      contradiction
  · intro hnone
    cases hfirst : first? cs with
    | none => rfl
    | some found => exact absurd (List.take_prefix found.2 cs) (hnone _ _ (first?_spells hfirst).1)

end Lexeme

namespace Lexer

variable {l l' : Lexer} {blanks w rest : List Char} {c : Char} {kind : Token.Kind} {t : Token}
  {p : Nat}

/-- Blanks are passed up to the next character that is none. -/
theorem skipBlanks_append (hblanks : ∀ c ∈ blanks, isBlank c = true)
    (hrest : ∀ c ∈ rest.head?, isBlank c = false) :
    skipBlanks ⟨blanks ++ rest, p⟩ = ⟨rest, p + byteCount blanks⟩ := by
  simp [skipBlanks, skip, Lexeme.takeWhile_append_of_head? hblanks hrest]

/-- Every text is blanks and a rest that does not begin with a blank. -/
theorem exists_blanks (cs : List Char) :
    ∃ blanks rest, cs = blanks ++ rest ∧ (∀ c ∈ blanks, isBlank c = true) ∧
      ∀ c ∈ rest.head?, isBlank c = false := by
  refine ⟨cs.takeWhile isBlank, cs.dropWhile isBlank, by simp,
    fun c hc => List.mem_takeWhile_imp hc, fun c hc => ?_⟩
  have hdrop := List.head?_dropWhile_not isBlank cs
  rw [hc] at hdrop
  simpa using hdrop

/-- Only blanks are left exactly when there is no next item. -/
theorem next?_eq_none_iff : l.next? = none ↔ ∀ c ∈ l.rest, isBlank c = true := by
  obtain ⟨cs, p⟩ := l
  obtain ⟨blanks, rest, rfl, hblanks, hrest⟩ := exists_blanks cs
  simp only [next?, skipBlanks_append hblanks hrest]
  cases rest with
  | nil => simpa using hblanks
  | cons c rest =>
    have hc := hrest c (by simp)
    simp only
    constructor
    · intro h
      split at h <;> simp at h
    · intro h
      simp [h c (by simp)] at hc

/-- A lexeme after blanks is read as a token when nothing prolongs it. -/
theorem next?_of_spells (hblanks : ∀ c ∈ blanks, isBlank c = true) (hw : kind.Spells w)
    (hrest : kind.Apart rest) :
    next? ⟨blanks ++ (w ++ rest), p⟩ =
      some (.token ⟨kind, if kind.isLiteral then String.ofList w else "", p + byteCount blanks⟩,
        ⟨rest, p + byteCount blanks + byteCount w⟩) := by
  have hfirst := Lexeme.first?_of_spells hw hrest
  obtain ⟨hnil, hw⟩ := Lexeme.isBlank_of_mem hw
  obtain ⟨c, cs, rfl⟩ := List.exists_cons_of_ne_nil hnil
  have hc := hw c (by simp)
  have hskip : skipBlanks ⟨blanks ++ (c :: cs ++ rest), p⟩ =
      ⟨c :: cs ++ rest, p + byteCount blanks⟩ := skipBlanks_append hblanks (by simpa using hc)
  simp only [List.cons_append] at hfirst hskip ⊢
  simp only [next?, hskip, hfirst, tokenOf, skip]
  simp

/-- A character after blanks at which no lexeme begins is read as a stray one. -/
theorem next?_of_stray (hblanks : ∀ c ∈ blanks, isBlank c = true) (hc : isBlank c = false)
    (hrest : Lexeme.first? (c :: rest) = none) :
    next? ⟨blanks ++ c :: rest, p⟩ =
      some (.stray c (p + byteCount blanks), ⟨rest, p + byteCount blanks + c.utf8Size⟩) := by
  have hskip : skipBlanks ⟨blanks ++ c :: rest, p⟩ = ⟨c :: rest, p + byteCount blanks⟩ :=
    skipBlanks_append hblanks (by simpa using hc)
  simp [next?, hskip, hrest, skip, byteCount]

/-- What is read begins at the first character that is no blank. -/
theorem exists_of_next? {found : Item × Lexer} (h : l.next? = some found) :
    ∃ blanks c rest, l.rest = blanks ++ c :: rest ∧ (∀ c ∈ blanks, isBlank c = true) ∧
      isBlank c = false ∧
      let start : Lexer := ⟨c :: rest, l.position + byteCount blanks⟩
      found = match Lexeme.first? (c :: rest) with
        | some (kind, n) => (.token (start.tokenOf kind n), start.skip n)
        | none => (.stray c start.position, start.skip 1) := by
  obtain ⟨cs, p⟩ := l
  obtain ⟨blanks, rest, rfl, hblanks, hrest⟩ := exists_blanks cs
  simp only [next?, skipBlanks_append hblanks hrest] at h
  cases rest with
  | nil => simp at h
  | cons c rest =>
    refine ⟨blanks, c, rest, rfl, hblanks, hrest c (by simp), ?_⟩
    cases hfirst : Lexeme.first? (c :: rest) <;>
      simpa only [hfirst, Option.some.injEq, eq_comm] using h

/-- A token that is read comes from a lexeme after blanks. -/
theorem spells_of_next? (h : l.next? = some (.token t, l')) :
    ∃ blanks w, l.rest = blanks ++ (w ++ l'.rest) ∧ (∀ c ∈ blanks, isBlank c = true) ∧
      t.kind.Spells w ∧ t.kind.Apart l'.rest ∧
      t.text = (if t.kind.isLiteral then String.ofList w else "") ∧
      t.position = l.position + byteCount blanks ∧ l'.position = t.position + byteCount w := by
  obtain ⟨blanks, c, rest, htext, hblanks, -, hfound⟩ := exists_of_next? h
  cases hfirst : Lexeme.first? (c :: rest) with
  | none => simp [hfirst] at hfound
  | some lexeme =>
    simp only [hfirst, Prod.mk.injEq, Item.token.injEq] at hfound
    obtain ⟨rfl, rfl⟩ := hfound
    obtain ⟨hspells, hapart⟩ := Lexeme.first?_spells hfirst
    exact ⟨blanks, (c :: rest).take lexeme.2, by simp [skip, htext], hblanks, hspells, hapart, rfl,
      rfl, rfl⟩

/-- A stray character that is read is one at which no lexeme begins. -/
theorem stray_of_next? (h : l.next? = some (.stray c p, l')) :
    ∃ blanks, l.rest = blanks ++ c :: l'.rest ∧ (∀ c ∈ blanks, isBlank c = true) ∧
      isBlank c = false ∧ Lexeme.first? (c :: l'.rest) = none ∧
      p = l.position + byteCount blanks ∧ l'.position = p + c.utf8Size := by
  obtain ⟨blanks, c', rest, htext, hblanks, hc, hfound⟩ := exists_of_next? h
  cases hfirst : Lexeme.first? (c' :: rest) with
  | some lexeme => simp [hfirst] at hfound
  | none =>
    simp only [hfirst, Prod.mk.injEq, Item.stray.injEq] at hfound
    obtain ⟨⟨rfl, rfl⟩, rfl⟩ := hfound
    exact ⟨blanks, htext, hblanks, hc, hfirst, rfl, by simp [skip, byteCount]⟩

end Lexer

end Calculator
