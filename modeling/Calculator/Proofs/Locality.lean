import Calculator.Proofs.Spelling
import Calculator.Proofs.View

/-!
# Reading the start of a text

What a lexer delivers from the start of a text depends on how the text goes on only where the next
character could prolong a lexeme or begin another one. When the text ends there, or a blank or a
symbol follows, the items before that place are the same whatever comes after it. `Lexer.items_cut`
says this of any number of items. A step of the induction is one reading with the characters after
it still present, so that a longest match is never cut in two.
-/

namespace Calculator

variable {cs front rest tail : List Char} {kind : Token.Kind} {c : Char}

/-- Whether every lexeme before a character has ended there, as it has at a blank or a symbol. -/
def endsLexeme (c : Char) : Bool :=
  isBlank c || (Token.Kind.ofSymbol? c).isSome

/-- Every lexeme ends before a blank. -/
theorem endsLexeme_of_isBlank (h : isBlank c = true) : endsLexeme c = true := by
  simp [endsLexeme, h]

/-- Symbols are no digits and have no other letter case. -/
theorem isDigit_of_ofSymbol? (h : (Token.Kind.ofSymbol? c).isSome = true) :
    c.isDigit = false ∧ c.toLower = c := by
  simp only [Token.Kind.ofSymbol?] at h
  split at h <;> simp at h <;> exact ⟨rfl, rfl⟩

/-- What ends lexemes is no digit. -/
theorem isDigit_of_endsLexeme (h : endsLexeme c = true) : c.isDigit = false := by
  rcases Bool.or_eq_true_iff.mp h with h | h
  · exact isDigit_of_isBlank h
  · exact (isDigit_of_ofSymbol? h).1

/-- After its first character a lexeme has no symbols. -/
theorem ofSymbol?_of_mem_tail {w : List Char} (h : kind.Spells w) :
    ∀ c ∈ w.tail, (Token.Kind.ofSymbol? c).isSome = false := by
  intro c hc
  have hletters : ∀ small ∈ Lexeme.nanWord ++ Lexeme.infinityWord,
      (Token.Kind.ofSymbol? small).isSome = false :=
    List.forall_mem_append.mpr ⟨by simp [Lexeme.nanWord, Token.Kind.ofSymbol?],
      by simp [Lexeme.infinityWord, Token.Kind.ofSymbol?]⟩
  refine Bool.eq_false_iff.mpr fun hsymbol => ?_
  obtain ⟨hnoDigit, hsame⟩ := isDigit_of_ofSymbol? hsymbol
  rcases Lexeme.char_cases h (List.mem_of_mem_tail hc) with hdigit | rfl | hletter | ⟨rfl, -⟩
  · simp [hdigit] at hnoDigit
  · simp [Token.Kind.ofSymbol?] at hsymbol
  · rw [hsame] at hletter
    simp [hletters c hletter] at hsymbol
  · simp at hc

/-- After its first character a lexeme goes on where no lexeme ends. -/
theorem endsLexeme_of_mem_tail {w : List Char} (h : kind.Spells w) :
    ∀ c ∈ w.tail, endsLexeme c = false := by
  intro c hc
  have hblank := (Lexeme.isBlank_of_mem h).2 c (List.mem_of_mem_tail hc)
  simp [endsLexeme, hblank, ofSymbol?_of_mem_tail h c hc]

/-- Lexemes are kept apart by the first two characters after them, and by a blank or the end. -/
theorem Token.Kind.Apart.cut (h : kind.Apart (front ++ rest))
    (htail : ∀ c ∈ tail.head?, endsLexeme c = true) : kind.Apart (front ++ tail) := by
  have hdigit : ∀ c ∈ tail.head?, c.isDigit = false :=
    fun c hc => isDigit_of_endsLexeme (htail c hc)
  have hhead (hrest : ∀ c ∈ (front ++ rest).head?, c.isDigit = false) :
      ∀ c ∈ (front ++ tail).head?, c.isDigit = false := by
    cases front with
    | nil => exact hdigit
    | cons c front => exact hrest
  cases kind with
  | literal form =>
    cases form with
    | integer =>
      refine ⟨hhead h.1, Lexeme.fractionLength_eq_zero.mpr fun c ds heq => ?_⟩
      have hfraction := Lexeme.fractionLength_eq_zero.mp h.2
      match front with
      | [] =>
        have hdot := htail '.' (by simp [show tail = _ from heq])
        simp [endsLexeme, isBlank, Token.Kind.ofSymbol?] at hdot
      | [_] =>
        simp only [List.cons_append, List.nil_append, List.cons.injEq] at heq
        exact hdigit c (by simp [heq.2])
      | a :: b :: front =>
        simp only [List.cons_append, List.cons.injEq] at heq
        obtain ⟨rfl, rfl, -⟩ := heq
        exact hfraction b (front ++ rest) rfl
    | decimal => exact hhead h
    | nan | infinity => trivial
  | _ => trivial

/-- Where no lexeme begins, none begins when the text is cut after its first character. -/
theorem Lexeme.first?_cut (h : first? (c :: (front ++ rest)) = none)
    (htail : ∀ c ∈ tail.head?, endsLexeme c = true) : first? (c :: (front ++ tail)) = none := by
  rw [first?_eq_none_iff] at h ⊢
  intro kind w hspells hbegin
  have hends := endsLexeme_of_mem_tail hspells
  have hfront : w <+: c :: front := by
    rw [← List.cons_append] at hbegin
    have hfront := List.prefix_append (c :: front) tail
    rcases List.prefix_or_prefix_of_prefix hbegin hfront with hw | hw
    · exact hw
    · obtain ⟨v, rfl⟩ := hw
      cases v with
      | nil => simp
      | cons c' v =>
        -- the lexeme would go on over the place of the cut
        obtain ⟨r, rfl⟩ := (List.prefix_append_right_inj (c :: front)).mp hbegin
        have hcut : endsLexeme c' = true := htail c' (by simp)
        simp [hends c' (by simp)] at hcut
  rw [← List.cons_append] at h
  exact h kind w hspells (hfront.trans (List.prefix_append (c :: front) rest))

namespace Lexer

variable {l l' : Lexer} {item : Item}

/-- The lexer after a number of pulls. -/
def passing : Nat → Lexer → Lexer
  | 0, l => l
  | n + 1, l => passing n l.pull.2

/-- Pulls take items off. -/
theorem passing_items (n : Nat) (l : Lexer) : (l.passing n).items = l.items.drop n := by
  induction n generalizing l with
  | zero => rfl
  | succ n ih =>
    obtain ⟨l', hpull, hitems, -⟩ := l.pull_eq
    rw [passing, ih, hpull, hitems, List.drop_tail]

/-- The end of a source is the number of its bytes. -/
theorem endMark_ofString (source : String) :
    (ofString source).endMark = .symbol .endOfInput source.utf8ByteSize := by
  simp [endMark, ofString, byteCount_toList]

/-- Pulls leave the end where it is. -/
theorem passing_endMark (n : Nat) (l : Lexer) : (l.passing n).endMark = l.endMark := by
  induction n generalizing l with
  | zero => rfl
  | succ n ih =>
    obtain ⟨l', hpull, -, hmark⟩ := l.pull_eq
    rw [passing, ih, hpull, hmark]

/-- One reading stays the same when the text after it is cut where every lexeme has ended. -/
theorem next?_cut (h : l.next? = some (item, l')) :
    ∃ begun, l.rest = begun ++ l'.rest ∧
      ∀ front rest tail : List Char, l'.rest = front ++ rest →
        (∀ c ∈ tail.head?, endsLexeme c = true) →
        next? ⟨begun ++ (front ++ tail), l.position⟩ =
          some (item, ⟨front ++ tail, l'.position⟩) := by
  cases item with
  | token t =>
    obtain ⟨blanks, w, hl, hblanks, hspells, hapart, htext, hposition, hposition'⟩ :=
      spells_of_next? h
    refine ⟨blanks ++ w, by simp [hl], fun front rest tail hrest htail => ?_⟩
    rw [hrest] at hapart
    have hnext := next?_of_spells (p := l.position) hblanks hspells (hapart.cut htail)
    rw [List.append_assoc, hnext, ← htext, ← hposition, ← hposition']
  | stray c p =>
    obtain ⟨blanks, hl, hblanks, hc, hfirst, hposition, hposition'⟩ := stray_of_next? h
    refine ⟨blanks ++ [c], by simp [hl], fun front rest tail hrest htail => ?_⟩
    rw [hrest, ← List.cons_append] at hfirst
    have hcut : Lexeme.first? (c :: (front ++ tail)) = none := Lexeme.first?_cut hfirst htail
    have hnext := next?_of_stray (p := l.position) hblanks hc hcut
    rw [List.append_assoc, List.singleton_append, hnext, ← hposition, ← hposition']

/-- The first items of a text stay the same when the text is cut after them and goes on where every
lexeme has ended, or not at all. -/
theorem items_cut (n : Nat) (l : Lexer) (hn : n ≤ l.items.length) :
    ∃ front, l.rest = front ++ (l.passing n).rest ∧
      ∀ tail : List Char, (∀ c ∈ tail.head?, endsLexeme c = true) →
        items ⟨front ++ tail, l.position⟩ =
          l.items.take n ++ items ⟨tail, (l.passing n).position⟩ := by
  induction n generalizing l with
  | zero => exact ⟨[], rfl, fun tail _ => rfl⟩
  | succ n ih =>
    cases hnext : l.next? with
    | none => simp [items_of_none hnext] at hn
    | some found =>
      obtain ⟨item, l'⟩ := found
      have hitems := items_of_some hnext
      obtain ⟨front, hrest, hcut⟩ := ih l' (by simpa [hitems] using hn)
      have hpassing : l.passing (n + 1) = l'.passing n := by simp [passing, pull, hnext]
      obtain ⟨begun, hl, hcutNext⟩ := next?_cut hnext
      refine ⟨begun ++ front, by rw [hl, hrest, hpassing, List.append_assoc], fun tail htail => ?_⟩
      have hnext' := hcutNext front _ tail hrest htail
      rw [List.append_assoc, items_of_some hnext', hcut tail htail, hitems, hpassing]
      rfl

end Lexer

end Calculator
