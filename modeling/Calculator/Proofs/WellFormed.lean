import Calculator.Expr.Value
import Calculator.Proofs.Grammar
import Calculator.Proofs.Spelling
import Calculator.Proofs.View

/-!
# Well-formed trees

A tree is well formed when its leaves are literals with texts of their forms, its signs are `+` or
`-`, and its operators are operators, both without text. The value of such a tree exists: a
literal that is spelled as its form asks can be read, and no other fault is possible.

The tokens of a lexer are spelled as their kinds ask, so the tree of a phrase made of them is well
formed.
-/

namespace Calculator

/-- A token has the text that its kind asks for: a literal its spelling, any other kind nothing. -/
def Token.Lexical (t : Token) : Prop :=
  match t.kind with
  | .literal form => form.Spells t.text.toList
  | _ => t.text = ""

/-- A tree whose nodes all hold tokens that they can hold. -/
def Expr.WellFormed : Expr → Prop
  | leaf t => ∃ form, t.kind = .literal form ∧ form.Spells t.text.toList
  | signed t e => (t.kind = .operator .plus ∨ t.kind = .operator .minus) ∧ t.text = "" ∧
      e.WellFormed
  | binary t l r => (∃ op, t.kind = .operator op) ∧ t.text = "" ∧ l.WellFormed ∧ r.WellFormed

/-- The tokens that a lexer delivers have the texts that their kinds ask for. -/
theorem Lexer.lexical_of_next? {l l' : Lexer} {t : Token}
    (h : l.next? = some (.token t, l')) : t.Lexical := by
  obtain ⟨blanks, w, -, -, hspells, -, htext, -⟩ := spells_of_next? h
  cases hkind : t.kind with
  | literal form =>
    rw [hkind] at hspells
    have hform : form.Spells w := hspells
    simp only [hkind, Token.Kind.isLiteral, if_true] at htext
    simpa only [Token.Lexical, hkind, htext, String.toList_ofList] using hform
  | _ => simpa [Token.Lexical, hkind, Token.Kind.isLiteral] using htext

/-- All tokens that a lexer delivers have the texts that their kinds ask for. -/
theorem Lexer.lexical_of_mem_items {l : Lexer} {t : Token} (h : .token t ∈ l.items) :
    t.Lexical := by
  have hall := forall_mem_items (P := fun item => ∀ t, item = .token t → t.Lexical)
    (fun l item l' hnext t ht => lexical_of_next? (ht ▸ hnext)) l
  exact hall _ h t rfl

/-- An operator token has no text. -/
theorem Token.Lexical.text_of_isOperator {t : Token} (h : t.Lexical)
    (hop : t.kind.isOperator = true) : t.text = "" := by
  cases hkind : t.kind with
  | operator op => simpa [Lexical, hkind] using h
  | _ => simp [hkind, Token.Kind.isOperator] at hop

/-- An operator token has an operator for its kind. -/
theorem Token.Kind.exists_operator {k : Token.Kind} (h : k.isOperator = true) :
    ∃ op, k = .operator op := by
  cases k with
  | operator op => exact ⟨op, rfl⟩
  | _ => contradiction

/-- The additive kinds are those of `+` and `-`. -/
theorem Token.Kind.eq_of_isAdditive {k : Token.Kind} (h : k.isAdditive = true) :
    k = .operator .plus ∨ k = .operator .minus := by
  cases k with
  | operator op => cases op <;> simp_all [isAdditive, Operator.isAdditive]
  | _ => contradiction

/-- A property of trees, said of what a phrase stands for; the end of a repetition keeps it. -/
def Nonterminal.Holds (P : Expr → Prop) : (n : Nonterminal) → n.Meaning → Prop
  | .products, f | .factors, f => ∀ left, P left → P (f left)
  | .sum, e | .product, e | .signed, e | .power, e | .atom, e => P e

/-- An operator between two well-formed trees makes a well-formed tree. -/
theorem Expr.WellFormed.binary {t : Token} {l r : Expr} (ht : t.Lexical)
    (hop : t.kind.isOperator = true) (hl : l.WellFormed) (hr : r.WellFormed) :
    (Expr.binary t l r).WellFormed :=
  ⟨t.kind.exists_operator hop, ht.text_of_isOperator hop, hl, hr⟩

/-- A phrase of tokens that have the texts their kinds ask for has a well-formed tree. -/
theorem Derivation.wellFormed {n : Nonterminal} (d : Derivation n)
    (h : ∀ t ∈ d.yield, t.Lexical) : n.Holds Expr.WellFormed d.tree := by
  induction d with
  | sum first more ihFirst ihMore | product first more ihFirst ihMore =>
    have hmore := ihMore fun t ht => h t (by simp [yield, ht])
    exact hmore _ (ihFirst fun t ht => h t (by simp [yield, ht]))
  | noProducts | noFactors => exact fun _ hleft => hleft
  | addProduct op hop next more ihNext ihMore | addFactor op hop next more ihNext ihMore =>
    intro left hleft
    have hmore := ihMore fun t ht => h t (by simp [yield, ht])
    have hnext := ihNext fun t ht => h t (by simp [yield, ht])
    have hoperator : op.kind.isOperator = true := by simp [Token.Kind.isOperator_eq, hop]
    exact hmore _ (.binary (h op (by simp [yield])) hoperator hleft hnext)
  | unsigned operand ih | bare operand ih => exact ih h
  | signed sign hsign operand ih =>
    have hoperator := Token.Kind.isOperator_of_isAdditive hsign
    exact ⟨Token.Kind.eq_of_isAdditive hsign,
      (h sign (by simp [yield])).text_of_isOperator hoperator,
      ih fun t ht => h t (by simp [yield, ht])⟩
  | raised base op hop exponent ihBase ihExponent =>
    have hoperator := Token.Kind.isOperator_of_isPower hop
    exact .binary (h op (by simp [yield])) hoperator (ihBase fun t ht => h t (by simp [yield, ht]))
      (ihExponent fun t ht => h t (by simp [yield, ht]))
  | literal t ht =>
    have hlexical := h t (by simp [yield])
    cases hkind : t.kind with
    | literal form => exact ⟨form, hkind, by simpa only [Token.Lexical, hkind] using hlexical⟩
    | _ => simp [hkind, Token.Kind.isLiteral] at ht
  | group opening hopening inner closing hclosing ih =>
    exact ih fun t ht => h t (by simp [yield, ht])

/-- The runs of digits are the texts that pass the check of the reader. -/
theorem Decimal.isDigits_iff {cs : List Char} : isDigits cs = true ↔ IsDigits cs := by
  simp [isDigits, IsDigits]

/-- A run of digits passes the check of the reader. -/
theorem Decimal.isDigits_of_isDigits {cs : List Char} (h : IsDigits cs) :
    isDigits cs = true :=
  isDigits_iff.mpr h

/-- A run of digits is read as an integer. -/
theorem Decimal.ofInteger?_of_isDigits {w : List Char} (h : IsDigits w) :
    ofInteger? w = some (ofDigits w []) := by
  have hdigits : isDigits w = true := isDigits_of_isDigits h
  simp only [ofInteger?, if_pos hdigits]

/-- Two runs of digits around a dot are read as a fraction. -/
theorem Decimal.ofFraction?_of_isDigits {whole fraction : List Char} (hwhole : IsDigits whole)
    (hfraction : IsDigits fraction) :
    ofFraction? (whole ++ '.' :: fraction) = some (ofDigits whole fraction) := by
  have hnodot : ∀ c ∈ whole, (c != '.') = true := by
    intro c hc
    have hdigit := hwhole.2 c hc
    simp only [bne_iff_ne]
    intro heq
    obtain rfl := heq
    simp at hdigit
  have htake : (whole ++ '.' :: fraction).takeWhile (· != '.') = whole := by
    simp [List.takeWhile_append_of_pos hnodot]
  have hdrop : (whole ++ '.' :: fraction).dropWhile (· != '.') = '.' :: fraction := by
    simp [List.dropWhile_append_of_pos hnodot]
  have hboth : (isDigits whole && isDigits fraction) = true := by
    rw [isDigits_of_isDigits hwhole, isDigits_of_isDigits hfraction, Bool.and_self]
  simp only [ofFraction?, hdrop, htake, if_pos hboth]

/-- A literal that is spelled as its form asks has a value. -/
theorem LiteralForm.exists_magnitude {form : LiteralForm} {w : List Char} (h : form.Spells w) :
    ∃ code, form.magnitude? w = some code := by
  cases form with
  | integer =>
    exact ⟨_, by rw [magnitude?, Decimal.ofInteger?_of_isDigits h, Option.map_some]⟩
  | decimal =>
    obtain ⟨whole, fraction, hwhole, hfraction, rfl⟩ := h
    exact ⟨_, by rw [magnitude?, Decimal.ofFraction?_of_isDigits hwhole hfraction, Option.map_some]⟩
  | nan => exact ⟨_, rfl⟩
  | infinity => exact ⟨_, rfl⟩

/-- A text that is read as a fraction is two runs of digits around a dot. -/
theorem Decimal.spells_of_ofFraction? {w : List Char} {d : Decimal} (h : ofFraction? w = some d) :
    LiteralForm.decimal.Spells w := by
  have hsplit := List.takeWhile_append_dropWhile (p := (· != '.')) (l := w)
  simp only [ofFraction?] at h
  split at h
  · simp at h
  · rename_i c fraction hdrop
    split at h
    · rename_i hboth
      simp only [Bool.and_eq_true, isDigits_iff] at hboth
      have hdot := List.head?_dropWhile_not (· != '.') w
      obtain rfl : c = '.' := by simpa [hdrop] using hdot
      exact ⟨_, fraction, hboth.1, hboth.2, by rw [← hdrop, hsplit]⟩
    · simp at h

/-- A numeral that is read is spelled as its form asks. -/
theorem LiteralForm.spells_of_magnitude? {form : LiteralForm} {w : List Char} {code : Nat}
    (hform : form.isNumeral = true) (h : form.magnitude? w = some code) : form.Spells w := by
  cases form with
  | integer =>
    obtain ⟨d, hread, -⟩ := Option.map_eq_some_iff.mp h
    simp only [Decimal.ofInteger?] at hread
    split at hread
    · rename_i hdigits
      exact Decimal.isDigits_iff.mp hdigits
    · simp at hread
  | decimal =>
    obtain ⟨d, hread, -⟩ := Option.map_eq_some_iff.mp h
    exact Decimal.spells_of_ofFraction? hread
  | nan | infinity => simp [isNumeral] at hform

/-- The texts that are not read are those of numerals that are not spelled as their form asks. -/
theorem LiteralForm.magnitude?_eq_none_iff {form : LiteralForm} {w : List Char} :
    form.magnitude? w = none ↔ form.isNumeral = true ∧ ¬ form.Spells w := by
  constructor
  · intro hnone
    constructor
    · cases form with
      | integer | decimal => rfl
      | nan | infinity => simp [magnitude?] at hnone
    · intro hspells
      obtain ⟨code, hcode⟩ := exists_magnitude hspells
      simp [hnone] at hcode
  · rintro ⟨hform, hspells⟩
    cases hmagnitude : form.magnitude? w with
    | none => rfl
    | some code => exact absurd (spells_of_magnitude? hform hmagnitude) hspells

/-- A well-formed tree has a value. -/
theorem Expr.WellFormed.exists_value {e : Expr} (h : e.WellFormed) : ∃ x, e.value = .ok x := by
  induction e with
  | leaf t =>
    obtain ⟨form, hkind, hspells⟩ := h
    obtain ⟨code, hcode⟩ := LiteralForm.exists_magnitude hspells
    refine ⟨Magnitude.toFloat false code, ?_⟩
    simp only [value, Token.value, hkind, hcode]
  | signed t e ih =>
    obtain ⟨hkind, -, he⟩ := h
    obtain ⟨x, hx⟩ := ih he
    rcases hkind with hkind | hkind
    · exact ⟨x, by simp only [value, hx, hkind, bind, Except.bind, Token.Kind.applySign]⟩
    · exact ⟨-x, by simp only [value, hx, hkind, bind, Except.bind, Token.Kind.applySign]⟩
  | binary t l r ihl ihr =>
    obtain ⟨⟨op, hkind⟩, -, hl, hr⟩ := h
    obtain ⟨x, hx⟩ := ihl hl
    obtain ⟨y, hy⟩ := ihr hr
    refine ⟨op.apply x y, ?_⟩
    simp only [value, hx, hy, hkind, bind, Except.bind, Token.Kind.applyBinary]

end Calculator
