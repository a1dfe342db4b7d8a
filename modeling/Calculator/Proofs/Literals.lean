import Calculator.Proofs.Numbers
import Calculator.Proofs.Positional

/-!
# The values of numerals

The text of an integer, a run of digits, and that of a decimal fraction, two of them around a dot,
denote rational numbers. The value of such a literal is the double to which this number is rounded,
however long the text is. So literals of the same number have the same value, and one of a greater
number has no lesser value. Any other text is malformed as that of a literal of these forms.
-/

namespace Calculator

open Magnitude (isNegative toFloat nearest overflow)

variable {t : Token} {q : ℚ}

/-- The number that a token denotes by its text, as an integer or as a decimal fraction. -/
inductive Token.Denotes (t : Token) : ℚ → Prop
  | integer (kind : t.kind = .literal .integer) (digits : IsDigits t.text.toList) :
      t.Denotes (Nat.ofDigitChars 10 t.text.toList 0)
  | decimal {whole fraction : List Char} (kind : t.kind = .literal .decimal)
      (digits : IsDigits whole) (places : IsDigits fraction)
      (text : t.text.toList = whole ++ '.' :: fraction) :
      t.Denotes (Nat.ofDigitChars 10 whole 0 +
        Nat.ofDigitChars 10 fraction 0 / 10 ^ fraction.length)

/-- A token that denotes a number has the double of the nearest code as its value. -/
theorem Token.Denotes.exists_fraction (h : t.Denotes q) :
    ∃ n d : Nat, 0 < d ∧ q = n / d ∧ t.value = .ok (toFloat false (nearest n d)) := by
  cases h with
  | integer kind digits =>
    refine ⟨Nat.ofDigitChars 10 t.text.toList 0, 1, Nat.one_pos, by simp, ?_⟩
    simp [Token.value, kind, LiteralForm.magnitude?, Decimal.ofInteger?_of_isDigits digits,
      Decimal.ofDigits, Decimal.nearest]
  | @decimal whole fraction kind digits places text =>
    have hpow : 0 < 10 ^ fraction.length := Nat.pow_pos (by decide)
    refine ⟨Nat.ofDigitChars 10 (whole ++ fraction) 0, 10 ^ fraction.length, hpow, ?_, ?_⟩
    · rw [Decimal.ofDigitChars_append_mul]
      push_cast
      field_simp
    · simp only [Token.value, kind, text, LiteralForm.magnitude?,
        Decimal.ofFraction?_of_isDigits digits places, Option.map_some, Decimal.ofDigits,
        Decimal.nearest, Nat.pow_eq]

/-- Integers and decimal fractions whose texts denote no number are malformed. -/
theorem Token.value_of_not_denotes (h : ¬ ∃ q, t.Denotes q)
    (hkind : t.kind = .literal .integer ∨ t.kind = .literal .decimal) :
    t.value = .error (.malformedLiteral t.text) := by
  rcases hkind with hkind | hkind
  · have hnone : LiteralForm.integer.magnitude? t.text.toList = none :=
      LiteralForm.magnitude?_eq_none_iff.mpr ⟨rfl, fun hspells => h ⟨_, .integer hkind hspells⟩⟩
    simp only [Token.value, hkind, hnone]
  · have hnone : LiteralForm.decimal.magnitude? t.text.toList = none := by
      refine LiteralForm.magnitude?_eq_none_iff.mpr ⟨rfl, ?_⟩
      rintro ⟨whole, fraction, hwhole, hfraction, htext⟩
      exact h ⟨_, .decimal hkind hwhole hfraction htext⟩
    simp only [Token.value, hkind, hnone]

/-- The value of a numeral is the double to which its number is rounded. It is infinite exactly when
the number is out of range, and it grows with the number. An integer or decimal fraction that
denotes no number is malformed. -/
theorem Token.value_rounded (t : Token) :
    (∀ q, t.Denotes q → ∃ x, t.value = .ok x ∧ Rounded q x ∧ isNegative x = false ∧
      (x.isInf = true ↔ 2 ^ 1024 - 2 ^ 970 ≤ q) ∧
      (∀ n : Nat, q = n → n ≤ 2 ^ 53 → number? x = some q) ∧
      ∀ (t' : Token) (q' : ℚ), t'.Denotes q' →
        ∃ x', t'.value = .ok x' ∧ (q = q' → x = x') ∧ (q ≤ q' → x ≤ x')) ∧
    ((t.kind = .literal .integer ∨ t.kind = .literal .decimal) → (¬ ∃ q, t.Denotes q) →
      t.value = .error (.malformedLiteral t.text)) := by
  refine ⟨fun q hdenotes => ?_, fun hkind hnone => value_of_not_denotes hnone hkind⟩
  obtain ⟨n, d, hd, rfl, hvalue⟩ := hdenotes.exists_fraction
  have hcode := Magnitude.nearest_le_infinity n d
  refine ⟨_, hvalue, Magnitude.rounded_nearest n hd, Magnitude.isNegative_toFloat false hcode, ?_,
    ?_, ?_⟩
  · rw [Magnitude.isInf_toFloat_iff hcode, Magnitude.nearest_eq_infinity_iff hd, overflow]
  · intro m hq hm
    rw [Magnitude.number?_nearest hd hm hq, hq]
  · intro t' q' hdenotes'
    obtain ⟨n', d', hd', rfl, hvalue'⟩ := hdenotes'.exists_fraction
    refine ⟨_, hvalue', fun hq => ?_, fun hq => ?_⟩
    · have hrounded := Magnitude.rounded_nearest n' hd'
      exact Magnitude.rounded_unique (Magnitude.rounded_nearest n hd) (hq ▸ hrounded)
    · exact Magnitude.toFloat_le_toFloat (Magnitude.nearest_le_nearest hd hd' hq)
        (Magnitude.nearest_le_infinity n' d')

/-- A digit far behind the half between two doubles decides which of them is nearest. -/
example :
    (Token.mk (.literal .integer) "9007199254740993" 0).value = .ok 9007199254740992 ∧
    (Token.mk (.literal .decimal) "9007199254740993.0000000000000001" 0).value =
      .ok 9007199254740994 := by
  decide +kernel

end Calculator
