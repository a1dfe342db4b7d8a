import Calculator.Proofs.Doubles
import Calculator.Proofs.Positional
import Calculator.Proofs.Rendering
import Calculator.Proofs.OneExpression

/-!
# Printed results read back

Every double is printed as one literal of the lexer, with a minus sign before it if the double is
negative. As a source this is an expression, a literal or a signed one, and its value is the double:
the magnitude is read back from the digits, and the sign is put back by the sign. Doubles are the
same when their bits are, except that there is one NaN.
-/

namespace Calculator

open Magnitude (isNegative ofFloat toFloat)

variable {x : Float} {form : LiteralForm} {w : List Char}

/-- A double is printed as a literal, behind a minus sign if it is negative; the literal is read
as the magnitude of the double. -/
structure PrintedAs (x : Float) (form : LiteralForm) (w : List Char) : Prop where
  spells : form.Spells w
  text : formatNumber x = (if isNegative x then "-" else "") ++ .ofList w
  reads : ∃ code, form.magnitude? w = some code ∧ code < 2 ^ 63 ∧ toFloat (isNegative x) code = x

/-- The tree of a printed double that stands at a byte of a source. -/
def printedTree (x : Float) (form : LiteralForm) (w : List Char) (p : Nat) : Expr :=
  if isNegative x then
    .signed (.symbol (.operator .minus) p) (.leaf ⟨.literal form, .ofList w, p + 1⟩)
  else .leaf ⟨.literal form, .ofList w, p⟩

/-- Every double is printed as some literal. -/
theorem exists_printedAs (x : Float) : ∃ form w, PrintedAs x form w := by
  have hcode := Magnitude.ofFloat_lt x
  have hx := Magnitude.toFloat_ofFloat x
  by_cases hnan : Magnitude.infinity < ofFloat x
  · have hsign := Magnitude.isNegative_of_gt hnan
    have hvalue : toFloat false (Magnitude.infinity + 1) = x := by
      rw [← Magnitude.toFloat_of_gt _ hcode hnan, hx]
    refine ⟨.nan, "NaN".toList, rfl, ?_, Magnitude.infinity + 1, rfl, by decide, ?_⟩
    · simp [formatNumber, hnan, hsign]
    · rw [hsign, hvalue]
  · by_cases hinfinity : ofFloat x = Magnitude.infinity
    · refine ⟨.infinity, "Infinity".toList, rfl, ?_, Magnitude.infinity, rfl, by decide, ?_⟩
      · simp [formatNumber, hinfinity]
      · rw [← hinfinity, hx]
    · have hfinite : ofFloat x < Magnitude.infinity := by omega
      obtain ⟨form, hspells, hmagnitude⟩ := (Magnitude.shortest (ofFloat x)).exists_form_render
      rw [Magnitude.nearest_shortest hfinite] at hmagnitude
      refine ⟨form, _, hspells, ?_, ofFloat x, hmagnitude, hcode, hx⟩
      simp [formatNumber, hnan, hinfinity]

namespace PrintedAs

/-- The value of a printed double is the double, wherever it stands. -/
theorem value_printedTree (h : PrintedAs x form w) (p : Nat) :
    (printedTree x form w p).value = .ok x := by
  obtain ⟨code, hmagnitude, hcode, hx⟩ := h.reads
  have hleaf (q : Nat) :
      (Expr.leaf ⟨.literal form, .ofList w, q⟩).value = .ok (toFloat false code) := by
    simp only [Expr.value, Token.value, String.toList_ofList, hmagnitude]
  rw [printedTree]
  cases hsign : isNegative x with
  | false =>
    rw [hsign] at hx
    rw [if_neg (by simp), hleaf, hx]
  | true =>
    rw [hsign] at hx
    rw [if_pos rfl, Expr.value, hleaf, ← hx, ← Magnitude.neg_toFloat hcode]
    rfl

/-- A printed double is read as one sentence, wherever it stands. -/
theorem exists_sentence (h : PrintedAs x form w) (p : Nat) :
    ∃ d : Sentence, Lexer.items ⟨(formatNumber x).toList, p⟩ = d.yield.map .token ∧
      d.tree = printedTree x form w p := by
  have hliteral (q : Nat) :=
    Lexer.items_of_lexeme (show (Token.Kind.literal form).Spells w from h.spells) q
  rw [h.text, printedTree]
  cases hsign : isNegative x with
  | false =>
    refine ⟨Derivation.alone (.literal ⟨.literal form, .ofList w, p⟩ rfl), ?_, rfl⟩
    simp [hliteral, Derivation.alone, Derivation.yield, Token.Kind.isLiteral]
  | true =>
    refine ⟨Derivation.withSign (.symbol (.operator .minus) p) rfl
      (.literal ⟨.literal form, .ofList w, p + 1⟩ rfl), ?_, rfl⟩
    have hminus : Lexer.items ⟨'-' :: w, p⟩ =
        .token (.symbol (.operator .minus) p) :: Lexer.items ⟨w, p + 1⟩ :=
      Lexer.items_of_symbol rfl w p
    simp [hminus, hliteral, Derivation.withSign, Derivation.yield, Token.Kind.isLiteral]

end PrintedAs

/-- Every double that is printed reads back as the same double, and so it does in parentheses. What
is printed is a literal as the lexer has it, with a minus sign before it when the double is
negative, and it is accepted as this literal or as the literal with the sign. -/
theorem formatNumber_read_back (x : Float) :
    evaluate (formatNumber x) = .ok (some x) ∧
    evaluate ("(" ++ formatNumber x ++ ")") = .ok (some x) ∧
    ∃ (form : LiteralForm) (w : List Char), form.Spells w ∧
      formatNumber x = (if isNegative x then "-" else "") ++ .ofList w ∧
      Parser.Accepts (formatNumber x)
        (if isNegative x then
          .signed (.symbol (.operator .minus) 0) (.leaf ⟨.literal form, .ofList w, 1⟩)
        else .leaf ⟨.literal form, .ofList w, 0⟩) := by
  obtain ⟨form, w, h⟩ := exists_printedAs x
  obtain ⟨d, hitems, htree⟩ := h.exists_sentence 0
  obtain ⟨inner, hinner, hinnerTree⟩ := h.exists_sentence 1
  have hgroup : (Lexer.ofString ("(" ++ formatNumber x ++ ")")).items =
      (inner.enclosed 0 (1 + byteCount (formatNumber x).toList)).alone.yield.map .token := by
    simpa [Lexer.ofString, Derivation.alone, Derivation.yield] using Lexer.items_enclosed hinner
  refine ⟨evaluate_eq_some_iff.mpr ⟨d, hitems, ?_⟩, evaluate_eq_some_iff.mpr ⟨_, hgroup, ?_⟩,
    form, w, h.spells, h.text, Parser.accepts_iff.mpr ⟨d, hitems, htree⟩⟩
  · rw [htree]
    exact h.value_printedTree 0
  · show Expr.value inner.tree = .ok x
    rw [hinnerTree]
    exact h.value_printedTree 1

end Calculator
