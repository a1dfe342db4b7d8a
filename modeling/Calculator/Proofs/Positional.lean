import Calculator.Proofs.Rounding
import Calculator.Proofs.WellFormed

/-!
# Decimals written and read

A decimal is written as a literal of the lexer, with or without a dot. The zeros at the end of its
digits may be left out, so the decimal that is read from this literal need not be the one that was
written. But it is the same number, over a smaller power of ten, and it is rounded to the same code.
-/

namespace Calculator.Decimal

variable {cs ds : List Char} {d : Decimal}

/-- The digits of a number are a run of digits. -/
theorem isDigits_toDigits (n : Nat) : IsDigits (Nat.toDigits 10 n) :=
  ⟨Nat.toDigits_ne_nil, fun _ hc => Nat.isDigit_of_mem_toDigits (by decide) (by decide) hc⟩

/-- The number of two texts of digits after one another. -/
theorem ofDigitChars_append_mul (cs ds : List Char) :
    Nat.ofDigitChars 10 (cs ++ ds) 0 =
      Nat.ofDigitChars 10 cs 0 * 10 ^ ds.length + Nat.ofDigitChars 10 ds 0 := by
  rw [Nat.ofDigitChars_append, Nat.ofDigitChars_eq_ofDigitChars_zero, Nat.mul_comm]

/-- Only zeros are dropped from the end of a text. -/
theorem exists_dropTrailingZeros (cs : List Char) :
    ∃ k, cs = dropTrailingZeros cs ++ List.replicate k '0' := by
  have hzeros : cs.reverse.takeWhile (· == '0') =
      List.replicate (cs.reverse.takeWhile (· == '0')).length '0' := by
    refine List.eq_replicate_of_mem fun c hc => ?_
    simpa using List.mem_takeWhile_imp hc
  refine ⟨(cs.reverse.takeWhile (· == '0')).length, ?_⟩
  rw [← List.reverse_inj, List.reverse_append, List.reverse_replicate, ← hzeros, dropTrailingZeros,
    List.reverse_reverse, List.takeWhile_append_dropWhile]

/-- The digits after the dot are digits. -/
theorem isDigit_of_mem_fractionDigits (d : Decimal) :
    ∀ c ∈ d.fractionDigits, c.isDigit = true := by
  intro c hc
  simp only [fractionDigits, List.leftpad, List.mem_append, List.mem_replicate] at hc
  rcases hc with ⟨-, rfl⟩ | hc
  · rfl
  · exact (isDigits_toDigits _).2 c hc

/-- The digits after the dot spell the part of the number that is not whole. -/
theorem ofDigitChars_fractionDigits (d : Decimal) :
    Nat.ofDigitChars 10 d.fractionDigits 0 = d.digits % 10 ^ d.places := by
  simp [fractionDigits, List.leftpad, Nat.ofDigitChars_append, Nat.ofDigitChars_replicate_zero]

/-- There are as many digits after the dot as there are places, if there are any. -/
theorem length_fractionDigits (h : 0 < d.places) : d.fractionDigits.length = d.places := by
  have hlt : d.digits % 10 ^ d.places < 10 ^ d.places := Nat.mod_lt _ (Nat.pow_pos (by decide))
  have hle := (Nat.length_toDigits_le_iff (by decide) h).mpr hlt
  rw [fractionDigits, Nat.pow_eq, List.length_leftpad]
  omega

/-- Without places there is nothing after the dot but a zero that is dropped. -/
theorem dropTrailingZeros_of_places (h : d.places = 0) :
    dropTrailingZeros d.fractionDigits = [] := by
  have hdigits : d.fractionDigits = ['0'] := by
    simp [fractionDigits, h, List.leftpad, Nat.mod_one]
  rw [hdigits]
  rfl

/-- Zeros at the end of the digits after the dot make no difference to the nearest code. -/
theorem nearest_of_mul_pow {m f k : Nat} (hdigits : m * 10 ^ k = d.digits)
    (hplaces : f + k = d.places) : (⟨m, f⟩ : Decimal).nearest = d.nearest := by
  simp only [nearest, Nat.pow_eq, ← hdigits, ← hplaces, Nat.pow_add]
  exact (Magnitude.nearest_mul_right _ _ (Nat.pow_pos (by decide))).symm

/-- When the digits after the dot are zeros, the digits before it are read as the decimal. -/
theorem magnitude?_whole (h : d.digits % 10 ^ d.places = 0) :
    LiteralForm.integer.magnitude? (Nat.toDigits 10 (d.digits / 10 ^ d.places)) =
      some d.nearest := by
  have hdigits : d.digits / 10 ^ d.places * 10 ^ d.places = d.digits :=
    Nat.div_mul_cancel (Nat.dvd_of_mod_eq_zero h)
  simp only [LiteralForm.magnitude?, ofInteger?_of_isDigits (isDigits_toDigits _), ofDigits,
    List.append_nil, List.length_nil, Nat.ofDigitChars_ten_toDigits, Option.map_some]
  rw [nearest_of_mul_pow hdigits (Nat.zero_add _)]

/-- The digits after the dot may be read without some of the zeros they end in. -/
theorem magnitude?_fraction {k : Nat} (hds : IsDigits ds) (hplaces : 0 < d.places)
    (h : d.fractionDigits = ds ++ List.replicate k '0') :
    LiteralForm.decimal.magnitude? (Nat.toDigits 10 (d.digits / 10 ^ d.places) ++ '.' :: ds) =
      some d.nearest := by
  have hlength := length_fractionDigits hplaces
  have hnumber : Nat.ofDigitChars 10 (Nat.toDigits 10 (d.digits / 10 ^ d.places) ++ ds) 0 *
      10 ^ k = d.digits := by
    have hboth := ofDigitChars_append_mul
      (Nat.toDigits 10 (d.digits / 10 ^ d.places)) d.fractionDigits
    rw [ofDigitChars_fractionDigits, Nat.ofDigitChars_ten_toDigits, hlength, Nat.div_add_mod', h,
      ← List.append_assoc, ofDigitChars_append_mul, List.length_replicate,
      Nat.ofDigitChars_replicate_zero, Nat.mul_zero, Nat.add_zero] at hboth
    exact hboth
  rw [h, List.length_append, List.length_replicate] at hlength
  simp only [LiteralForm.magnitude?, ofFraction?_of_isDigits (isDigits_toDigits _) hds, ofDigits,
    Option.map_some]
  rw [nearest_of_mul_pow hnumber hlength]

/-- A decimal is written as a literal, and the literal is read as a decimal with the same nearest
code. -/
theorem exists_form_render (d : Decimal) :
    ∃ form : LiteralForm, form.Spells d.render ∧ form.magnitude? d.render = some d.nearest := by
  obtain ⟨k, hk⟩ := exists_dropTrailingZeros d.fractionDigits
  have hwhole := isDigits_toDigits (d.digits / 10 ^ d.places)
  simp only [render, Nat.pow_eq]
  generalize hfraction : dropTrailingZeros d.fractionDigits = fraction at hk
  cases fraction with
  | nil =>
    have hzero : d.digits % 10 ^ d.places = 0 := by
      rw [← ofDigitChars_fractionDigits, hk]
      simp [Nat.ofDigitChars_replicate_zero]
    exact ⟨.integer, hwhole, magnitude?_whole hzero⟩
  | cons c cs =>
    have hplaces : 0 < d.places := by
      refine Nat.pos_of_ne_zero fun hzero => ?_
      simp [dropTrailingZeros_of_places hzero] at hfraction
    have hdigits : IsDigits (c :: cs) := by
      refine ⟨by simp, fun c' hc' => isDigit_of_mem_fractionDigits d c' ?_⟩
      rw [hk]
      exact List.mem_append_left _ hc'
    exact ⟨.decimal, ⟨_, _, hwhole, hdigits, rfl⟩, magnitude?_fraction hdigits hplaces hk⟩

end Calculator.Decimal
