import Calculator.Decimal.Shortest
import Mathlib.Tactic.Ring

/-!
# Rounding

`Magnitude.nearest` depends on a fraction only through its value, and a fraction that has the value
of a finite code is rounded to this code. The exact value of every finite code is such a fraction
over a power of ten. So the search for a shortest decimal always has one to fall back on, and what
it finds reads back.
-/

namespace Calculator.Magnitude

variable {code n d : Nat}

/-- One is a power of two of units. -/
theorem one_eq : one = 2 ^ finestScale := by
  unfold one
  -- with a variable for the exponent the power is not evaluated
  generalize finestScale = k
  exact Nat.pow_eq

/-- A common factor makes no difference to a quotient that is rounded. -/
theorem divideToEven_mul_right (n d : Nat) {c : Nat} (hc : 0 < c) :
    divideToEven (n * c) (d * c) = divideToEven n d := by
  have hr : 2 * (n % d * c) = 2 * (n % d) * c := by ring
  simp only [divideToEven, Nat.mul_div_mul_right _ _ hc, Nat.mul_mod_mul_right, hr,
    Nat.mul_lt_mul_right hc, Nat.mul_left_inj (Nat.ne_of_gt hc)]

/-- A whole quotient is not rounded. -/
theorem divideToEven_mul_self (q : Nat) (hd : 0 < d) : divideToEven (q * d) d = q := by
  simp [divideToEven, hd]

/-- A common factor makes no difference to the nearest code. -/
theorem nearest_mul_right (n d : Nat) {c : Nat} (hc : 0 < c) :
    nearest (n * c) (d * c) = nearest n d := by
  have hvalue : n * c * one = n * one * c := by ring
  have hscaled (k : Nat) : d * c * 2 ^ k = d * 2 ^ k * c := by ring
  simp only [nearest, Nat.pow_eq, hvalue, hscaled, Nat.mul_div_mul_right _ _ hc,
    divideToEven_mul_right _ _ hc]

/-- A code is its significand at the scale of the code. -/
theorem scale_add_significand (code : Nat) : scale code * 2 ^ 52 + significand code = code := by
  simp only [scale, significand, Nat.pow_eq]
  omega

/-- A significand has at most 53 bits, and no fewer unless its code has no scale. -/
theorem significand_bounds (code : Nat) :
    significand code < 2 ^ 53 ∧ (scale code = 0 ∨ 2 ^ 52 ≤ significand code) := by
  simp only [scale, significand, Nat.pow_eq]
  omega

/-- The length of a value in bits gives the scale of its code. -/
theorem log2_units (code : Nat) : (units code).log2 - 52 = scale code := by
  obtain ⟨hlt, hscale | hge⟩ := significand_bounds code
  · rw [units, hscale, Nat.pow_eq, Nat.pow_zero, Nat.mul_one]
    have hlog : (significand code).log2 < 53 := by
      by_cases hzero : significand code = 0
      · simp [hzero]
      · exact (Nat.log2_lt hzero).mpr hlt
    omega
  · have hlog : (units code).log2 = 52 + scale code := by
      have hpos : 0 < 2 ^ scale code := Nat.two_pow_pos _
      have hunits : units code ≠ 0 := Nat.ne_of_gt (Nat.mul_pos (by omega) hpos)
      rw [Nat.log2_eq_iff hunits, units, Nat.pow_eq,
        show 52 + scale code + 1 = 53 + scale code by omega,
        Nat.pow_add, Nat.pow_add]
      exact ⟨Nat.mul_le_mul_right _ hge, Nat.mul_lt_mul_of_pos_right hlt hpos⟩
    omega

/-- A fraction with the value of a finite code is rounded to the code. -/
theorem nearest_of_units (hcode : code < infinity) (hd : 0 < d) (h : n * one = units code * d) :
    nearest n d = code := by
  have hquotient : n * one / d = units code := by rw [h, Nat.mul_div_cancel _ hd]
  have hscaled : n * one = significand code * (d * 2 ^ scale code) := by
    rw [h, units, Nat.pow_eq]
    ring
  have hpos : 0 < d * 2 ^ scale code := Nat.mul_pos hd (Nat.two_pow_pos _)
  simp only [nearest, Nat.pow_eq, hquotient, log2_units]
  rw [hscaled, divideToEven_mul_self _ hpos, scale_add_significand]
  exact Nat.min_eq_right (Nat.le_of_lt hcode)

/-- The exact value of a code, as a decimal, is the value of the code. -/
theorem exact_mul_one (code : Nat) : exact code * one = units code * 10 ^ places code := by
  have hsum : scale code - finestScale + finestScale = scale code + places code := by
    simp only [places]
    omega
  have hpower : 2 ^ (scale code - finestScale) * 2 ^ finestScale =
      2 ^ scale code * 2 ^ places code := by
    rw [← Nat.pow_add, hsum, Nat.pow_add]
  calc exact code * one
      = significand code * (2 ^ (scale code - finestScale) * 2 ^ finestScale) *
          5 ^ places code := by
        rw [exact, one_eq, Nat.pow_eq, Nat.pow_eq]
        ring
    _ = significand code * 2 ^ scale code * (2 ^ places code * 5 ^ places code) := by
        simp only [hpower, Nat.mul_assoc]
    _ = units code * 10 ^ places code := by
        rw [← Nat.mul_pow, units, Nat.pow_eq]

/-- The exact value of a finite code reads back as the code. -/
theorem readsBack_exact (h : code < infinity) : readsBack code (exact code) = true := by
  simp only [readsBack, Decimal.nearest, beq_iff_eq]
  exact nearest_of_units h (Nat.pow_pos (by decide)) (exact_mul_one code)

/-- A neighbour on a grid is taken only if it reads back. -/
theorem readsBack_onGrid? {j : Nat} (h : onGrid? code j = some n) : readsBack code n = true := by
  simp only [onGrid?] at h
  split at h
  · rename_i habove
    simp only [Bool.and_eq_true] at habove
    exact Option.some.inj h ▸ habove.1
  · split at h
    · rename_i hbelow
      exact Option.some.inj h ▸ hbelow
    · simp at h

/-- What is found on the coarsest grid reads back. -/
theorem readsBack_onCoarsestGrid (h : code < infinity) (j : Nat) :
    readsBack code (onCoarsestGrid code j) = true := by
  induction j with
  | zero => exact readsBack_exact h
  | succ j ih =>
    rw [onCoarsestGrid]
    cases hgrid : onGrid? code (j + 1) with
    | none => exact ih
    | some n => exact readsBack_onGrid? hgrid

/-- The shortest decimal of a finite code reads back as the code. -/
theorem nearest_shortest (h : code < infinity) : (shortest code).nearest = code :=
  beq_iff_eq.mp (readsBack_onCoarsestGrid h _)

end Calculator.Magnitude
