import Calculator.Proofs.Doubles
import Calculator.Proofs.Nearest

/-!
# The numbers that doubles stand for

A finite double stands for a rational number, which is read off its unpacked form: a sign, a
significand and a power of two. A number is rounded to the finite double that is nearest to it, and
to the one whose last bit is clear if two are equally near; a number that is out of range is rounded
to an infinity.

This is a matter of doubles alone. It agrees with what is said of codes: a number is rounded to the
double of its own sign and of the code that is nearest to its magnitude.
-/

namespace Calculator

open Magnitude (isNegative toFloat overflow)
open Float.Model (UnpackedFloat)
open Float.Model.Format (binary64)

/-- The number that a double stands for, if it is finite. -/
def number? (x : Float) : Option ℚ :=
  match x.toModel.unpack with
  | .zero _ => some 0
  | .finite sign significand scale _ => some (sign.apply significand * 2 ^ scale)
  | .infinity _ | .notANumber => none

/-- A double is what a number is rounded to. Within the range it has the sign of the number and is
nearest to it among the finite doubles, and its last bit is clear if another one is as near. -/
inductive Rounded (q : ℚ) (x : Float) : Prop
  | finite {v : ℚ} (range : |q| < overflow) (number : number? x = some v)
      (sign : isNegative x = decide (q < 0))
      (closest : ∀ y w, number? y = some w → |q - v| ≤ |q - w|)
      (even : ∀ y w, number? y = some w → w ≠ v → |q - w| = |q - v| → x.toBits.toNat % 2 = 0)
  | above (range : overflow ≤ q) (infinite : x.toModel.unpack = .infinity .positive)
  | below (range : q ≤ -overflow) (infinite : x.toModel.unpack = .infinity .negative)

namespace Magnitude

open Float.Model.UnpackedFloat

variable {code c c' n d : Nat} {negative : Bool} {q v w : ℚ} {x : Float}

/-- The double of a sign and a code is unpacked as its bits are. -/
theorem unpack_toFloat (negative : Bool) (code : Nat) :
    (toFloat negative code).toModel.unpack = unpack binary64 (bits negative code) := by
  rw [toFloat_eq]
  exact unpack_pack_unpack (bits negative code)

/-- The exponent field is full from the code of infinity on. -/
theorem unpackExponent_eq_full_iff (negative : Bool) (hcode : code < 2 ^ 63) :
    unpackExponent (bits negative code) = -1#_ ↔ infinity ≤ code := by
  rw [← BitVec.toNat_inj, toNat_unpackExponent negative hcode]
  show code / 2 ^ 52 = 2047 ↔ _
  simp only [infinity, Nat.pow_eq]
  omega

/-- The exponent field is empty for the codes below `2 ^ 52`. -/
theorem unpackExponent_eq_zero_iff (negative : Bool) (hcode : code < 2 ^ 63) :
    unpackExponent (bits negative code) = 0#_ ↔ code < 2 ^ 52 := by
  rw [← BitVec.toNat_inj, toNat_unpackExponent negative hcode]
  show code / 2 ^ 52 = 0 ↔ _
  omega

/-- The mantissa field is empty for the codes that are multiples of `2 ^ 52`. -/
theorem unpackMantissa_eq_zero_iff (negative : Bool) (hcode : code < 2 ^ 63) :
    unpackMantissa (bits negative code) = 0#_ ↔ code % 2 ^ 52 = 0 := by
  rw [← BitVec.toNat_inj, toNat_unpackMantissa negative hcode]
  show _ ↔ _
  rfl

/-- The bits of the code of infinity are unpacked to an infinity. -/
theorem unpack_bits_infinity (negative : Bool) : unpack binary64 (bits negative infinity) =
    .infinity (if negative then .negative else .positive) := by
  have hcode : infinity < 2 ^ 63 := by decide
  have hexponent := (unpackExponent_eq_full_iff negative hcode).mpr le_rfl
  have hmantissa := (unpackMantissa_eq_zero_iff negative hcode).mpr (by decide)
  have hsign := sign_unpackSign negative hcode
  rw [unpack]
  simp only [hexponent, hmantissa, if_true, hsign]

/-- The bits of the code zero are unpacked to a zero. -/
theorem unpack_bits_zero (negative : Bool) : unpack binary64 (bits negative 0) =
    .zero (if negative then .negative else .positive) := by
  cases negative <;> rfl

/-- The mantissa with its implicit bit. -/
theorem toNat_append_unpackMantissa (negative : Bool) (hcode : code < 2 ^ 63) :
    (1#1 ++ unpackMantissa (bits negative code)).toNat = 2 ^ 52 + code % 2 ^ 52 := by
  have hlt : code % 2 ^ 52 < 2 ^ 52 := Nat.mod_lt _ (Nat.two_pow_pos 52)
  rw [BitVec.toNat_append, toNat_unpackMantissa negative hcode]
  exact (Nat.shiftLeft_add_eq_or_of_lt hlt 1).symm

/-- The bits of any other finite code are unpacked to its significand and its scale. -/
theorem unpack_bits_finite (negative : Bool) (hpos : 0 < code) (hcode : code < infinity) :
    ∃ h, unpack binary64 (bits negative code) =
      .finite (if negative then .negative else .positive) (significand code)
        (scale code - finestScale) h := by
  have hlt : code < 2 ^ 63 := Nat.lt_trans hcode (by decide)
  have hsign := sign_unpackSign negative hlt
  have hexponent := toNat_unpackExponent negative hlt
  have hinfinite := (unpackExponent_eq_full_iff negative hlt).not.mpr (Nat.not_le_of_lt hcode)
  have hsignificand : 0 < significand code := by
    simp only [significand, scale, Nat.pow_eq]
    omega
  have hbias : binary64.exponentBias = 1023 := rfl
  refine ⟨hsignificand, ?_⟩
  rw [unpack]
  simp only [hinfinite, if_false, hsign]
  generalize (if negative then Sign.negative else Sign.positive) = sign
  split_ifs with hzero hempty
  · rw [unpackExponent_eq_zero_iff negative hlt] at hzero
    rw [unpackMantissa_eq_zero_iff negative hlt] at hempty
    omega
  · rw [unpackExponent_eq_zero_iff negative hlt] at hzero
    refine (UnpackedFloat.finite.injEq ..).mpr ⟨rfl, ?_, ?_⟩
    · rw [toNat_unpackMantissa negative hlt]
      simp only [significand, scale, Nat.pow_eq]
      omega
    · rw [hexponent, hbias]
      simp only [scale, Nat.pow_eq, finestScale]
      omega
  · rw [unpackExponent_eq_zero_iff negative hlt] at hzero
    refine (UnpackedFloat.finite.injEq ..).mpr ⟨rfl, ?_, ?_⟩
    · refine (toNat_append_unpackMantissa negative hlt).trans ?_
      simp only [significand, scale, Nat.pow_eq]
      omega
    · rw [hexponent, hbias]
      simp only [scale, Nat.pow_eq, finestScale]
      omega

/-- The bits of a finite code without a sign are those of zero or of a number above it. -/
theorem unpack_bits_false (hcode : code < infinity) :
    code = 0 ∧ unpack binary64 (bits false code) = .zero .positive ∨
    ∃ h, unpack binary64 (bits false code) =
      .finite .positive (significand code) (scale code - finestScale) h := by
  rcases Nat.eq_zero_or_pos code with rfl | hpos
  · exact .inl ⟨rfl, unpack_bits_zero false⟩
  · exact .inr (unpack_bits_finite false hpos hcode)

/-- The number of a finite double, with its sign. -/
def signed (negative : Bool) (v : ℚ) : ℚ :=
  if negative then -v else v

/-- The double of a sign and a finite code stands for the value of the code with the sign. -/
theorem number?_toFloat (negative : Bool) (hcode : code < infinity) :
    number? (toFloat negative code) = some (signed negative (value code)) := by
  rw [number?, unpack_toFloat]
  rcases Nat.eq_zero_or_pos code with rfl | hpos
  · rw [unpack_bits_zero]
    cases negative <;> simp [signed]
  · obtain ⟨h, hunpack⟩ := unpack_bits_finite negative hpos hcode
    have htwo : (2 : ℚ) ≠ 0 := by decide
    have hone : (one : ℚ) = 2 ^ finestScale := by exact_mod_cast one_eq
    have hpow : (2 : ℚ) ^ ((scale code : ℤ) - finestScale) = 2 ^ scale code / one := by
      rw [zpow_sub₀ htwo, zpow_natCast, zpow_natCast, hone]
    rw [hunpack]
    simp only [hpow, value, units, signed, Nat.pow_eq]
    -- with a variable for one the power is not evaluated
    generalize (one : ℚ) = unit
    cases negative <;> simp [Sign.apply] <;> ring

/-- The double of a code that is not that of a finite value stands for no number. -/
theorem number?_toFloat_eq_none (negative : Bool) (hcode : code < 2 ^ 63) (h : infinity ≤ code) :
    number? (toFloat negative code) = none := by
  rw [number?, unpack_toFloat]
  rcases Nat.eq_or_lt_of_le h with rfl | hlt
  · rw [unpack_bits_infinity]
  · rw [unpack_of_isNaNBits (isNaNBits_bits negative hcode hlt)]

/-- A double that stands for a number is that of a sign and a finite code. -/
theorem exists_of_number? (h : number? x = some v) :
    ∃ negative, ∃ code < infinity,
      toFloat negative code = x ∧ signed negative (value code) = v := by
  have hx := toFloat_ofFloat x
  have hcode : ofFloat x < infinity := by
    by_contra hcode
    rw [← hx, number?_toFloat_eq_none _ (ofFloat_lt x) (Nat.le_of_not_lt hcode)] at h
    contradiction
  rw [← hx, number?_toFloat _ hcode] at h
  exact ⟨isNegative x, ofFloat x, hcode, hx, Option.some.inj h⟩

/-- The bits of a code up to that of infinity are not those of a NaN. -/
theorem isNaNBits_bits_eq_false (negative : Bool) (hcode : code ≤ infinity) :
    isNaNBits (bits negative code) = false := by
  have hlt : code < 2 ^ 63 := Nat.lt_of_le_of_lt hcode (by decide)
  simp only [isNaNBits, decide_eq_false_iff_not, not_and, not_not]
  intro hexponent
  obtain rfl := le_antisymm hcode ((unpackExponent_eq_full_iff negative hlt).mp hexponent)
  exact (unpackMantissa_eq_zero_iff negative hlt).mpr (by decide)

/-- The bits of a double are those of its sign and its code, unless it is a NaN. -/
theorem toNat_toBits_toFloat (negative : Bool) (hcode : code ≤ infinity) :
    (toFloat negative code).toBits.toNat = if negative then 2 ^ 63 + code else code := by
  have hlt : code < 2 ^ 63 := Nat.lt_of_le_of_lt hcode (by decide)
  have hpack : pack binary64 (unpack binary64 (bits negative code)) = bits negative code := by
    rw [pack_unpack, isNaNBits_bits_eq_false negative hcode]
    rfl
  rw [← toNat_bits negative hlt, ← hpack]
  rfl

/-- The sign of a double is the sign it is made of, unless it is a NaN. -/
theorem isNegative_toFloat (negative : Bool) (hcode : code ≤ infinity) :
    isNegative (toFloat negative code) = negative := by
  have hlt : code < 2 ^ 63 := Nat.lt_of_le_of_lt hcode (by decide)
  rw [isNegative, toNat_toBits_toFloat negative hcode, Nat.pow_eq]
  cases negative
  · rw [if_neg (by simp), Nat.div_eq_of_lt hlt]
    rfl
  · rw [if_pos rfl, Nat.add_div_left _ (Nat.two_pow_pos 63), Nat.div_eq_of_lt hlt]
    rfl

/-- The code of a double is the code it is made of, unless it is a NaN. -/
theorem ofFloat_toFloat (negative : Bool) (hcode : code ≤ infinity) :
    ofFloat (toFloat negative code) = code := by
  have hlt : code < 2 ^ 63 := Nat.lt_of_le_of_lt hcode (by decide)
  simp only [ofFloat, toNat_toBits_toFloat negative hcode, Nat.pow_eq]
  split <;> omega

/-- The last bit of a double is that of its code. -/
theorem toNat_toBits_mod_two (negative : Bool) (hcode : code ≤ infinity) :
    (toFloat negative code).toBits.toNat % 2 = code % 2 := by
  rw [toNat_toBits_toFloat negative hcode]
  split <;> omega

/-- The magnitude of a number does not depend on the sign. -/
theorem abs_signed (negative : Bool) (v : ℚ) : |signed negative v| = |v| := by
  cases negative <;> simp [signed]

/-- Numbers with one sign are the same if they are without it. -/
theorem signed_inj : signed negative v = signed negative w ↔ v = w := by
  cases negative <;> simp [signed]

/-- Numbers with one sign are as far apart as without it. -/
theorem abs_signed_sub_signed (negative : Bool) (v w : ℚ) :
    |signed negative v - signed negative w| = |v - w| := by
  cases negative
  · rfl
  · show |-v - -w| = |v - w|
    rw [neg_sub_neg, abs_sub_comm]

/-- The distance of a number from another one with its sign. -/
theorem abs_sub_signed (q v : ℚ) : |q - signed (decide (q < 0)) v| = |(|q| - v)| := by
  by_cases h : q < 0
  · rw [abs_of_neg h, ← abs_neg]
    simp [signed, h, add_comm, sub_eq_neg_add]
  · simp [signed, h, abs_of_nonneg (not_lt.mp h)]

/-- With another sign a number is no closer than with the same sign. -/
theorem abs_sub_le_abs_sub_signed (q : ℚ) (negative : Bool) (hv : 0 ≤ v) :
    |(|q| - v)| ≤ |q - signed negative v| := by
  have h := abs_abs_sub_abs_le q (signed negative v)
  rwa [abs_signed, abs_of_nonneg hv] at h

/-- A number is only as close to its opposite as to itself if one of both is zero. -/
theorem eq_zero_of_abs_sub_signed (h : |q - signed negative v| = |q - signed (!negative) v|) :
    q = 0 ∨ v = 0 := by
  have hsq := (sq_eq_sq_iff_abs_eq_abs _ _).mpr h
  have hproduct : q * v = 0 := by
    cases negative <;> simp only [signed] at hsq <;> simp at hsq <;> linarith
  exact mul_eq_zero.mp hproduct

/-- A number is rounded to the finite double of its own sign and the code nearest to its
magnitude. -/
theorem rounded_of_isNearest (hcode : code < infinity) (h : IsNearest |q| code) :
    Rounded q (toFloat (decide (q < 0)) code) := by
  refine .finite (h.lt_infinity_iff.mp hcode) (number?_toFloat _ hcode)
    (isNegative_toFloat _ hcode.le) ?_ ?_
  · intro y w hw
    obtain ⟨negative, other, -, -, rfl⟩ := exists_of_number? hw
    rw [abs_sub_signed]
    exact (h.closest other).trans (abs_sub_le_abs_sub_signed q negative (value_nonneg other))
  · intro y w hw hne hequal
    obtain ⟨negative, other, -, -, rfl⟩ := exists_of_number? hw
    rw [toNat_toBits_mod_two _ hcode.le]
    by_cases hsame : other = code
    · -- the double itself with the other sign, which is as close only if both are zero
      subst hsame
      obtain rfl : negative = !decide (q < 0) := by
        refine Bool.eq_not.mpr fun hsign => hne ?_
        rw [hsign]
      have hzero : value other = 0 := by
        rcases eq_zero_of_abs_sub_signed hequal.symm with rfl | hzero
        · simpa using h.closest 0
        · exact hzero
      simp [hzero, signed] at hne
    · rw [abs_sub_signed] at hequal
      have hle := abs_sub_le_abs_sub_signed q negative (value_nonneg other)
      exact h.even other hsame (le_antisymm (hequal ▸ hle) (h.closest other))

/-- The code of a finite double to which a number is rounded is nearest to its magnitude. -/
theorem isNearest_of_rounded (hcode : code < infinity) (h : Rounded q (toFloat negative code)) :
    negative = decide (q < 0) ∧ IsNearest |q| code := by
  have hnumber := number?_toFloat negative hcode
  cases h with
  | @finite v range number sign closest even =>
    obtain rfl : signed negative (value code) = v := Option.some.inj (hnumber.symm.trans number)
    obtain rfl : negative = decide (q < 0) := isNegative_toFloat negative hcode.le ▸ sign
    refine ⟨rfl, isNearest_of_finite range (fun other hother => ?_) fun other hother hne htie => ?_⟩
    · rw [← abs_sub_signed, ← abs_sub_signed]
      exact closest _ _ (number?_toFloat _ hother)
    · rw [← toNat_toBits_mod_two (decide (q < 0)) hcode.le]
      refine even _ _ (number?_toFloat (decide (q < 0)) hother) (fun hsame => hne ?_) ?_
      · exact value_strictMono.injective (signed_inj.mp hsame)
      · rw [abs_sub_signed, abs_sub_signed, htie]
  | above range infinite | below range infinite =>
    simp [number?, infinite] at hnumber

/-- A double that is unpacked to an infinity is that of its sign. -/
theorem eq_of_unpack_infinity
    (h : x.toModel.unpack = .infinity (if negative then .negative else .positive)) :
    x = toFloat negative infinity := by
  have hx := toFloat_ofFloat x
  have hcode : ofFloat x = infinity := by
    rcases lt_trichotomy (ofFloat x) infinity with hlt | heq | hgt
    · have hnumber := number?_toFloat (isNegative x) hlt
      simp [hx, number?, h] at hnumber
    · exact heq
    · have hunpack := unpack_toFloat (isNegative x) (ofFloat x)
      rw [hx, h, unpack_of_isNaNBits (isNaNBits_bits _ (ofFloat_lt x) hgt)] at hunpack
      contradiction
  rw [hcode] at hx
  rw [← hx, unpack_toFloat, unpack_bits_infinity, UnpackedFloat.infinity.injEq] at h
  have hsign : isNegative x = negative := by
    revert h
    cases isNegative x <;> cases negative <;> simp
  rw [← hx, hsign]

/-- A number is rounded to the double of its own sign and the code nearest to its magnitude, or to
the infinity of this sign if it is out of range. -/
theorem exists_of_rounded (h : Rounded q x) : ∃ code, x = toFloat (decide (q < 0)) code ∧
    (|q| < overflow ∧ code < infinity ∧ IsNearest |q| code ∨ overflow ≤ |q| ∧ code = infinity) := by
  have hpos := overflow_pos
  cases h with
  | finite range number sign closest even =>
    obtain ⟨negative, code, hcode, rfl, -⟩ := exists_of_number? number
    obtain ⟨rfl, hnearest⟩ := isNearest_of_rounded hcode (.finite range number sign closest even)
    exact ⟨code, rfl, .inl ⟨range, hcode, hnearest⟩⟩
  | above range infinite =>
    have hq : ¬ q < 0 := not_lt.mpr (hpos.le.trans range)
    rw [decide_eq_false hq, abs_of_nonneg (not_lt.mp hq)]
    exact ⟨infinity, eq_of_unpack_infinity infinite, .inr ⟨range, rfl⟩⟩
  | below range infinite =>
    have hq : q < 0 := by linarith
    rw [decide_eq_true hq, abs_of_neg hq]
    exact ⟨infinity, eq_of_unpack_infinity infinite, .inr ⟨by linarith, rfl⟩⟩

/-- A number is rounded to one double. -/
theorem rounded_unique {y : Float} (hx : Rounded q x) (hy : Rounded q y) : x = y := by
  obtain ⟨c, rfl, ⟨hrange, -, hnearest⟩ | ⟨hrange, rfl⟩⟩ := exists_of_rounded hx
  all_goals obtain ⟨c', rfl, ⟨hrange', -, hnearest'⟩ | ⟨hrange', rfl⟩⟩ := exists_of_rounded hy
  · rw [hnearest.unique hnearest']
  · exact absurd hrange (not_lt.mpr hrange')
  · exact absurd hrange' (not_lt.mpr hrange)
  · rfl

/-- A number that is out of range is rounded to infinity. -/
theorem rounded_infinity (h : overflow ≤ q) : Rounded q (toFloat false infinity) :=
  .above h (by rw [unpack_toFloat, unpack_bits_infinity]; rfl)

/-- A fraction is rounded to the double of the nearest code. -/
theorem rounded_nearest (n : Nat) (hd : 0 < d) : Rounded (n / d) (toFloat false (nearest n d)) := by
  have hq : (0 : ℚ) ≤ n / d := by positivity
  rcases Nat.lt_or_eq_of_le (nearest_le_infinity n d) with hcode | hcode
  · have hrounded := rounded_of_isNearest hcode
      ((abs_of_nonneg hq).symm ▸ (nearest_eq_iff hd hcode).mp rfl)
    rwa [decide_eq_false (not_lt.mpr hq)] at hrounded
  · rw [hcode]
    exact rounded_infinity ((nearest_eq_infinity_iff hd).mp hcode)

/-- Among the doubles without a sign that are not NaNs the infinite one is that of the last code. -/
theorem isInf_toFloat_iff (hcode : code ≤ infinity) :
    (toFloat false code).isInf = true ↔ code = infinity := by
  show (toFloat false code).toModel.unpack.isInf = true ↔ _
  rw [unpack_toFloat]
  rcases Nat.lt_or_eq_of_le hcode with hlt | rfl
  · rcases unpack_bits_false hlt with ⟨-, hc⟩ | ⟨_, hc⟩ <;>
      simp [hc, UnpackedFloat.isInf, hlt.ne]
  · simp [unpack_bits_infinity, UnpackedFloat.isInf]

/-- Whole numbers of 53 bits or fewer are not rounded. -/
theorem number?_nearest (hd : 0 < d) {m : Nat} (hm : m ≤ 2 ^ 53) (h : (n : ℚ) / d = m) :
    number? (toFloat false (nearest n d)) = some (m : ℚ) := by
  obtain ⟨code, hcode, hvalue⟩ := exists_value_eq hm
  have hnearest : nearest n d = code := by
    rw [nearest_eq_iff hd hcode, h, ← hvalue]
    exact isNearest_value code
  rw [hnearest, number?_toFloat false hcode, hvalue]
  rfl

/-- A greater code has a greater scale, or the same scale and a greater significand. -/
theorem scale_significand_of_le (h : c ≤ c') :
    scale c < scale c' ∨ scale c = scale c' ∧ significand c ≤ significand c' := by
  simp only [scale, significand, Nat.pow_eq]
  omega

/-- Unpacked numbers without a sign are compared by their scales, and those of one scale by their
significands. -/
theorem finite_le_finite {m m' : Nat} {e e' : ℤ} (hm : 0 < m) (hm' : 0 < m')
    (h : e < e' ∨ e = e' ∧ m ≤ m') :
    UnpackedFloat.le (.finite .positive m e hm) (.finite .positive m' e' hm') = true := by
  show ((compare e e').then (compare m m')).isLE = true
  rcases h with hscale | ⟨rfl, hsignificand⟩
  · rw [compare_lt_iff_lt.mpr hscale]
    rfl
  · rw [compare_eq_iff_eq.mpr rfl]
    exact Nat.isLE_compare.mpr hsignificand

/-- A double without a sign is not greater than that of a greater code. -/
theorem toFloat_le_toFloat (h : c ≤ c') (hcode : c' ≤ infinity) :
    toFloat false c ≤ toFloat false c' := by
  show decide ((toFloat false c).toModel.unpack.le (toFloat false c').toModel.unpack = true) = true
  rw [decide_eq_true_iff, unpack_toFloat, unpack_toFloat]
  rcases Nat.eq_or_lt_of_le hcode with rfl | hlt'
  · rw [unpack_bits_infinity]
    rcases Nat.eq_or_lt_of_le h with rfl | hlt
    · rw [unpack_bits_infinity]
      rfl
    · rcases unpack_bits_false hlt with ⟨-, hc⟩ | ⟨_, hc⟩ <;> rw [hc] <;> rfl
  · rcases unpack_bits_false hlt' with ⟨rfl, hc'⟩ | ⟨_, hc'⟩
    · obtain rfl : c = 0 := Nat.le_zero.mp h
      rw [hc']
      rfl
    · rcases unpack_bits_false (Nat.lt_of_le_of_lt h hlt') with ⟨-, hc⟩ | ⟨_, hc⟩
      · rw [hc, hc']
        rfl
      · rw [hc, hc']
        refine finite_le_finite _ _ ?_
        have hparts := scale_significand_of_le h
        omega

end Magnitude

end Calculator
