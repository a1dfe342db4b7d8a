import Calculator.Proofs.Grids
import Calculator.Proofs.Numbers
import Calculator.Proofs.Positional

/-!
# The shortest texts of doubles

A finite double is printed in positional notation. The digits that are printed have no zeros before
or after them but those that show their place, and the number they are has as few significant digits
as any that is rounded to the double, and is as close to the double as any with so few digits.
-/

namespace Calculator

open Magnitude (isNegative ofFloat toFloat signed IsNearest)
open Decimal (dropTrailingZeros)

variable {cs : List Char} {c : Char} {m : Nat} {r v : ℚ} {n : Nat} {x : Float}

/-- A number in positional notation: an optional sign, a run of digits that begins with a zero only
if it is nothing else, and digits after a dot that do not end in a zero. -/
structure Written where
  negative : Bool
  whole : List Char
  fraction : List Char
  digits : IsDigits whole
  leading : whole = ['0'] ∨ whole.head? ≠ some '0'
  places : ∀ c ∈ fraction, c.isDigit = true
  trailing : fraction.getLast? ≠ some '0'

namespace Written

/-- The text, with a dot only if there are digits after it. -/
def text (p : Written) : String :=
  (if p.negative then "-" else "") ++
    .ofList (if p.fraction.isEmpty then p.whole else p.whole ++ '.' :: p.fraction)

/-- The number. -/
def number (p : Written) : ℚ :=
  signed p.negative (Nat.ofDigitChars 10 p.whole 0 +
    Nat.ofDigitChars 10 p.fraction 0 / 10 ^ p.fraction.length)

/-- The digits without the zeros before them and after them. -/
def significant (p : Written) : List Char :=
  dropTrailingZeros ((p.whole ++ p.fraction).dropWhile (· == '0'))

end Written

/-- A text does not end in a zero when the zeros at its end are dropped. -/
theorem getLast?_dropTrailingZeros (cs : List Char) :
    (dropTrailingZeros cs).getLast? ≠ some '0' := by
  have hhead := List.head?_dropWhile_not (· == '0') cs.reverse
  rw [dropTrailingZeros, List.getLast?_reverse]
  intro hzero
  simp [hzero] at hhead

/-- Nothing is left in a text but what is there before the zeros at its end are dropped. -/
theorem mem_of_mem_dropTrailingZeros (h : c ∈ dropTrailingZeros cs) : c ∈ cs := by
  obtain ⟨k, hk⟩ := Decimal.exists_dropTrailingZeros cs
  rw [hk]
  exact List.mem_append_left _ h

/-- A digit is the character of a number below ten, and not of zero unless it is the zero. -/
theorem toNat_sub_of_isDigit (h : c.isDigit = true) :
    c.toNat - '0'.toNat < 10 ∧ (c ≠ '0' → 0 < c.toNat - '0'.toNat) := by
  obtain ⟨hge, hle⟩ := Char.isDigit_iff_toNat.mp h
  have hnine : '9'.toNat = '0'.toNat + 9 := rfl
  refine ⟨by omega, fun hne => ?_⟩
  have hcode : c.toNat ≠ '0'.toNat := fun heq => hne (Char.toNat_inj.mp heq)
  omega

/-- The number of a run of digits is less than the power of ten of its length. -/
theorem ofDigitChars_lt (h : ∀ c ∈ cs, c.isDigit = true) :
    Nat.ofDigitChars 10 cs 0 < 10 ^ cs.length := by
  induction cs with
  | nil => simp
  | cons c cs ih =>
    have hc := (toNat_sub_of_isDigit (h c (by simp))).1
    have hcs := ih fun c' hc' => h c' (by simp [hc'])
    rw [Nat.ofDigitChars_cons, Nat.ofDigitChars_eq_ofDigitChars_zero, Nat.mul_zero, Nat.zero_add,
      List.length_cons, Nat.pow_succ]
    generalize c.toNat - '0'.toNat = digit at hc
    calc 10 ^ cs.length * digit + Nat.ofDigitChars 10 cs 0
        < 10 ^ cs.length * digit + 10 ^ cs.length := Nat.add_lt_add_left hcs _
      _ = 10 ^ cs.length * (digit + 1) := (Nat.mul_succ ..).symm
      _ ≤ 10 ^ cs.length * 10 := Nat.mul_le_mul_left _ hc

/-- A run of digits that does not begin with a zero is not less than the power of ten after it. -/
theorem pow_le_ofDigitChars (hc : c.isDigit = true) (hzero : c ≠ '0') (cs : List Char) :
    10 ^ cs.length ≤ Nat.ofDigitChars 10 (c :: cs) 0 := by
  have hpos := (toNat_sub_of_isDigit hc).2 hzero
  rw [Nat.ofDigitChars_cons, Nat.ofDigitChars_eq_ofDigitChars_zero]
  exact (Nat.le_mul_of_pos_right _ (by omega)).trans (Nat.le_add_right _ _)

/-- A run of digits that does not end in a zero is no multiple of ten. -/
theorem ofDigitChars_mod_ten (hc : c.isDigit = true) (hzero : c ≠ '0') (cs : List Char) :
    Nat.ofDigitChars 10 (cs ++ [c]) 0 % 10 ≠ 0 := by
  obtain ⟨hlt, hpos⟩ := toNat_sub_of_isDigit hc
  rw [Nat.ofDigitChars_append, Nat.ofDigitChars_cons, Nat.ofDigitChars_nil]
  have := hpos hzero
  omega

/-- Zeros before a run of digits make no difference. -/
theorem ofDigitChars_dropWhile (cs : List Char) :
    Nat.ofDigitChars 10 (cs.dropWhile (· == '0')) 0 = Nat.ofDigitChars 10 cs 0 := by
  induction cs with
  | nil => rfl
  | cons c cs ih =>
    by_cases hc : c = '0'
    · subst hc
      simpa [Nat.ofDigitChars_cons] using ih
    · simp [hc]

/-- The zeros that are dropped before and after a run of digits make a power of ten. -/
theorem exists_ofDigitChars_significant (cs : List Char) :
    ∃ k, Nat.ofDigitChars 10 cs 0 =
      Nat.ofDigitChars 10 (dropTrailingZeros (cs.dropWhile (· == '0'))) 0 * 10 ^ k := by
  obtain ⟨k, hk⟩ := Decimal.exists_dropTrailingZeros (cs.dropWhile (· == '0'))
  refine ⟨k, ?_⟩
  rw [← ofDigitChars_dropWhile cs]
  conv_lhs => rw [hk]
  rw [Decimal.ofDigitChars_append_mul, List.length_replicate, Nat.ofDigitChars_replicate_zero,
    Nat.mul_zero, Nat.add_zero]

/-- A number that is no multiple of ten has the least significand of its multiples by powers of
ten. -/
theorem le_abs_of_mul_zpow_eq {d : Nat} {k a b : ℤ} (hd : d % 10 ≠ 0)
    (h : (d : ℚ) * 10 ^ a = k * 10 ^ b) : (d : ℤ) ≤ |k| := by
  have hten : (10 : ℚ) ≠ 0 := by decide
  rcases le_or_gt b a with hle | hlt
  · obtain ⟨e, he⟩ := Int.eq_ofNat_of_zero_le (sub_nonneg.mpr hle)
    have hk : k = d * 10 ^ e := by
      rw [← sub_add_cancel a b, zpow_add₀ hten, ← mul_assoc, he] at h
      exact_mod_cast (mul_right_cancel₀ (zpow_ne_zero b hten) h).symm
    rw [hk, abs_of_nonneg (by positivity)]
    exact le_mul_of_one_le_right (by positivity) (one_le_pow₀ (by decide))
  · obtain ⟨e, he⟩ := Int.eq_ofNat_of_zero_le (sub_nonneg.mpr (Int.add_one_le_of_lt hlt))
    have hk : (d : ℤ) = k * 10 ^ e * 10 := by
      rw [show b = e + 1 + a by omega, zpow_add₀ hten, ← mul_assoc, zpow_add_one₀ hten,
        ← mul_assoc] at h
      exact_mod_cast mul_right_cancel₀ (zpow_ne_zero a hten) h
    omega

/-- A run of digits without zeros before and after it has no more significant digits than any
number that differs from it by a power of ten only. -/
theorem length_le_of_hasDigits (hcs : ∀ c ∈ cs, c.isDigit = true) (hhead : cs.head? ≠ some '0')
    (hlast : cs.getLast? ≠ some '0') {a : ℤ}
    (h : HasDigits (Nat.ofDigitChars 10 cs 0 * 10 ^ a) n) : cs.length ≤ n := by
  rcases List.eq_nil_or_concat' cs with rfl | ⟨rest, c, rfl⟩
  · exact Nat.zero_le _
  · obtain ⟨k, e, hk, hlt⟩ := h
    have hmod := ofDigitChars_mod_ten (hcs c (by simp)) (fun hzero => hlast (by simp [hzero])) rest
    have hle := le_abs_of_mul_zpow_eq hmod hk
    cases hcons : rest ++ [c] with
    | nil => simp at hcons
    | cons d ds =>
      rw [hcons] at hle hcs hhead
      have hge := pow_le_ofDigitChars (hcs d (by simp)) (fun hzero => hhead (by simp [hzero])) ds
      have hpow : 10 ^ ds.length < 10 ^ n := by
        have hge' : ((10 ^ ds.length : Nat) : ℤ) ≤ |k| := (Int.ofNat_le.mpr hge).trans hle
        exact_mod_cast hge'.trans_lt hlt
      exact (Nat.pow_lt_pow_iff_right (by decide)).mp hpow

/-- A run of digits has no more significant digits than its length. -/
theorem hasDigits_length (hcs : ∀ c ∈ cs, c.isDigit = true) (a : ℤ) :
    HasDigits (Nat.ofDigitChars 10 cs 0 * 10 ^ a) cs.length := by
  refine ⟨Nat.ofDigitChars 10 cs 0, a, by push_cast; rfl, ?_⟩
  rw [abs_of_nonneg (by positivity)]
  exact_mod_cast ofDigitChars_lt hcs

/-- A number has as many significant digits as its opposite. -/
theorem HasDigits.neg (h : HasDigits r n) : HasDigits (-r) n := by
  obtain ⟨m, e, rfl, hm⟩ := h
  exact ⟨-m, e, by push_cast; ring, by rwa [abs_neg]⟩

/-- A number has as many significant digits as its magnitude. -/
theorem HasDigits.abs (h : HasDigits r n) : HasDigits |r| n := by
  rcases abs_choice r with heq | heq <;> rw [heq]
  · exact h
  · exact h.neg

/-- The sign makes no difference to the significant digits. -/
theorem hasDigits_signed {negative : Bool} : HasDigits (signed negative r) n ↔ HasDigits r n := by
  cases negative with
  | false => rfl
  | true => exact ⟨fun h => neg_neg r ▸ h.neg, HasDigits.neg⟩

namespace Written

/-- The digits before and after the dot are digits. -/
theorem isDigit_of_mem (p : Written) : ∀ c ∈ p.whole ++ p.fraction, c.isDigit = true := by
  intro c hc
  rcases List.mem_append.mp hc with hwhole | hfraction
  · exact p.digits.2 c hwhole
  · exact p.places c hfraction

/-- The number is that of all digits, over the power of ten of those after the dot. -/
theorem number_eq (p : Written) : p.number = signed p.negative
    (Nat.ofDigitChars 10 (p.whole ++ p.fraction) 0 * 10 ^ (-p.fraction.length : ℤ)) := by
  have hpow : (10 : ℚ) ^ p.fraction.length ≠ 0 := pow_ne_zero _ (by decide)
  rw [number, Decimal.ofDigitChars_append_mul, zpow_neg, zpow_natCast]
  push_cast
  congr 1
  field_simp

/-- The digits that are left are those that are significant, over some power of ten. -/
theorem exists_number_eq (p : Written) : ∃ a : ℤ, p.number = signed p.negative
    (Nat.ofDigitChars 10 p.significant 0 * 10 ^ a) := by
  obtain ⟨k, hk⟩ := exists_ofDigitChars_significant (p.whole ++ p.fraction)
  refine ⟨k - p.fraction.length, ?_⟩
  rw [number_eq, hk, significant, sub_eq_add_neg, zpow_add₀ (by decide), zpow_natCast, ← mul_assoc]
  push_cast
  rfl

/-- The significant digits are digits. -/
theorem isDigit_of_mem_significant (p : Written) : ∀ c ∈ p.significant, c.isDigit = true := by
  intro c hc
  have hmem := (List.dropWhile_sublist _).subset (mem_of_mem_dropTrailingZeros hc)
  exact p.isDigit_of_mem c hmem

/-- The significant digits do not begin with a zero. -/
theorem head?_significant (p : Written) : p.significant.head? ≠ some '0' := by
  have hhead := List.head?_dropWhile_not (· == '0') (p.whole ++ p.fraction)
  obtain ⟨k, hk⟩ :=
    Decimal.exists_dropTrailingZeros ((p.whole ++ p.fraction).dropWhile (· == '0'))
  intro hzero
  rw [hk, List.head?_append, show (dropTrailingZeros _).head? = some '0' from hzero] at hhead
  simp at hhead

/-- A written number has as many significant digits as are written. -/
theorem hasDigits_number (p : Written) : HasDigits p.number p.significant.length := by
  obtain ⟨a, ha⟩ := p.exists_number_eq
  rw [ha, hasDigits_signed]
  exact hasDigits_length p.isDigit_of_mem_significant a

/-- A written number has no fewer significant digits than are written. -/
theorem length_significant_le (p : Written) (h : HasDigits p.number n) :
    p.significant.length ≤ n := by
  obtain ⟨a, ha⟩ := p.exists_number_eq
  rw [ha, hasDigits_signed] at h
  exact length_le_of_hasDigits p.isDigit_of_mem_significant p.head?_significant
    (getLast?_dropTrailingZeros _) h

end Written

/-- The digits of a number begin with a zero only if they are nothing else. -/
theorem head?_toDigits (m : Nat) :
    Nat.toDigits 10 m = ['0'] ∨ (Nat.toDigits 10 m).head? ≠ some '0' := by
  cases hdigits : Nat.toDigits 10 m with
  | nil => exact .inr (by simp)
  | cons c cs =>
    by_cases hc : c = '0'
    · subst hc
      cases cs with
      | nil => exact .inl rfl
      | cons d ds =>
        have hall : ∀ c ∈ d :: ds, c.isDigit = true := fun c hc =>
          (Decimal.isDigits_toDigits m).2 c (by rw [hdigits]; exact List.mem_cons_of_mem _ hc)
        have hlt := ofDigitChars_lt hall
        have hvalue := Nat.ofDigitChars_ten_toDigits (n := m)
        rw [hdigits, Nat.ofDigitChars_cons] at hvalue
        have hm : Nat.ofDigitChars 10 (d :: ds) 0 = m := hvalue
        rw [hm, ← Nat.length_toDigits_le_iff (by decide) (by simp), hdigits] at hlt
        simp at hlt
    · exact .inr (by simpa using hc)

/-- A decimal, written with a sign. -/
def Decimal.written (negative : Bool) (d : Decimal) : Written where
  negative := negative
  whole := Nat.toDigits 10 (d.digits / Nat.pow 10 d.places)
  fraction := dropTrailingZeros d.fractionDigits
  digits := isDigits_toDigits _
  leading := head?_toDigits _
  places := fun c hc => isDigit_of_mem_fractionDigits d c (mem_of_mem_dropTrailingZeros hc)
  trailing := getLast?_dropTrailingZeros _

/-- A decimal is the same number when it is written. -/
theorem Decimal.number_written (negative : Bool) (d : Decimal) :
    (d.written negative).number = signed negative d.number := by
  have hsum := Nat.div_add_mod d.digits (10 ^ d.places)
  simp only [Written.number, written, number, Nat.pow_eq, Nat.ofDigitChars_ten_toDigits]
  congr 1
  rcases Nat.eq_zero_or_pos d.places with hzero | hpos
  · rw [dropTrailingZeros_of_places hzero, hzero]
    simp
  · obtain ⟨k, hk⟩ := exists_dropTrailingZeros d.fractionDigits
    have hlength := length_fractionDigits hpos
    have hfraction := ofDigitChars_fractionDigits d
    generalize d.digits / 10 ^ d.places = whole at hsum ⊢
    generalize dropTrailingZeros d.fractionDigits = fraction at hk ⊢
    rw [hk, List.length_append, List.length_replicate] at hlength
    rw [hk, ofDigitChars_append_mul, List.length_replicate, Nat.ofDigitChars_replicate_zero,
      Nat.mul_zero, Nat.add_zero] at hfraction
    rw [← hfraction, ← hlength, Nat.pow_add] at hsum
    rw [← hsum, ← hlength, pow_add]
    push_cast
    field_simp

/-- A decimal is written without a dot if it is a whole number. -/
theorem Decimal.fraction_written_eq_nil_iff (negative : Bool) (d : Decimal) :
    (d.written negative).fraction = [] ↔ 10 ^ d.places ∣ d.digits := by
  have hfraction := ofDigitChars_fractionDigits d
  simp only [written, Nat.dvd_iff_mod_eq_zero]
  constructor
  · intro hnil
    obtain ⟨k, hk⟩ := exists_dropTrailingZeros d.fractionDigits
    rw [← hfraction, hk, hnil, List.nil_append, Nat.ofDigitChars_replicate_zero, Nat.mul_zero]
  · intro hzero
    have hall : ∀ c ∈ d.fractionDigits, c = '0' := by
      intro c hc
      simp only [fractionDigits, Nat.pow_eq, hzero, Nat.toDigits_zero, List.leftpad,
        List.mem_append, List.mem_replicate, List.mem_singleton] at hc
      exact hc.elim And.right id
    rcases List.eq_nil_or_concat' (dropTrailingZeros d.fractionDigits) with hnil | ⟨rest, c, hlast⟩
    · exact hnil
    · have hc : c = '0' := hall c (mem_of_mem_dropTrailingZeros (by simp [hlast]))
      have htrailing := getLast?_dropTrailingZeros d.fractionDigits
      simp [hlast, hc] at htrailing

/-- A positive number is negative with a sign exactly when the sign is set. -/
theorem decide_signed_lt {negative : Bool} (hr : 0 < r) :
    decide (signed negative r < 0) = negative := by
  cases negative <;> simp [signed, hr, hr.le]

/-- A number is whole with its sign when its magnitude is. -/
theorem exists_int_signed_iff {negative : Bool} (hr : 0 ≤ r) :
    (∃ k : ℤ, signed negative r = k) ↔ ∃ k : Nat, r = k := by
  constructor
  · rintro ⟨k, hk⟩
    refine ⟨k.natAbs, ?_⟩
    rw [Nat.cast_natAbs, Int.cast_abs, ← hk, Magnitude.abs_signed, abs_of_nonneg hr]
  · rintro ⟨k, rfl⟩
    cases negative with
    | false => exact ⟨k, rfl⟩
    | true => exact ⟨-k, by simp [signed]⟩

/-- A finite double is printed as its shortest decimal with its sign. -/
theorem formatNumber_toFloat (negative : Bool) {code : Nat} (hcode : code < Magnitude.infinity) :
    formatNumber (toFloat negative code) = ((Magnitude.shortest code).written negative).text := by
  simp only [formatNumber, Magnitude.ofFloat_toFloat negative hcode.le,
    Magnitude.isNegative_toFloat negative hcode.le, if_neg (Nat.not_lt_of_le hcode.le),
    if_neg hcode.ne]
  rfl

/-- A double other than zero is printed in positional notation, with a dot only if it is not a whole
number. What is printed is rounded to the double. Every other number that is rounded to it has at
least as many significant digits as are printed, and is no closer to it if it has no more. -/
theorem formatNumber_shortest (hx : number? x = some v) (hv : v ≠ 0) :
    ∃ p : Written, formatNumber x = p.text ∧ p.negative = decide (v < 0) ∧
      (p.fraction = [] ↔ ∃ k : ℤ, v = k) ∧ Rounded p.number x ∧
      HasDigits p.number p.significant.length ∧
      ∀ r n, Rounded r x → HasDigits r n → p.significant.length ≤ n ∧
        (n ≤ p.significant.length → |p.number - v| ≤ |r - v|) := by
  obtain ⟨negative, code, hcode, rfl, rfl⟩ := Magnitude.exists_of_number? hx
  have hpos : 0 < code := by
    refine Nat.pos_of_ne_zero fun hzero => hv ?_
    simp [hzero, signed]
  have hvalue : 0 < Magnitude.value code := by simpa using Magnitude.value_strictMono hpos
  have hnearest := Magnitude.isNearest_shortest hcode
  have hshortest : 0 < (Magnitude.shortest code).number :=
    lt_of_le_of_ne (Magnitude.shortest code).number_nonneg (hnearest.ne_zero hpos).symm
  have hnumber := (Magnitude.shortest code).number_written negative
  obtain ⟨k, hk, hminimal⟩ := Magnitude.exists_hasDigits_shortest hpos hcode
  refine ⟨(Magnitude.shortest code).written negative, formatNumber_toFloat negative hcode,
    (decide_signed_lt hvalue).symm, ?_, ?_, Written.hasDigits_number _, ?_⟩
  · rw [Decimal.fraction_written_eq_nil_iff, exists_int_signed_iff hvalue.le]
    exact Magnitude.dvd_digits_shortest_iff hpos hcode
  · rw [hnumber]
    have hrounded := Magnitude.rounded_of_isNearest (q := signed negative _) hcode
      (by rw [Magnitude.abs_signed, abs_of_pos hshortest]; exact hnearest)
    rwa [decide_signed_lt hshortest] at hrounded
  · intro r n hr hdigits
    have hlength := Written.length_significant_le _ (hnumber ▸ hasDigits_signed.mpr hk)
    obtain ⟨rfl, hread⟩ := Magnitude.isNearest_of_rounded hcode hr
    obtain ⟨hle, hclosest⟩ := hminimal |r| n (abs_nonneg r) hread hdigits.abs
    refine ⟨hlength.trans hle, fun hn => ?_⟩
    rw [hnumber, Magnitude.abs_signed_sub_signed, Magnitude.abs_sub_signed]
    exact hclosest (hn.trans hlength)

/-- The least double is printed with no more digits than any number that is rounded to it, although
those lie as far apart as from half of it to its threefold half. -/
theorem formatNumber_shortest_least :
    number? (.ofBits 1) = some (Magnitude.value 1) ∧ Magnitude.value 1 ≠ 0 ∧
    ∃ p : Written, formatNumber (.ofBits 1) = p.text ∧ p.negative = decide (Magnitude.value 1 < 0) ∧
      (p.fraction = [] ↔ ∃ k : ℤ, Magnitude.value 1 = k) ∧ Rounded p.number (.ofBits 1) ∧
      HasDigits p.number p.significant.length ∧
      ∀ r n, Rounded r (.ofBits 1) → HasDigits r n → p.significant.length ≤ n ∧
        (n ≤ p.significant.length → |p.number - Magnitude.value 1| ≤ |r - Magnitude.value 1|) := by
  have hnumber : number? (.ofBits 1) = some (Magnitude.value 1) :=
    Magnitude.number?_toFloat false (show 1 < Magnitude.infinity by decide)
  have hne : Magnitude.value 1 ≠ 0 := by
    rw [← Magnitude.value_zero]
    exact (Magnitude.value_strictMono Nat.zero_lt_one).ne'
  exact ⟨hnumber, hne, formatNumber_shortest hnumber hne⟩

end Calculator
