import Calculator.Proofs.Rounding
import Mathlib.Algebra.Order.AbsoluteValue.Basic
import Mathlib.Algebra.Order.Field.Rat
import Mathlib.Tactic.FieldSimp
import Mathlib.Tactic.Linarith
import Mathlib.Tactic.NormNum
import Mathlib.Tactic.Positivity
import Mathlib.Tactic.Ring

/-!
# The codes nearest to a number

A code is nearest to a number when no code has a value closer to it, and when the code is even if
another one has a value as close. This is said of all codes, those after infinity included, as if
the range had no end; a number has exactly one nearest code, and greater numbers have greater ones.

`Magnitude.nearest` finds it, except that every code from that of infinity on is cut down to
infinity. The bound beyond which this happens lies halfway between the greatest finite value and the
first value out of range.
-/

namespace Calculator.Magnitude

variable {code other c c' k n d s : Nat} {q q' g : ℚ}

/-- The value of a code. -/
def value (code : Nat) : ℚ :=
  units code / one

/-- No code has a value closer to the number, and the code is even if another one is as close. -/
structure IsNearest (q : ℚ) (code : Nat) : Prop where
  closest : ∀ other, |q - value code| ≤ |q - value other|
  even : ∀ other, other ≠ code → |q - value other| = |q - value code| → code % 2 = 0

/-- The nearest code, as if the range had no end. -/
def unbounded (n d : Nat) : Nat :=
  let k := (n * one / d).log2 - 52
  k * 2 ^ 52 + divideToEven (n * one) (d * 2 ^ k)

/-- One is some units. -/
theorem one_pos : 0 < one := by
  rw [one_eq]
  exact Nat.two_pow_pos _

/-- The code of a significand at a scale has the value of the significand times the scale, also when
the significand has been rounded up to 54 bits. -/
theorem units_of_significand (hs : s ≤ 2 ^ 53) (h : k = 0 ∨ 2 ^ 52 ≤ s) :
    units (k * 2 ^ 52 + s) = s * 2 ^ k := by
  have hparts (m t : Nat) (hscale : scale (k * 2 ^ 52 + s) = m)
      (hsignificand : significand (k * 2 ^ 52 + s) = t) : units (k * 2 ^ 52 + s) = t * 2 ^ m := by
    rw [units, hscale, hsignificand, Nat.pow_eq]
  rcases Nat.lt_or_eq_of_le hs with hlt | rfl
  · apply hparts k s <;> simp only [scale, significand, Nat.pow_eq] <;> omega
  · rw [hparts (k + 1) (2 ^ 52) (by simp only [scale, Nat.pow_eq]; omega)
      (by simp only [significand, scale, Nat.pow_eq]; omega), Nat.pow_succ]
    omega

/-- The next code is one unit in the last place away. -/
theorem units_succ (code : Nat) : units (code + 1) = units code + 2 ^ scale code := by
  obtain ⟨hlt, hscale⟩ := significand_bounds code
  have hcode := scale_add_significand code
  have hnext := units_of_significand (k := scale code) (s := significand code + 1) (by omega)
    (by omega)
  rw [← Nat.add_assoc, hcode] at hnext
  rw [hnext, units, Nat.pow_eq, Nat.add_mul, Nat.one_mul]

/-- Codes grow with their values. -/
theorem units_strictMono : StrictMono units := by
  refine strictMono_nat_of_lt_succ fun code => ?_
  rw [units_succ]
  exact Nat.lt_add_of_pos_right (Nat.two_pow_pos _)

/-- Codes grow with their values. -/
theorem value_strictMono : StrictMono value := by
  intro c c' h
  have hone : (0 : ℚ) < one := by exact_mod_cast one_pos
  have hunits : (units c : ℚ) < units c' := by exact_mod_cast units_strictMono h
  exact (div_lt_div_iff_of_pos_right hone).mpr hunits

/-- The least code has the value zero. -/
@[simp] theorem value_zero : value 0 = 0 := by
  rw [value, show units 0 = 0 from rfl, Nat.cast_zero, zero_div]

/-- No value is below zero. -/
theorem value_nonneg (code : Nat) : 0 ≤ value code := by
  unfold value
  positivity

/-- A quotient is rounded by at most a half, and by a half only to an even number. -/
theorem divideToEven_bounds (n : Nat) (hd : 0 < d) :
    2 * (divideToEven n d * d) ≤ 2 * n + d ∧ 2 * n ≤ 2 * (divideToEven n d * d) + d ∧
      (2 * (divideToEven n d * d) = 2 * n + d ∨ 2 * n = 2 * (divideToEven n d * d) + d →
        divideToEven n d % 2 = 0) := by
  have hn := Nat.div_add_mod n d
  have hr := Nat.mod_lt n hd
  have hq : (n / d + 1) * d = d * (n / d) + d := by ring
  have hq' : n / d * d = d * (n / d) := Nat.mul_comm _ _
  simp only [divideToEven]
  split
  · rw [hq']
    omega
  · rw [hq]
    omega

/-- A code is nearest to a number within half a gap, if the other codes are a gap or more away or
lie beyond the code as seen from the number. At half a gap the code has to be even. -/
theorem isNearest_of_gap (hhalf : |q - value code| ≤ g / 2)
    (habove : ∀ other, code < other → value code + g ≤ value other)
    (hbelow : ∀ other, other < code → value other + g ≤ value code ∨ value code ≤ q)
    (heven : |q - value code| = g / 2 → code % 2 = 0) : IsNearest q code := by
  have hother (other : Nat) (hne : other ≠ code) : g / 2 ≤ |q - value other| ∨
      |q - value code| < |q - value other| := by
    obtain ⟨hleft, hright⟩ := abs_le.mp hhalf
    rcases Nat.lt_or_gt_of_ne hne with hlt | hgt
    · rcases hbelow other hlt with hgap | hle
      · exact .inl (le_abs.mpr (.inl (by linarith)))
      · have hstep := value_strictMono hlt
        rw [abs_of_nonneg (sub_nonneg.mpr hle)]
        exact .inr (lt_abs.mpr (.inl (by linarith)))
    · have hgap := habove other hgt
      exact .inl (le_abs.mpr (.inr (by linarith)))
  constructor
  · intro other
    by_cases hne : other = code
    · rw [hne]
    · rcases hother other hne with hfar | hlt
      · exact hhalf.trans hfar
      · exact hlt.le
  · intro other hne hequal
    rcases hother other hne with hfar | hlt
    · exact heven (le_antisymm hhalf (hequal ▸ hfar))
    · exact absurd hequal (ne_of_gt hlt)

/-- Which of two others a number is closer to depends on the side of their middle it is on. -/
theorem abs_sub_le_abs_sub_iff_mul (q a b : ℚ) :
    |q - b| ≤ |q - a| ↔ 0 ≤ (b - a) * (2 * q - (a + b)) := by
  have hdifference : (q - a) ^ 2 - (q - b) ^ 2 = (b - a) * (2 * q - (a + b)) := by ring
  rw [← sq_le_sq, ← sub_nonneg, hdifference]

/-- A number is as close to the greater of two others when it is not below their middle. -/
theorem abs_sub_le_abs_sub_iff {a b : ℚ} (h : a < b) : |q - b| ≤ |q - a| ↔ a + b ≤ 2 * q := by
  rw [abs_sub_le_abs_sub_iff_mul, mul_nonneg_iff_of_pos_left (sub_pos.mpr h), sub_nonneg]

/-- A number is as close to the lesser of two others when it is not above their middle. -/
theorem abs_sub_le_abs_sub_iff' {a b : ℚ} (h : a < b) : |q - a| ≤ |q - b| ↔ 2 * q ≤ a + b := by
  have hproduct : (a - b) * (2 * q - (b + a)) = (b - a) * (a + b - 2 * q) := by ring
  rw [abs_sub_le_abs_sub_iff_mul, hproduct, mul_nonneg_iff_of_pos_left (sub_pos.mpr h), sub_nonneg]

/-- A greater number has no lesser nearest code. -/
theorem IsNearest.le_of_le (h : IsNearest q c) (h' : IsNearest q' c') (hq : q ≤ q') : c ≤ c' := by
  by_contra hlt
  have hcodes : c' < c := Nat.lt_of_not_le hlt
  -- both numbers lie halfway between the two values
  have hlow := (abs_sub_le_abs_sub_iff (value_strictMono hcodes)).mp (h.closest c')
  have hhigh := (abs_sub_le_abs_sub_iff' (value_strictMono hcodes)).mp (h'.closest c)
  obtain rfl : q = q' := by linarith
  have htie := le_antisymm (h.closest c') (h'.closest c)
  have heven := h.even c' hcodes.ne htie.symm
  have heven' := h'.even c hcodes.ne' htie
  -- so both codes are even, and the code after the lesser one has a value between theirs
  have hnext : c' + 1 < c := by omega
  have hbetween := (abs_sub_le_abs_sub_iff (value_strictMono hnext)).mp (h.closest (c' + 1))
  have hstep := value_strictMono (Nat.lt_succ_self c')
  linarith

/-- A number has one nearest code. -/
theorem IsNearest.unique (h : IsNearest q c) (h' : IsNearest q c') : c = c' :=
  le_antisymm (h.le_of_le h' le_rfl) (h'.le_of_le h le_rfl)

/-- A quotient of 53 bits or fewer is rounded to the significand of a code. -/
theorem divideToEven_le (h : n < 2 ^ 53 * d) : divideToEven n d ≤ 2 ^ 53 := by
  have hq : n / d < 2 ^ 53 := Nat.div_lt_of_lt_mul (by rwa [Nat.mul_comm])
  simp only [divideToEven]
  split <;> omega

/-- A quotient is not rounded to less than a whole number below it. -/
theorem le_divideToEven {m : Nat} (hd : 0 < d) (h : m * d ≤ n) : m ≤ divideToEven n d := by
  have hq : m ≤ n / d := (Nat.le_div_iff_mul_le hd).mpr h
  simp only [divideToEven]
  split <;> omega

/-- The scale that is used for a number leaves it no more than 53 bits, and no fewer if there is a
scale. -/
theorem scale_bounds (n : Nat) (hd : 0 < d) :
    n < 2 ^ 53 * (d * 2 ^ ((n / d).log2 - 52)) ∧
      ((n / d).log2 - 52 = 0 ∨ 2 ^ 52 * (d * 2 ^ ((n / d).log2 - 52)) ≤ n) := by
  have hlog : n / d < 2 ^ ((n / d).log2 + 1) := Nat.lt_log2_self
  rw [Nat.div_lt_iff_lt_mul hd] at hlog
  have hpow (m : Nat) (hm : 52 ≤ (n / d).log2) : 2 ^ (52 + m) * (d * 2 ^ ((n / d).log2 - 52)) =
      2 ^ ((n / d).log2 + m) * d := by
    rw [show (n / d).log2 + m = 52 + m + ((n / d).log2 - 52) by omega, Nat.pow_add 2 (52 + m)]
    ring
  rcases Nat.lt_or_ge (n / d).log2 53 with hshort | hlong
  · have hzero : (n / d).log2 - 52 = 0 := by omega
    refine ⟨?_, .inl hzero⟩
    rw [hzero, Nat.pow_zero, Nat.mul_one]
    exact hlog.trans_le (Nat.mul_le_mul_right _ (Nat.pow_le_pow_right (by decide) (by omega)))
  · refine ⟨hpow 1 (by omega) ▸ hlog, .inr ?_⟩
    have hne : n / d ≠ 0 := by
      intro hzero
      simp [hzero] at hlong
    exact hpow 0 (by omega) ▸ (Nat.le_div_iff_mul_le hd).mp (Nat.log2_self_le hne)

/-- A value is at least a unit of the scale before it away from the values below. -/
theorem value_add_le (h : c < c') (hk : k ≤ scale (c' - 1)) : value c + 2 ^ k / one ≤ value c' := by
  have hone : (0 : ℚ) < one := by exact_mod_cast one_pos
  have hpow : 2 ^ k ≤ 2 ^ scale (c' - 1) := Nat.pow_le_pow_right (by decide) hk
  have hprevious : units c ≤ units (c' - 1) := units_strictMono.monotone (by omega)
  have hunits : units c + 2 ^ k ≤ units c' := by
    rw [← Nat.sub_add_cancel (Nat.one_le_of_lt h), units_succ]
    exact Nat.add_le_add hprevious hpow
  rw [value, value, ← add_div, div_le_div_iff_of_pos_right hone]
  exact_mod_cast hunits

/-- A value is compared with a fraction by comparing natural numbers. -/
theorem value_le_of_units_le (hd : 0 < d) (h : units code * d ≤ n * one) : value code ≤ n / d := by
  have hone : (0 : ℚ) < one := by exact_mod_cast one_pos
  have hd' : (0 : ℚ) < d := by exact_mod_cast hd
  rw [value, div_le_div_iff₀ hone hd']
  exact_mod_cast h

/-- The distance of a fraction from the value of a significand at a scale. -/
theorem abs_sub_value_eq (n : Nat) (hd : 0 < d) (hs : s ≤ 2 ^ 53) (hk : k = 0 ∨ 2 ^ 52 ≤ s) :
    |(n : ℚ) / d - value (k * 2 ^ 52 + s)| = |(n * one - s * (d * 2 ^ k) : ℚ)| / (d * one) := by
  have hone : (0 : ℚ) < one := by exact_mod_cast one_pos
  have hvalue : value (k * 2 ^ 52 + s) = s * 2 ^ k / one := by
    rw [value, units_of_significand hs hk]
    push_cast
    rfl
  have hdifference : (n : ℚ) / d - s * 2 ^ k / one =
      (n * one - s * (d * 2 ^ k)) / (d * one) := by
    -- with a variable for one the power is not evaluated
    generalize (one : ℚ) = unit at hone ⊢
    field_simp
  have hdenominator : (0 : ℚ) < d * one := mul_pos (by exact_mod_cast hd) hone
  rw [hvalue, hdifference, abs_div, abs_of_pos hdenominator]

/-- Half a unit of a scale. -/
theorem half_unit_eq (k : Nat) (hd : 0 < d) :
    (2 : ℚ) ^ k / one / 2 = d * 2 ^ k / 2 / (d * one) := by
  have hone : (0 : ℚ) < one := by exact_mod_cast one_pos
  generalize (one : ℚ) = unit at hone ⊢
  field_simp

/-- The code of a significand at a scale is nearest to a fraction within half a unit of the scale.
At half a unit the significand has to be even. The least significand of a scale has closer codes
below it, and must not exceed the fraction. -/
theorem isNearest_of_significand (hd : 0 < d) (hs : s ≤ 2 ^ 53)
    (hk : k = 0 ∨ 2 ^ 52 ≤ s ∧ 2 ^ 52 * (d * 2 ^ k) ≤ n * one)
    (hup : 2 * (s * (d * 2 ^ k)) ≤ 2 * (n * one) + d * 2 ^ k)
    (hdown : 2 * (n * one) ≤ 2 * (s * (d * 2 ^ k)) + d * 2 ^ k)
    (htie : 2 * (s * (d * 2 ^ k)) = 2 * (n * one) + d * 2 ^ k ∨
      2 * (n * one) = 2 * (s * (d * 2 ^ k)) + d * 2 ^ k → s % 2 = 0) :
    IsNearest (n / d) (k * 2 ^ 52 + s) := by
  have hone : (0 : ℚ) < one := by exact_mod_cast one_pos
  have hdenominator : (0 : ℚ) < d * one := mul_pos (by exact_mod_cast hd) hone
  have hdistance := abs_sub_value_eq n hd hs (hk.imp_right And.left)
  have hhalf := half_unit_eq k hd
  refine isNearest_of_gap (g := 2 ^ k / one) ?_ ?_ ?_ ?_
  · have hup' : (2 : ℚ) * (s * (d * 2 ^ k)) ≤ 2 * (n * one) + d * 2 ^ k := by exact_mod_cast hup
    have hdown' : (2 : ℚ) * (n * one) ≤ 2 * (s * (d * 2 ^ k)) + d * 2 ^ k := by exact_mod_cast hdown
    rw [hdistance, hhalf, div_le_div_iff_of_pos_right hdenominator, abs_le]
    constructor <;> linarith
  · intro other hother
    refine value_add_le hother ?_
    simp only [scale, Nat.pow_eq]
    omega
  · intro other hother
    rcases hk with rfl | ⟨hge, hfraction⟩
    · exact .inl (value_add_le hother (Nat.zero_le _))
    · rcases Nat.eq_or_lt_of_le hge with rfl | hgt
      · have hunits : units (k * 2 ^ 52 + 2 ^ 52) * d = 2 ^ 52 * (d * 2 ^ k) := by
          rw [units_of_significand hs (.inr le_rfl)]
          ring
        exact .inr (value_le_of_units_le hd (hunits.trans_le hfraction))
      · exact .inl (value_add_le hother (by simp only [scale, Nat.pow_eq]; omega))
  · intro hequal
    rw [hdistance, hhalf, div_left_inj' hdenominator.ne'] at hequal
    have heven : s % 2 = 0 := by
      apply htie
      rcases eq_or_eq_neg_of_abs_eq hequal with hmore | hless
      · right
        have : (2 : ℚ) * (n * one) = 2 * (s * (d * 2 ^ k)) + d * 2 ^ k := by linarith
        exact_mod_cast this
      · left
        have : (2 : ℚ) * (s * (d * 2 ^ k)) = 2 * (n * one) + d * 2 ^ k := by linarith
        exact_mod_cast this
    omega

/-- A fraction is rounded to the nearest code. -/
theorem isNearest_unbounded (n : Nat) (hd : 0 < d) : IsNearest (n / d) (unbounded n d) := by
  obtain ⟨hlt, hge⟩ := scale_bounds (n * one) hd
  simp only [unbounded]
  generalize (n * one / d).log2 - 52 = k at hlt hge ⊢
  have hpos : 0 < d * 2 ^ k := Nat.mul_pos hd (Nat.two_pow_pos k)
  obtain ⟨hup, hdown, htie⟩ := divideToEven_bounds (n * one) hpos
  exact isNearest_of_significand hd (divideToEven_le hlt)
    (hge.imp_right fun h => ⟨le_divideToEven hpos h, h⟩) hup hdown htie

/-- The least number that is out of range, halfway between the greatest finite value and that of the
code of infinity. -/
def overflow : ℚ :=
  2 ^ 1024 - 2 ^ 970

/-- As many units as a power of two has. -/
theorem two_pow_div_one (k : Nat) : (2 : ℚ) ^ (k + finestScale) / one = 2 ^ k := by
  have hone : (one : ℚ) = 2 ^ finestScale := by exact_mod_cast one_eq
  rw [hone, pow_add, mul_div_cancel_right₀ _ (pow_ne_zero _ (by decide))]

/-- The value of the code of infinity. -/
theorem value_infinity : value infinity = 2 ^ 1024 := by
  have hunits (k : Nat) : units (k * 2 ^ 52 + 2 ^ 52) = 2 ^ (52 + k) := by
    rw [units_of_significand (by decide) (.inr le_rfl), Nat.pow_add]
  rw [value, show infinity = 2046 * 2 ^ 52 + 2 ^ 52 from rfl, hunits, Nat.cast_pow, Nat.cast_ofNat]
  exact two_pow_div_one 1024

/-- The greatest finite value. -/
theorem value_before_infinity : value (infinity - 1) = 2 ^ 1024 - 2 ^ 971 := by
  have hscale : scale (infinity - 1) = 971 + finestScale := by decide
  have hunits : (units infinity : ℚ) = units (infinity - 1) + 2 ^ (971 + finestScale) := by
    rw [← hscale]
    exact_mod_cast units_succ (infinity - 1)
  have hvalue : value infinity = value (infinity - 1) + 2 ^ 971 := by
    rw [value, value, hunits, add_div, two_pow_div_one]
  rw [← value_infinity, hvalue, add_sub_cancel_right]

/-- The bound of the range lies in the middle. -/
theorem two_mul_overflow : 2 * overflow = value (infinity - 1) + value infinity := by
  rw [value_before_infinity, value_infinity, overflow, pow_succ (2 : ℚ) 970]
  -- with variables for the powers they are not evaluated
  generalize (2 : ℚ) ^ 1024 = first
  generalize (2 : ℚ) ^ 970 = half
  ring

/-- There are numbers within the range. -/
theorem overflow_pos : 0 < overflow := by
  have hmiddle := two_mul_overflow
  have hlast := value_nonneg (infinity - 1)
  have hinfinity : value (infinity - 1) < value infinity := value_strictMono (by decide)
  linarith

/-- The bound of the range is nearest to infinity. -/
theorem isNearest_overflow : IsNearest overflow infinity := by
  refine ⟨fun other => ?_, fun other hne hequal => by decide⟩
  have hmiddle := two_mul_overflow
  have hlast : value (infinity - 1) < value infinity := value_strictMono (by decide)
  rcases lt_trichotomy other infinity with hlt | rfl | hgt
  · have hother : value other ≤ value (infinity - 1) := value_strictMono.monotone (by omega)
    rw [abs_sub_le_abs_sub_iff (value_strictMono hlt)]
    linarith
  · exact le_rfl
  · have hother := value_strictMono hgt
    rw [abs_sub_le_abs_sub_iff' hother]
    linarith

/-- A number within the range is closer to the greatest finite value than to those out of range. -/
theorem closer_of_lt_overflow (hq : q < overflow) (h : infinity ≤ other) :
    |q - value (infinity - 1)| < |q - value other| := by
  have hvalue : value infinity ≤ value other := value_strictMono.monotone h
  have hlt : infinity - 1 < other := Nat.lt_of_lt_of_le (by decide) h
  have hmiddle := two_mul_overflow
  rw [← not_le, abs_sub_le_abs_sub_iff (value_strictMono hlt), not_le]
  linarith

/-- The nearest code is that of a finite value for the numbers within the range. -/
theorem IsNearest.lt_infinity_iff (h : IsNearest q code) : code < infinity ↔ q < overflow := by
  constructor
  · intro hcode
    by_contra hq
    exact absurd (isNearest_overflow.le_of_le h (not_lt.mp hq)) (Nat.not_le_of_lt hcode)
  · intro hq
    by_contra hcode
    exact absurd (h.closest _) (not_le_of_gt (closer_of_lt_overflow hq (Nat.le_of_not_lt hcode)))

/-- For a number within the range the finite values are enough to tell the nearest code. -/
theorem isNearest_of_finite (hq : q < overflow)
    (closest : ∀ other < infinity, |q - value code| ≤ |q - value other|)
    (even : ∀ other < infinity, other ≠ code → |q - value other| = |q - value code| →
      code % 2 = 0) : IsNearest q code := by
  have hbeyond (other : Nat) (h : infinity ≤ other) : |q - value code| < |q - value other| :=
    (closest _ (by decide)).trans_lt (closer_of_lt_overflow hq h)
  constructor
  · intro other
    rcases Nat.lt_or_ge other infinity with hlt | hge
    · exact closest other hlt
    · exact (hbeyond other hge).le
  · intro other hne hequal
    rcases Nat.lt_or_ge other infinity with hlt | hge
    · exact even other hlt hne hequal
    · exact absurd hequal (hbeyond other hge).ne'

/-- The codes that are found end with that of infinity. -/
theorem nearest_eq_min (n d : Nat) : nearest n d = min infinity (unbounded n d) := by
  simp only [nearest, unbounded, Nat.pow_eq]

/-- No code after that of infinity is found. -/
theorem nearest_le_infinity (n d : Nat) : nearest n d ≤ infinity :=
  Nat.min_le_left ..

/-- The code of a finite value is found for the fractions that it is nearest to. -/
theorem nearest_eq_iff (hd : 0 < d) (hcode : code < infinity) :
    nearest n d = code ↔ IsNearest (n / d) code := by
  have hnearest := isNearest_unbounded n hd
  rw [nearest_eq_min]
  constructor
  · intro h
    obtain rfl : unbounded n d = code := by omega
    exact hnearest
  · intro h
    rw [hnearest.unique h]
    exact Nat.min_eq_right hcode.le

/-- Infinity is found for the fractions that are out of range. -/
theorem nearest_eq_infinity_iff (hd : 0 < d) :
    nearest n d = infinity ↔ overflow ≤ (n : ℚ) / d := by
  rw [nearest_eq_min, ← not_lt, ← (isNearest_unbounded n hd).lt_infinity_iff]
  omega

/-- A greater fraction has no lesser nearest code. -/
theorem nearest_le_nearest {n' d' : Nat} (hd : 0 < d) (hd' : 0 < d')
    (h : (n : ℚ) / d ≤ n' / d') : nearest n d ≤ nearest n' d' := by
  have hle := (isNearest_unbounded n hd).le_of_le (isNearest_unbounded n' hd') h
  rw [nearest_eq_min, nearest_eq_min]
  omega

/-- A number of 53 bits or fewer, at any scale, is a whole number of units of a code. -/
theorem exists_units_eq (k : Nat) :
    ∀ s ≤ 2 ^ 53, ∃ code ≤ k * 2 ^ 52 + 2 ^ 53, units code = s * 2 ^ k := by
  induction k with
  | zero =>
    intro s hs
    refine ⟨s, by omega, ?_⟩
    simpa using units_of_significand hs (.inl rfl)
  | succ k ih =>
    intro s hs
    rcases Nat.lt_or_ge s (2 ^ 52) with hshort | hlong
    · have hnext : k * 2 ^ 52 + 2 ^ 53 ≤ (k + 1) * 2 ^ 52 + 2 ^ 53 := by omega
      obtain ⟨code, hcode, hunits⟩ := ih (2 * s) (by omega)
      refine ⟨code, hcode.trans hnext, ?_⟩
      rw [hunits, Nat.pow_succ]
      ring
    · exact ⟨(k + 1) * 2 ^ 52 + s, by omega, units_of_significand hs (.inr hlong)⟩

/-- The whole numbers up to `2 ^ 53` are values. -/
theorem exists_value_eq {m : Nat} (h : m ≤ 2 ^ 53) : ∃ code < infinity, value code = m := by
  obtain ⟨code, hcode, hunits⟩ := exists_units_eq finestScale m h
  have hone : (one : ℚ) ≠ 0 := by exact_mod_cast one_pos.ne'
  refine ⟨code, Nat.lt_of_le_of_lt hcode (by decide), ?_⟩
  rw [← one_eq] at hunits
  rw [value, hunits, Nat.cast_mul, mul_div_cancel_right₀ _ hone]

/-- A value has its own code nearest to it. -/
theorem isNearest_value (code : Nat) : IsNearest (value code) code := by
  refine ⟨fun other => by simp, fun other hne hequal => ?_⟩
  rw [sub_self, abs_zero, abs_eq_zero, sub_eq_zero] at hequal
  exact absurd (value_strictMono.injective hequal).symm hne

/-- Values from `2 ^ 53` on are whole numbers. -/
theorem exists_nat_of_le_value (h : (2 ^ 53 : Nat) ≤ value code) : ∃ m : Nat, value code = m := by
  have hone : (0 : ℚ) < one := by exact_mod_cast one_pos
  have hunits : 2 ^ 53 * one ≤ units code := by
    rw [value, le_div_iff₀ hone] at h
    exact_mod_cast h
  obtain ⟨hlt, -⟩ := significand_bounds code
  have hscale : finestScale ≤ scale code := by
    by_contra hscale
    have hpow : 2 ^ scale code ≤ one := by
      rw [one_eq]
      exact Nat.pow_le_pow_right (by decide) (by omega)
    have hsmall : units code < 2 ^ 53 * one := by
      rw [units, Nat.pow_eq]
      exact Nat.mul_lt_mul_of_lt_of_le hlt hpow one_pos
    exact Nat.not_lt_of_le hunits hsmall
  refine ⟨significand code * 2 ^ (scale code - finestScale), ?_⟩
  have hpow : 2 ^ scale code = 2 ^ (scale code - finestScale) * one := by
    rw [one_eq, ← Nat.pow_add, Nat.sub_add_cancel hscale]
  rw [value, div_eq_iff hone.ne', units, Nat.pow_eq, hpow, ← Nat.mul_assoc]
  exact Nat.cast_mul ..

/-- Only whole numbers have the nearest codes of whole numbers. -/
theorem exists_nat_of_isNearest {m : Nat} (h : IsNearest m code) : ∃ k : Nat, value code = k := by
  rcases Nat.le_total m (2 ^ 53) with hle | hge
  · obtain ⟨c, -, hvalue⟩ := exists_value_eq hle
    rw [h.unique (hvalue ▸ isNearest_value c)]
    exact ⟨m, hvalue⟩
  · obtain ⟨c, -, hvalue⟩ := exists_value_eq (le_refl (2 ^ 53))
    have hcodes : c ≤ code := by
      refine (isNearest_value c).le_of_le h ?_
      rw [hvalue]
      exact_mod_cast hge
    exact exists_nat_of_le_value (hvalue ▸ value_strictMono.monotone hcodes)

end Calculator.Magnitude
