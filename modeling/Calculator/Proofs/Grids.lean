import Calculator.Proofs.Nearest
import Mathlib.Algebra.Order.Field.Power

/-!
# Decimals on grids

The digits of a finite value are looked for on grids, the multiples of the powers of ten, beginning
with the coarsest that has a multiple close enough to be tried. What lies between the exact value
and a number with the same nearest code has this nearest code too. So a grid has a multiple that
reads back only if one of the two neighbours of the exact value does, and of those that do one
neighbour is the nearest.

A decimal with few digits is a multiple of a high power of ten, or it is so small that a power of
ten lies between it and the exact value. In both cases it has no fewer digits than the number on the
coarsest grid, and with as many digits it is no closer to the exact value.
-/

namespace Calculator

/-- The number that a decimal is. -/
def Decimal.number (d : Decimal) : ℚ :=
  d.digits / 10 ^ d.places

/-- A decimal is not below zero. -/
theorem Decimal.number_nonneg (d : Decimal) : 0 ≤ d.number := by
  unfold number
  positivity

/-- A number has no more than some significant digits. -/
def HasDigits (r : ℚ) (n : Nat) : Prop :=
  ∃ m e : ℤ, r = m * 10 ^ e ∧ |m| < 10 ^ n

namespace Magnitude

variable {code i j m n : Nat} {r : ℚ}

/-- The value of a code is its exact value over a power of ten. -/
theorem value_eq (code : Nat) : value code = exact code / 10 ^ places code := by
  have hone : (one : ℚ) ≠ 0 := by exact_mod_cast one_pos.ne'
  have hpow : (10 : ℚ) ^ places code ≠ 0 := pow_ne_zero _ (by decide)
  rw [value, div_eq_div_iff hone hpow]
  exact_mod_cast (exact_mul_one code).symm

/-- A multiple of the last place of the exact value reads back if its nearest code is the code. -/
theorem readsBack_iff (hcode : code < infinity) :
    readsBack code n = true ↔ IsNearest (n / 10 ^ places code) code := by
  have hpos : 0 < 10 ^ places code := Nat.pow_pos (by decide)
  have h := nearest_eq_iff (n := n) hpos hcode
  rw [Nat.cast_pow, Nat.cast_ofNat] at h
  simpa only [readsBack, Decimal.nearest, beq_iff_eq, Nat.pow_eq] using h

/-- A fraction between two numbers with one nearest code has this nearest code. -/
theorem IsNearest.between {a b : ℚ} {d : Nat} (hd : 0 < d) (ha : IsNearest a code)
    (hb : IsNearest b code) (hle : a ≤ n / d) (hge : n / d ≤ b) : IsNearest (n / d) code := by
  have hn := isNearest_unbounded n hd
  rwa [le_antisymm (hn.le_of_le hb hge) (ha.le_of_le hn hle)] at hn

/-- What lies between two numbers that round to a value reads back. -/
theorem readsBack_of_between {a b : ℚ} (hcode : code < infinity) (ha : IsNearest a code)
    (hb : IsNearest b code) (hle : a ≤ n / 10 ^ places code) (hge : n / 10 ^ places code ≤ b) :
    readsBack code n = true := by
  have hbetween := ha.between (n := n) (d := 10 ^ places code) (Nat.pow_pos (by decide)) hb
  push_cast at hbetween
  exact (readsBack_iff hcode).mpr (hbetween hle hge)

section Between

variable (hcode : code < infinity) (hr : IsNearest r code)
include hcode hr

/-- What lies between the exact value and a lesser number that reads back reads back. -/
theorem readsBack_of_le (h : r * 10 ^ places code ≤ n) (hn : n ≤ exact code) :
    readsBack code n = true := by
  have hpos : (0 : ℚ) < 10 ^ places code := by positivity
  refine readsBack_of_between hcode hr (isNearest_value code) ((le_div_iff₀ hpos).mpr h) ?_
  rw [value_eq, div_le_div_iff_of_pos_right hpos]
  exact_mod_cast hn

/-- What lies between the exact value and a greater number that reads back reads back. -/
theorem readsBack_of_ge (h : n ≤ r * 10 ^ places code) (hn : exact code ≤ n) :
    readsBack code n = true := by
  have hpos : (0 : ℚ) < 10 ^ places code := by positivity
  refine readsBack_of_between hcode (isNearest_value code) hr ?_ ((div_le_iff₀ hpos).mpr h)
  rw [value_eq, div_le_div_iff_of_pos_right hpos]
  exact_mod_cast hn

end Between

/-- A multiple of a power of ten that reads back and that is nearest to the exact value among those
that do. It is at most one step of the grid above the exact value. -/
structure OnGrid (code j n : Nat) : Prop where
  dvd : 10 ^ j ∣ n
  reads : readsBack code n = true
  closest : ∀ m, 10 ^ j ∣ m → readsBack code m = true →
    |(n : ℚ) - exact code| ≤ |(m : ℚ) - exact code|
  le : n ≤ exact code + 10 ^ j

/-- A grid has a multiple that reads back only if a neighbour of the exact value reads back, and
then one that is closer to the exact value. -/
theorem exists_neighbour (hcode : code < infinity) (hdvd : 10 ^ j ∣ m)
    (h : readsBack code m = true) :
    m ≤ exact code / 10 ^ j * 10 ^ j ∧ readsBack code (exact code / 10 ^ j * 10 ^ j) = true ∨
    exact code / 10 ^ j * 10 ^ j + 10 ^ j ≤ m ∧
      readsBack code (exact code / 10 ^ j * 10 ^ j + 10 ^ j) = true := by
  have hpos : 0 < 10 ^ j := Nat.pow_pos (by decide)
  have hpow : (0 : ℚ) < 10 ^ places code := by positivity
  have hr := (readsBack_iff hcode).mp h
  have hm : (m : ℚ) / 10 ^ places code * 10 ^ places code = m := div_mul_cancel₀ _ hpow.ne'
  obtain ⟨k, rfl⟩ := hdvd
  have hquotient := Nat.div_add_mod (exact code) (10 ^ j)
  have hremainder := Nat.mod_lt (exact code) hpos
  rw [Nat.mul_comm] at hquotient
  rcases Nat.lt_or_ge (exact code / 10 ^ j) k with hlt | hge
  · have hle : exact code / 10 ^ j * 10 ^ j + 10 ^ j ≤ 10 ^ j * k := by
      rw [← Nat.succ_mul, Nat.mul_comm]
      exact Nat.mul_le_mul_left _ hlt
    refine .inr ⟨hle, readsBack_of_ge hcode hr ?_ (by omega)⟩
    rw [hm]
    exact_mod_cast hle
  · have hle : 10 ^ j * k ≤ exact code / 10 ^ j * 10 ^ j := by
      rw [Nat.mul_comm]
      exact Nat.mul_le_mul_right _ hge
    refine .inl ⟨hle, readsBack_of_le hcode hr ?_ (by omega)⟩
    rw [hm]
    exact_mod_cast hle

/-- On a grid where no neighbour is found nothing reads back. -/
theorem readsBack_of_onGrid?_eq_none (hcode : code < infinity) (h : onGrid? code j = none)
    (hdvd : 10 ^ j ∣ m) : readsBack code m = false := by
  rw [← Bool.not_eq_true]
  intro hm
  have hneighbour := exists_neighbour hcode hdvd hm
  simp only [onGrid?, Nat.pow_eq] at h
  generalize exact code / 10 ^ j * 10 ^ j = below at h hneighbour
  rcases hneighbour with ⟨-, hbelow⟩ | ⟨-, habove⟩
  · simp only [hbelow, if_true] at h
    split at h <;> simp at h
  · by_cases hbelow : readsBack code below = true
    · simp only [hbelow, if_true] at h
      split at h <;> simp at h
    · simp [habove, hbelow] at h

/-- Natural numbers are compared by their distances. -/
theorem abs_sub_le_abs_sub_of_le {a b c : Nat} (h : a - c + (c - a) ≤ b - c + (c - b)) :
    |(a : ℚ) - c| ≤ |(b : ℚ) - c| := by
  have hint : |(a : ℤ) - c| ≤ |(b : ℤ) - c| := by
    rw [Int.abs_eq_natAbs, Int.abs_eq_natAbs]
    omega
  exact_mod_cast hint

/-- A neighbour that is found is nearest to the exact value on its grid. -/
theorem onGrid_of_onGrid?_eq_some (hcode : code < infinity) (h : onGrid? code j = some n) :
    OnGrid code j n := by
  have hread := readsBack_onGrid? h
  have hbelow : exact code / 10 ^ j * 10 ^ j ≤ exact code := Nat.div_mul_le_self _ _
  have habove : exact code < exact code / 10 ^ j * 10 ^ j + 10 ^ j :=
    Nat.lt_div_mul_add (Nat.pow_pos (by decide))
  have hneighbours (m : Nat) := exists_neighbour (j := j) (m := m) hcode
  have hdvd : 10 ^ j ∣ exact code / 10 ^ j * 10 ^ j := Nat.dvd_mul_left _ _
  simp only [onGrid?, Nat.pow_eq] at h
  generalize exact code / 10 ^ j * 10 ^ j = below at *
  split at h
  · rename_i htaken
    obtain rfl := Option.some.inj h
    simp only [Bool.and_eq_true, Bool.or_eq_true, decide_eq_true_eq, Bool.not_eq_true'] at htaken
    refine ⟨(Nat.dvd_add_right hdvd).mpr (Nat.dvd_refl _), hread, fun m hm hreads => ?_, by omega⟩
    apply abs_sub_le_abs_sub_of_le
    rcases hneighbours m hm hreads with ⟨hle, hreadsBelow⟩ | ⟨hge, -⟩
    · rcases htaken.2 with hcloser | hnot
      · omega
      · simp [hreadsBelow] at hnot
    · omega
  · rename_i htaken
    split at h
    · obtain rfl := Option.some.inj h
      simp only [Bool.and_eq_true, Bool.or_eq_true, decide_eq_true_eq, Bool.not_eq_true'] at htaken
      refine ⟨hdvd, hread, fun m hm hreads => ?_, by omega⟩
      apply abs_sub_le_abs_sub_of_le
      rcases hneighbours m hm hreads with ⟨hle, -⟩ | ⟨hge, hreadsAbove⟩
      · omega
      · have hcloser : ¬ below + 10 ^ j - exact code ≤ exact code - below :=
          fun hle => htaken ⟨hreadsAbove, .inl hle⟩
        omega
    · simp at h

/-- The search ends on the coarsest of the grids on which something reads back. -/
theorem exists_onGrid (hcode : code < infinity) (j : Nat) :
    ∃ i ≤ j, OnGrid code i (onCoarsestGrid code j) ∧
      ∀ k, i < k → k ≤ j → ∀ m, 10 ^ k ∣ m → readsBack code m = false := by
  induction j with
  | zero =>
    refine ⟨0, le_rfl, ⟨by simp, readsBack_exact hcode, fun m _ _ => ?_, ?_⟩, by omega⟩
    · simp [onCoarsestGrid]
    · simp [onCoarsestGrid]
  | succ j ih =>
    rw [onCoarsestGrid]
    cases hgrid : onGrid? code (j + 1) with
    | some n =>
      exact ⟨j + 1, le_rfl, onGrid_of_onGrid?_eq_some hcode hgrid, by omega⟩
    | none =>
      obtain ⟨i, hi, hfound, hcoarser⟩ := ih
      refine ⟨i, by omega, hfound, fun k hik hk m hm => ?_⟩
      rcases Nat.lt_or_eq_of_le hk with hlt | rfl
      · exact hcoarser k hik (by omega) m hm
      · exact readsBack_of_onGrid?_eq_none hcode hgrid hm

/-- A positive number lies between the powers of ten that its digits tell. -/
theorem toDigits_bounds (h : 0 < n) :
    10 ^ ((Nat.toDigits 10 n).length - 1) ≤ n ∧ n < 10 ^ (Nat.toDigits 10 n).length := by
  have hlength : 0 < (Nat.toDigits 10 n).length := Nat.length_toDigits_pos
  refine ⟨?_, (Nat.length_toDigits_le_iff (by decide) hlength).mp le_rfl⟩
  generalize hl : (Nat.toDigits 10 n).length = l at hlength ⊢
  rcases Nat.eq_or_lt_of_le hlength with rfl | hlt
  · exact h
  · by_contra hn
    have hle := (Nat.length_toDigits_le_iff (b := 10) (n := n) (by decide)
      (Nat.sub_pos_of_lt hlt)).mpr (Nat.lt_of_not_le hn)
    omega

/-- The exact value of a code other than zero is not zero. -/
theorem exact_pos (h : 0 < code) : 0 < exact code := by
  have hvalue := value_strictMono h
  rw [value_zero, value_eq] at hvalue
  refine Nat.pos_of_ne_zero fun hzero => ?_
  simp [hzero] at hvalue

/-- A positive number with few significant digits is a natural number with few digits times a power
of ten. -/
theorem exists_nat_of_hasDigits (h : HasDigits r n) (hr : 0 < r) :
    ∃ (m : Nat) (e : ℤ), r = m * 10 ^ e ∧ 0 < m ∧ m < 10 ^ n := by
  obtain ⟨m, e, rfl, hm⟩ := h
  have hpow : (0 : ℚ) < 10 ^ e := by positivity
  have hpos : 0 < m := by exact_mod_cast (pos_iff_pos_of_mul_pos hr).mpr hpow
  obtain ⟨k, rfl⟩ := Int.eq_ofNat_of_zero_le hpos.le
  refine ⟨k, e, by simp, by exact_mod_cast hpos, ?_⟩
  rw [abs_of_pos hpos] at hm
  exact_mod_cast hm

/-- The number that is found has no more digits than the grid leaves to the exact value. -/
theorem OnGrid.hasDigits {l : Nat} (h : OnGrid code j n) (hj : j < l) (hl : exact code < 10 ^ l) :
    HasDigits (n / 10 ^ places code) (l - j) := by
  obtain ⟨k, rfl⟩ := h.dvd
  have hpow : (10 : ℚ) ≠ 0 := by decide
  have hsplit : 10 ^ l = 10 ^ j * 10 ^ (l - j) := by
    rw [← Nat.pow_add, Nat.add_sub_cancel' hj.le]
  have hk : k ≤ 10 ^ (l - j) := by
    have hle := h.le
    have hlt : 10 ^ j * k < 10 ^ j * (10 ^ (l - j) + 1) := by
      rw [Nat.mul_add, ← hsplit]
      omega
    exact Nat.lt_succ_iff.mp (Nat.lt_of_mul_lt_mul_left hlt)
  rcases Nat.lt_or_eq_of_le hk with hlt | rfl
  · refine ⟨k, j - places code, ?_, ?_⟩
    · rw [zpow_sub₀ hpow, zpow_natCast, zpow_natCast]
      push_cast
      ring
    · rw [abs_of_nonneg (by positivity)]
      exact_mod_cast hlt
  · refine ⟨1, l - places code, ?_, ?_⟩
    · rw [← hsplit, zpow_sub₀ hpow, zpow_natCast, zpow_natCast]
      push_cast
      ring
    · rw [abs_one]
      exact one_lt_pow₀ (by decide) (by omega)

section Candidate

variable {l : Nat} {e : ℤ} (hcode : code < infinity) (hr : IsNearest r code)
  (hscaled : r * 10 ^ places code = m * 10 ^ e)
include hcode hr

/-- A number that reads back, as a multiple of the last place of the exact value. -/
theorem readsBack_of_eq (h : (n : ℚ) = r * 10 ^ places code) : readsBack code n = true := by
  have hpow : (10 : ℚ) ^ places code ≠ 0 := pow_ne_zero _ (by decide)
  rw [readsBack_iff hcode, h, mul_div_cancel_right₀ _ hpow]
  exact hr

include hscaled

/-- A number on a grid is a multiple of its step. -/
theorem exists_multiple (he : (j : ℤ) ≤ e) :
    ∃ c : Nat, 10 ^ j ∣ c ∧ (c : ℚ) = r * 10 ^ places code ∧ readsBack code c = true := by
  obtain ⟨k, rfl⟩ := Int.eq_ofNat_of_zero_le ((Int.natCast_nonneg j).trans he)
  have hc : ((m * 10 ^ k : Nat) : ℚ) = r * 10 ^ places code := by
    rw [hscaled]
    push_cast
    rfl
  have hdvd : 10 ^ j ∣ m * 10 ^ k := (Nat.pow_dvd_pow 10 (by omega)).trans (Nat.dvd_mul_left _ _)
  exact ⟨_, hdvd, hc, readsBack_of_eq hcode hr hc⟩

/-- No number on a coarser grid reads back, unless there are only coarser grids than those that have
been searched. -/
theorem le_or_eq_last
    (hcoarser : ∀ k, j < k → k ≤ l → ∀ m, 10 ^ k ∣ m → readsBack code m = false) (hj : j ≤ l) :
    e ≤ j ∨ j = l := by
  by_contra hnot
  obtain ⟨hlt, hne⟩ := not_or.mp hnot
  obtain ⟨c, hdvd, -, hreads⟩ := exists_multiple (j := j + 1) hcode hr hscaled (by omega)
  simp [hcoarser (j + 1) (by omega) (by omega) c hdvd] at hreads

/-- A power of ten between a number that reads back and the exact value reads back. -/
theorem readsBack_pow (hm : m < 10 ^ n) (hne : n + e ≤ l) (hl : 10 ^ l ≤ exact code) :
    r * 10 ^ places code ≤ 10 ^ l ∧ readsBack code (10 ^ l) = true := by
  have hten : (1 : ℚ) ≤ 10 := by decide
  have hle : r * 10 ^ places code ≤ 10 ^ l := by
    have hm' : (m : ℚ) ≤ 10 ^ n := by exact_mod_cast hm.le
    calc r * 10 ^ places code = m * 10 ^ e := hscaled
      _ ≤ 10 ^ n * 10 ^ e := mul_le_mul_of_nonneg_right hm' (by positivity)
      _ = 10 ^ (n + e) := by rw [zpow_add₀ (by decide), zpow_natCast]
      _ ≤ 10 ^ (l : ℤ) := zpow_le_zpow_right₀ hten hne
      _ = 10 ^ l := zpow_natCast ..
  exact ⟨hle, readsBack_of_le hcode hr (by exact_mod_cast hle) hl⟩

/-- A number that reads back has no fewer digits than the coarsest grid leaves to the exact value,
and with as many digits it is no closer to the exact value than the number that is found. -/
theorem OnGrid.minimal {found : Nat} (hgrid : OnGrid code j found) (hj : j ≤ l)
    (hcoarser : ∀ k, j < k → k ≤ l → ∀ m, 10 ^ k ∣ m → readsBack code m = false)
    (hl : 10 ^ l ≤ exact code) (hpos : 0 < m) (hm : m < 10 ^ n) :
    l + 1 - j ≤ n ∧ (n ≤ l + 1 - j →
      |(found : ℚ) - exact code| ≤ |r * 10 ^ places code - exact code|) := by
  have hsmall := readsBack_pow (l := l) hcode hr hscaled hm
  have hone : n ≠ 0 := by
    rintro rfl
    omega
  constructor
  · by_cases hlast : j = l
    · omega
    · have he := (le_or_eq_last hcode hr hscaled hcoarser hj).resolve_right hlast
      by_contra hn
      obtain ⟨-, hreads⟩ := hsmall (by omega) hl
      simp [hcoarser l (by omega) le_rfl _ (Nat.dvd_refl _)] at hreads
  · intro hn
    rcases le_or_gt (j : ℤ) e with hge | hlt
    · obtain ⟨c, hdvd, hc, hreads⟩ := exists_multiple hcode hr hscaled hge
      rw [← hc]
      exact hgrid.closest c hdvd hreads
    · obtain ⟨hle, hreads⟩ := hsmall (by omega) hl
      have hclosest := hgrid.closest _ (Nat.pow_dvd_pow 10 hj) hreads
      have hl' : (10 : ℚ) ^ l ≤ exact code := by exact_mod_cast hl
      rw [abs_of_nonpos (by linarith : r * 10 ^ places code - exact code ≤ 0)]
      rw [Nat.cast_pow, Nat.cast_ofNat, abs_of_nonpos (by linarith : (10 : ℚ) ^ l - exact code ≤ 0)]
        at hclosest
      linarith

end Candidate

/-- The nearest code of a number is zero only if that of zero is. -/
theorem IsNearest.ne_zero (h : IsNearest r code) (hpos : 0 < code) : r ≠ 0 := by
  rintro rfl
  have hzero := isNearest_value 0
  rw [value_zero] at hzero
  exact hpos.ne' (h.unique hzero)

/-- Distances from a value are those of multiples of its last place. -/
theorem abs_sub_value (r : ℚ) (code : Nat) :
    |r - value code| = |r * 10 ^ places code - exact code| / 10 ^ places code := by
  have hpow : (0 : ℚ) < 10 ^ places code := by positivity
  rw [value_eq, eq_div_iff hpow.ne', ← abs_of_pos hpow, ← abs_mul, abs_of_pos hpow, sub_mul,
    div_mul_cancel₀ _ hpow.ne']

/-- The shortest decimal of a code has the code as its nearest code. -/
theorem isNearest_shortest (hcode : code < infinity) : IsNearest (shortest code).number code :=
  (readsBack_iff hcode).mp (readsBack_onCoarsestGrid hcode _)

/-- The shortest decimal is found on the coarsest grid on which something reads back, among those
that are not coarser than the leading digit of the exact value. -/
theorem exists_onGrid_shortest (hpos : 0 < code) (hcode : code < infinity) :
    ∃ j l, j ≤ l ∧ 10 ^ l ≤ exact code ∧ exact code < 10 ^ (l + 1) ∧
      OnGrid code j (shortest code).digits ∧
      ∀ k, j < k → k ≤ l → ∀ m, 10 ^ k ∣ m → readsBack code m = false := by
  obtain ⟨hlow, hhigh⟩ := toDigits_bounds (exact_pos hpos)
  have hlength : 0 < (Nat.toDigits 10 (exact code)).length := Nat.length_toDigits_pos
  obtain ⟨j, hj, hgrid⟩ := exists_onGrid hcode ((Nat.toDigits 10 (exact code)).length - 1)
  refine ⟨j, _, hj, hlow, ?_, hgrid⟩
  rwa [Nat.sub_add_cancel hlength]

/-- The shortest decimal of a code has some number of significant digits, and all others with this
nearest code have as many or more. None with as many is closer to the value. -/
theorem exists_hasDigits_shortest (hpos : 0 < code) (hcode : code < infinity) :
    ∃ k, HasDigits (shortest code).number k ∧
      ∀ r n, 0 ≤ r → IsNearest r code → HasDigits r n →
        k ≤ n ∧ (n ≤ k → |(shortest code).number - value code| ≤ |r - value code|) := by
  obtain ⟨j, l, hj, hlow, hhigh, hgrid, hcoarser⟩ := exists_onGrid_shortest hpos hcode
  refine ⟨l + 1 - j, hgrid.hasDigits (by omega) hhigh, fun r n hr hnearest hdigits => ?_⟩
  obtain ⟨m, e, hm, hmpos, hmlt⟩ :=
    exists_nat_of_hasDigits hdigits (lt_of_le_of_ne hr (hnearest.ne_zero hpos).symm)
  have hscaled : r * 10 ^ places code = m * 10 ^ (e + places code) := by
    rw [hm, zpow_add₀ (by decide), zpow_natCast, mul_assoc]
  obtain ⟨hle, hclosest⟩ := hgrid.minimal hcode hnearest hscaled hj hcoarser hlow hmpos hmlt
  have hpow : (0 : ℚ) < 10 ^ places code := by positivity
  refine ⟨hle, fun hn => ?_⟩
  rw [abs_sub_value, abs_sub_value, div_le_div_iff_of_pos_right hpow, Decimal.number,
    show (shortest code).places = places code from rfl, div_mul_cancel₀ _ hpow.ne']
  exact hclosest hn

/-- The shortest decimal of a code is a whole number exactly if its value is. -/
theorem dvd_digits_shortest_iff (hpos : 0 < code) (hcode : code < infinity) :
    10 ^ places code ∣ (shortest code).digits ↔ ∃ k : Nat, value code = k := by
  have hpow : (10 : ℚ) ^ places code ≠ 0 := pow_ne_zero _ (by decide)
  obtain ⟨j, l, -, -, hhigh, hgrid, hcoarser⟩ := exists_onGrid_shortest hpos hcode
  constructor
  · rintro ⟨k, hk⟩
    have hnearest := isNearest_shortest hcode
    rw [Decimal.number, hk, show (shortest code).places = places code from rfl, Nat.cast_mul,
      Nat.cast_pow, Nat.cast_ofNat, mul_div_cancel_left₀ _ hpow] at hnearest
    exact exists_nat_of_isNearest hnearest
  · rintro ⟨k, hk⟩
    have hdvd : 10 ^ places code ∣ exact code := by
      rw [value_eq, div_eq_iff hpow] at hk
      exact ⟨k, by rw [Nat.mul_comm]; exact_mod_cast hk⟩
    have hplaces : places code < l + 1 :=
      (Nat.pow_lt_pow_iff_right (by decide)).mp
        (Nat.lt_of_le_of_lt (Nat.le_of_dvd (exact_pos hpos) hdvd) hhigh)
    have hle : places code ≤ j := by
      by_contra hlt
      have hreads := hcoarser _ (Nat.lt_of_not_le hlt) (by omega) _ hdvd
      rw [readsBack_exact hcode] at hreads
      contradiction
    exact (Nat.pow_dvd_pow 10 hle).trans hgrid.dvd

end Magnitude

end Calculator
