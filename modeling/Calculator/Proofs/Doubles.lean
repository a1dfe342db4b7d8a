import Calculator.Magnitude
import Mathlib

/-!
# Doubles as signs and codes

A double is the double of its sign and its code, and changing the sign of a double changes nothing
else. All codes above that of infinity stand for the same double, the NaN, whose sign is not set.

Operations on doubles unpack the bits into three fields and pack the fields of the result again.
The fields are parts of a number in base two, so they are read off the code as numbers.
-/

namespace Calculator.Magnitude

open Float.Model.UnpackedFloat
open Float.Model.Format (binary64)

variable {code : Nat} {x : Float}

/-- The bits of a double with a sign and a code. -/
def bits (negative : Bool) (code : Nat) : BitVec binary64.numBits :=
  .ofNat 64 (if negative then 2 ^ 63 + code else code)

/-- The bits of a sign and a code are a number of 64 bits. -/
theorem toNat_bits (negative : Bool) (hcode : code < 2 ^ 63) :
    (bits negative code).toNat = if negative then 2 ^ 63 + code else code := by
  refine (BitVec.toNat_ofNat _ 64).trans (Nat.mod_eq_of_lt ?_)
  split <;> omega

/-- The exponent field is made of the high bits of the code, whatever the sign. -/
theorem toNat_unpackExponent (negative : Bool) (hcode : code < 2 ^ 63) :
    (unpackExponent (bits negative code)).toNat = code / 2 ^ 52 := by
  rw [unpackExponent_def, BitVec.extractLsb'_toNat, toNat_bits negative hcode,
    Nat.shiftRight_eq_div_pow]
  show _ / 2 ^ 52 % 2 ^ 11 = _
  split <;> omega

/-- The mantissa field is made of the low bits of the code, whatever the sign. -/
theorem toNat_unpackMantissa (negative : Bool) (hcode : code < 2 ^ 63) :
    (unpackMantissa (bits negative code)).toNat = code % 2 ^ 52 := by
  rw [unpackMantissa_def, BitVec.extractLsb'_toNat, toNat_bits negative hcode, Nat.shiftRight_zero]
  show _ % 2 ^ 52 = _
  split <;> omega

/-- The sign field is set for a negative double. -/
theorem toNat_unpackSign (negative : Bool) (hcode : code < 2 ^ 63) :
    (unpackSign (bits negative code)).toNat = if negative then 1 else 0 := by
  rw [unpackSign_def, BitVec.extractLsb'_toNat, toNat_bits negative hcode,
    Nat.shiftRight_eq_div_pow]
  show _ / 2 ^ 63 % 2 ^ 1 = _
  split <;> omega

/-- The sign field is unpacked to the sign. -/
theorem sign_unpackSign (negative : Bool) (hcode : code < 2 ^ 63) :
    Sign.ofBitVec (unpackSign (bits negative code)) =
      if negative then .negative else .positive := by
  have hbit : unpackSign (bits negative code) = if negative then 1#1 else 0#1 := by
    apply BitVec.eq_of_toNat_eq
    rw [toNat_unpackSign negative hcode]
    cases negative <;> rfl
  rw [hbit]
  cases negative <;> rfl

/-- Unpacked, the doubles of one code differ only in their sign. -/
theorem unpack_bits_true (hcode : code < 2 ^ 63) :
    unpack binary64 (bits true code) = (unpack binary64 (bits false code)).neg := by
  have hexponent : unpackExponent (bits true code) = unpackExponent (bits false code) := by
    apply BitVec.eq_of_toNat_eq
    rw [toNat_unpackExponent true hcode, toNat_unpackExponent false hcode]
  have hmantissa : unpackMantissa (bits true code) = unpackMantissa (bits false code) := by
    apply BitVec.eq_of_toNat_eq
    rw [toNat_unpackMantissa true hcode, toNat_unpackMantissa false hcode]
  have hset : Sign.ofBitVec (unpackSign (bits true code)) = .negative :=
    sign_unpackSign true hcode
  have hclear : Sign.ofBitVec (unpackSign (bits false code)) = .positive :=
    sign_unpackSign false hcode
  simp only [unpack, hexponent, hmantissa, hset, hclear]
  split_ifs <;> rfl

/-- Bits without a sign are not those of a number below zero. -/
theorem lt_unpack_bits_false (hcode : code < 2 ^ 63) :
    (unpack binary64 (bits false code)).lt (.zero .positive) = false := by
  have hclear : Sign.ofBitVec (unpackSign (bits false code)) = .positive :=
    sign_unpackSign false hcode
  simp only [unpack, hclear]
  split_ifs <;> rfl

/-- Bits with a sign are those of a number below zero, of the negative zero or of a NaN. -/
theorem lt_unpack_bits_true (hcode : code < 2 ^ 63) :
    (unpack binary64 (bits true code)).lt (.zero .positive) = true ∨
      unpack binary64 (bits true code) = .zero .negative ∨
      unpack binary64 (bits true code) = .notANumber := by
  have hset : Sign.ofBitVec (unpackSign (bits true code)) = .negative :=
    sign_unpackSign true hcode
  simp only [unpack, hset]
  split_ifs
  · exact .inl rfl
  · exact .inr (.inr rfl)
  · exact .inr (.inl rfl)
  · exact .inl rfl
  · exact .inl rfl

/-- The bits of a code after that of infinity are those of a NaN. -/
theorem isNaNBits_bits (negative : Bool) (hcode : code < 2 ^ 63) (h : infinity < code) :
    isNaNBits (bits negative code) = true := by
  simp only [infinity, Nat.pow_eq] at h
  simp only [isNaNBits, decide_eq_true_eq]
  constructor
  · apply BitVec.eq_of_toNat_eq
    rw [toNat_unpackExponent negative hcode]
    show _ = 2047
    omega
  · intro hzero
    have hmantissa := toNat_unpackMantissa negative hcode
    rw [hzero, BitVec.toNat_ofNat, Nat.zero_mod] at hmantissa
    omega

/-- The bits of a NaN are unpacked to it. -/
theorem unpack_of_isNaNBits {b : BitVec binary64.numBits} (h : isNaNBits b = true) :
    unpack binary64 b = .notANumber := by
  simp only [isNaNBits, decide_eq_true_eq] at h
  simp only [unpack, h, if_true, if_false]

/-- A double is unpacked as its bits are, even if they are those of another NaN. -/
theorem unpack_pack_unpack (b : BitVec binary64.numBits) :
    unpack binary64 (pack binary64 (unpack binary64 b)) = unpack binary64 b := by
  rw [pack_unpack b]
  split
  · rename_i hnan
    rw [unpack_packedNaN, unpack_of_isNaNBits hnan]
  · rfl

/-- The double of a sign and a code is that of its bits. -/
theorem toFloat_eq (negative : Bool) (code : Nat) :
    toFloat negative code = .ofModel (.pack (unpack binary64 (bits negative code))) :=
  rfl

/-- A change of sign leaves the code as it is. -/
theorem neg_toFloat (hcode : code < 2 ^ 63) : -toFloat false code = toFloat true code := by
  rw [toFloat_eq true, unpack_bits_true hcode, ← unpack_pack_unpack (bits false code)]
  rfl

/-- Every code after that of infinity stands for the one NaN. -/
theorem toFloat_of_gt (negative : Bool) (hcode : code < 2 ^ 63) (h : infinity < code) :
    toFloat negative code = toFloat false (infinity + 1) := by
  rw [toFloat_eq, toFloat_eq, unpack_of_isNaNBits (isNaNBits_bits negative hcode h),
    unpack_of_isNaNBits (isNaNBits_bits false (by decide) (Nat.lt_succ_self _))]

/-- Codes have 63 bits. -/
theorem ofFloat_lt (x : Float) : ofFloat x < 2 ^ 63 :=
  Nat.mod_lt _ (Nat.two_pow_pos 63)

/-- A double is the double of its sign and its code. -/
theorem toFloat_ofFloat (x : Float) : toFloat (isNegative x) (ofFloat x) = x := by
  have hlt : x.toBits.toNat < 2 ^ 64 := x.toBits.toNat_lt
  have hnumber : (if isNegative x then Nat.pow 2 63 + ofFloat x else ofFloat x) =
      x.toBits.toNat := by
    simp only [isNegative, ofFloat, beq_iff_eq, Nat.pow_eq]
    split <;> omega
  rw [toFloat, hnumber, UInt64.ofNat_toNat, Float.ofBits_toBits]

/-- The NaN has no sign. -/
theorem isNegative_of_gt (h : infinity < ofFloat x) : isNegative x = false := by
  rw [← toFloat_ofFloat x, toFloat_of_gt _ (ofFloat_lt x) h]
  decide +kernel

/-- A double is below zero when its bits, unpacked, are. -/
theorem lt_zero_iff (x : Float) :
    x < 0 ↔ (unpack binary64 (bits (isNegative x) (ofFloat x))).lt (.zero .positive) = true := by
  rw [← unpack_pack_unpack]
  conv_lhs => rw [← toFloat_ofFloat x]
  exact decide_eq_true_iff

/-- The sign of a double is set exactly for the numbers below zero and the negative zero. -/
theorem isNegative_iff (x : Float) : isNegative x = true ↔ x < 0 ∨ x = -0 := by
  have hlt := lt_zero_iff x
  have hx := toFloat_ofFloat x
  rw [toFloat_eq] at hx
  constructor
  · intro hnegative
    rw [hnegative] at hlt hx
    rcases lt_unpack_bits_true (ofFloat_lt x) with hbelow | hzero | hnan
    · exact .inl (hlt.mpr hbelow)
    · rw [hzero] at hx
      exact .inr hx.symm
    · rw [hnan] at hx
      rw [← hx] at hnegative
      exact absurd hnegative (by decide +kernel)
  · intro h
    rcases h with hbelow | rfl
    · by_contra hnegative
      rw [Bool.not_eq_true] at hnegative
      rw [hlt, hnegative, lt_unpack_bits_false (ofFloat_lt x)] at hbelow
      contradiction
    · decide +kernel

end Calculator.Magnitude
