import Sprig.Proofs.Numeric.ReadBack

/-!
# Whole Numbers

A Number that is neither infinite nor NaN has a value among the fractions, which its sign, exponent
and mantissa tell. Counted in units it is the value of its rank. So the integer that is found for a
Number is its value, and none is found for a Number that has another value or no value.
-/

namespace Sprig.Numeric

open Float.Model (Format UnpackedFloat)

/-- The value of a sign, an exponent and a mantissa. Infinity has none, and neither has NaN. -/
def unpackedValue? : UnpackedFloat → Option ℚ
  | .zero _ => some 0
  | .finite .positive mantissa exponent _ => some (mantissa * 2 ^ exponent)
  | .finite .negative mantissa exponent _ => some (-(mantissa * 2 ^ exponent))
  | .infinity _ | .notANumber => none

/-- The value of a Number. -/
def value? (x : Float) : Option ℚ := unpackedValue? x.toModel.unpack

/-- Just the Numbers that are neither infinite nor NaN have a value. -/
theorem isSome_value? (x : Float) : (value? x).isSome = x.isFinite := by
  change (unpackedValue? x.toModel.unpack).isSome = x.toModel.unpack.isFinite
  cases x.toModel.unpack with
  | finite sign => cases sign <;> rfl
  | _ => rfl

section Fields

variable (x : Float)

theorem toNat_unpackExponent :
    (@UnpackedFloat.unpackExponent Format.binary64 x.toBits.toBitVec).toNat =
      rank x / fractionCount := by
  change x.toBits.toNat >>> 52 % 2 ^ 11 = _
  rw [Nat.shiftRight_eq_div_pow]
  simp only [rank, signBit, fractionCount]
  omega

theorem toNat_unpackMantissa :
    (@UnpackedFloat.unpackMantissa Format.binary64 x.toBits.toBitVec).toNat =
      rank x % fractionCount := by
  change x.toBits.toNat >>> 0 % 2 ^ 52 = _
  rw [Nat.shiftRight_zero]
  simp only [rank, signBit, fractionCount]
  omega

theorem ofBitVec_unpackSign :
    UnpackedFloat.Sign.ofBitVec (@UnpackedFloat.unpackSign Format.binary64 x.toBits.toBitVec) =
      if isNegative x then .negative else .positive := by
  have hbits : x.toBits.toNat < 2 * signBit := x.toBits.toNat_lt
  have hnegative : isNegative x = true ↔ signBit ≤ x.toBits.toNat := decide_eq_true_iff
  have hsign : @UnpackedFloat.unpackSign Format.binary64 x.toBits.toBitVec = 0#1 ↔
      ¬isNegative x = true := by
    rw [UnpackedFloat.unpackSign_def, ← BitVec.toNat_inj, hnegative]
    change x.toBits.toNat >>> 63 % 2 ^ 1 = 0 ↔ _
    rw [Nat.shiftRight_eq_div_pow]
    norm_num [signBit] at hbits ⊢
    omega
  rw [UnpackedFloat.Sign.ofBitVec]
  by_cases hnegative : isNegative x = true
  · rw [if_neg (mt hsign.mp (not_not.mpr hnegative)), if_pos hnegative]
  · rw [if_pos (hsign.mpr hnegative), if_neg hnegative]

end Fields

section Values

variable {x : Float}

theorem exponent_eq_ones_iff :
    @UnpackedFloat.unpackExponent Format.binary64 x.toBits.toBitVec = -1#11 ↔
      infiniteRank ≤ rank x := by
  have hones : (-1#11).toNat = 2047 := by decide
  have hrank := rank_lt x
  rw [← BitVec.toNat_inj, toNat_unpackExponent, hones]
  simp only [infiniteRank, fractionCount, signBit] at *
  omega

theorem exponent_eq_zero_iff :
    @UnpackedFloat.unpackExponent Format.binary64 x.toBits.toBitVec = 0#11 ↔
      rank x < fractionCount := by
  rw [← BitVec.toNat_inj, toNat_unpackExponent, BitVec.toNat_ofNat]
  simp only [fractionCount]
  omega

theorem value?_eq (x : Float) :
    value? x = unpackedValue? (UnpackedFloat.unpack Format.binary64 x.toBits.toBitVec) := rfl

theorem value?_of_infiniteRank_le (h : infiniteRank ≤ rank x) : value? x = none := by
  rw [value?_eq, UnpackedFloat.unpack]
  dsimp only
  rw [if_pos (exponent_eq_ones_iff.mpr h)]
  split <;> rfl

theorem unpackedValue?_finite {sign : UnpackedFloat.Sign} {negative : Bool}
    (hsign : sign = if negative then .negative else .positive) (mantissa : Nat) (exponent : Int)
    (h : 0 < mantissa) :
    unpackedValue? (.finite sign mantissa exponent h) =
      some (if negative then -(mantissa * 2 ^ exponent : ℚ) else mantissa * 2 ^ exponent) := by
  subst hsign
  cases negative <;> rfl

theorem units_div_unitsPerOne (n : Nat) : (units n / unitsPerOne : ℚ) =
    significand n * 2 ^ ((binaryExponent n : Int) - unitPlaces) := by
  rw [units, unitsPerOne_eq, Nat.pow_eq, Nat.pow_eq, zpow_sub₀ two_ne_zero, Nat.cast_mul,
    Nat.cast_pow, Nat.cast_pow, zpow_natCast, zpow_natCast, mul_div_assoc, Nat.cast_ofNat]

theorem value?_of_lt (h : rank x < infiniteRank) :
    value? x = some (if isNegative x then -(units (rank x) / unitsPerOne : ℚ)
      else units (rank x) / unitsPerOne) := by
  have hbias : ((Format.binary64.exponentBias : Nat) : Int) = 1023 := rfl
  rw [value?_eq, UnpackedFloat.unpack, units_div_unitsPerOne, significand, binaryExponent]
  dsimp only
  rw [if_neg (mt exponent_eq_ones_iff.mp (Nat.not_le.mpr h))]
  by_cases hsmall : rank x < fractionCount
  · have hmantissa := toNat_unpackMantissa x
    rw [Nat.mod_eq_of_lt hsmall] at hmantissa
    rw [if_pos (exponent_eq_zero_iff.mpr hsmall), if_pos hsmall]
    split
    · next hnone =>
      have hrank : rank x = 0 := hmantissa.symm.trans (congrArg BitVec.toNat hnone)
      simp [unpackedValue?, hrank]
    · rw [unpackedValue?_finite (ofBitVec_unpackSign x), toNat_unpackExponent,
        Nat.div_eq_of_lt hsmall, hmantissa, hbias]
      rfl
  · have hmantissa : (1#1 ++ @UnpackedFloat.unpackMantissa Format.binary64
        x.toBits.toBitVec).toNat = fractionCount + rank x % fractionCount := by
      rw [BitVec.toNat_append, ← toNat_unpackMantissa, ← Nat.shiftLeft_add_eq_or_of_lt
        (BitVec.isLt _)]
      rfl
    have hexponent : ((rank x / fractionCount : Nat) : Int) - (1023 + (52 : Nat)) =
        ((rank x / fractionCount - 1 : Nat) : Int) - unitPlaces := by
      have hfield : 0 < rank x / fractionCount := Nat.div_pos (Nat.not_lt.mp hsmall) (by decide)
      simp only [unitPlaces]
      omega
    rw [if_neg (mt exponent_eq_zero_iff.mp hsmall), if_neg hsmall,
      unpackedValue?_finite (ofBitVec_unpackSign x), toNat_unpackExponent, hbias, hmantissa,
      hexponent]

/-- A quotient is an integer when nothing remains. -/
theorem div_eq_intCast_iff {n one : Nat} (hone : (one : ℚ) ≠ 0) (k : Int) :
    (n / one : ℚ) = k ↔ n % one = 0 ∧ (n / one : Int) = k := by
  constructor
  · intro h
    have hproduct : (n : Int) = k * one := by exact_mod_cast (div_eq_iff hone).mp h
    have hdvd : one ∣ n := Int.natCast_dvd_natCast.mp ⟨k, by rw [hproduct, mul_comm]⟩
    refine ⟨Nat.mod_eq_zero_of_dvd hdvd, ?_⟩
    rw [hproduct, Int.mul_ediv_cancel _ (by exact_mod_cast hone)]
  · rintro ⟨hnone, rfl⟩
    rw [← Int.natCast_div, Int.cast_natCast, Nat.cast_div (Nat.dvd_of_mod_eq_zero hnone) hone]

/-- The integer that is found for a Number is its value. -/
theorem wholeNumber?_eq_some_iff {k : Int} : wholeNumber? x = some k ↔ value? x = some (k : ℚ) := by
  by_cases hfinite : rank x < infiniteRank
  · have hpos : 0 < unitsPerOne := by decide +kernel
    have hone : (unitsPerOne : ℚ) ≠ 0 := Nat.cast_ne_zero.mpr hpos.ne'
    have hquotient (k : Int) := div_eq_intCast_iff (n := units (rank x)) hone k
    have hneg : -(units (rank x) / unitsPerOne : ℚ) = k ↔
        (units (rank x) / unitsPerOne : ℚ) = (-k : Int) := by
      rw [Int.cast_neg, neg_eq_iff_eq_neg]
    rw [value?_of_lt hfinite, wholeNumber?]
    simp only [hfinite, true_and, Option.ite_none_right_eq_some, Option.some.injEq]
    cases isNegative x with
    | false => exact (hquotient k).symm
    | true => simp only [if_true, hneg, hquotient, neg_eq_iff_eq_neg]
  · simp [wholeNumber?, hfinite, value?_of_infiniteRank_le (Nat.not_lt.mp hfinite)]

example : value? (-0.0) = some 0 :=
  (wholeNumber?_eq_some_iff (k := 0)).mp (by decide +kernel)

end Values

end Sprig.Numeric
