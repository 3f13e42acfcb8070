/-!
# The values of a Number

A Number is a binary64 value. The values that are neither negative nor NaN are counted upwards from
zero: rank `0` is zero, rank `1` the smallest positive value, and `infiniteRank` is infinity.
Every finite value is a whole number of *units*, the unit being the smallest positive value, so
questions of order, rounding and integrality become questions about natural numbers.

## Implementation notes

The rank of a value is its bit pattern without the sign bit. The pattern of a finite value holds
52 bits of fraction below an exponent field; the leading bit is left out unless the field is zero,
which is what `significand` restores.
-/

namespace Sprig.Numeric

/-- How many fractions there are under one exponent. -/
def fractionCount : Nat := 0x10000000000000

/-- The bit pattern of the sign. -/
def signBit : Nat := 0x8000000000000000

/-- The smallest positive value is one half to this power. -/
def unitPlaces : Nat := 1074

/-- One is this many units. -/
def unitsPerOne : Nat := Nat.pow 2 unitPlaces

/-- One in units is a power of two. -/
theorem unitsPerOne_eq : unitsPerOne = Nat.pow 2 unitPlaces := by
  delta unitsPerOne
  rfl

/-- The rank of infinity, above the rank of every finite value. -/
def infiniteRank : Nat := 2047 * fractionCount

/-- The rank of NaN. -/
def nanRank : Nat := infiniteRank + fractionCount / 2

/-- The rank of a value's magnitude; a NaN has a rank above `infiniteRank`. -/
def rank (x : Float) : Nat := x.toBits.toNat % signBit

/-- The sign bit of a value, which is set for `-0.0` too. -/
def isNegative (x : Float) : Bool := signBit ≤ x.toBits.toNat

/-- The value with a given sign and rank. -/
def ofRank (negative : Bool) (n : Nat) : Float :=
  Float.ofBits (UInt64.ofNat (if negative then signBit + n else n))

/-- The significand of the value of rank `n`, with its leading bit. -/
def significand (n : Nat) : Nat :=
  if n < fractionCount then n else fractionCount + n % fractionCount

/-- The power of two that scales the significand of rank `n` to units. -/
def binaryExponent (n : Nat) : Nat := n / fractionCount - 1

/-- The value of rank `n` in units. -/
def units (n : Nat) : Nat := significand n * Nat.pow 2 (binaryExponent n)

/-- Below the first full exponent a rank is its own number of units. -/
theorem units_of_lt {n : Nat} (h : n < fractionCount) : units n = n := by
  have he : binaryExponent n = 0 := by
    rw [binaryExponent, Nat.div_eq_of_lt h]
  rw [units, significand, if_pos h, he]
  exact Nat.mul_one n

/-- Zero is no unit at all. -/
theorem units_zero : units 0 = 0 := units_of_lt (by decide)

/-- A higher rank is a larger value. -/
theorem units_lt_succ (n : Nat) : units n < units (n + 1) := by
  have hpos : 0 < Nat.pow 2 (binaryExponent n) := Nat.two_pow_pos _
  by_cases hcarry : n % fractionCount + 1 < fractionCount
  · have he : binaryExponent (n + 1) = binaryExponent n := by
      simp only [binaryExponent, fractionCount] at *
      omega
    have hs : significand (n + 1) = significand n + 1 := by
      simp only [significand]
      split <;> split <;> simp only [fractionCount] at * <;> omega
    rw [units, units, he, hs]
    exact Nat.mul_lt_mul_of_pos_right (Nat.lt_succ_self _) hpos
  · have hs : significand (n + 1) = fractionCount := by
      simp only [significand]
      split <;> simp only [fractionCount] at * <;> omega
    by_cases hsmall : n < fractionCount
    · have he : binaryExponent (n + 1) = 0 := by
        simp only [binaryExponent, fractionCount] at *
        omega
      rw [units_of_lt hsmall, units, hs, he]
      exact Nat.lt_of_lt_of_eq hsmall (Nat.mul_one _).symm
    · have he : binaryExponent (n + 1) = binaryExponent n + 1 := by
        simp only [binaryExponent, fractionCount] at *
        omega
      have hn : significand n < 2 * fractionCount := by
        simp only [significand]
        split <;> simp only [fractionCount] at * <;> omega
      have hdouble : Nat.pow 2 (binaryExponent n + 1) = Nat.pow 2 (binaryExponent n) * 2 := rfl
      calc units n < 2 * fractionCount * Nat.pow 2 (binaryExponent n) :=
            Nat.mul_lt_mul_of_pos_right hn hpos
        _ = units (n + 1) := by
            rw [units, hs, he, hdouble]
            ac_rfl

/-- The rank is what the sign bit leaves. -/
theorem rank_lt (x : Float) : rank x < signBit := Nat.mod_lt _ (by decide)

/-- The integer a Number is equal to, if it is finite and has no fraction. -/
def wholeNumber? (x : Float) : Option Int :=
  let n := rank x
  if n < infiniteRank ∧ units n % unitsPerOne = 0 then
    let k : Int := units n / unitsPerOne
    some (if isNegative x then -k else k)
  else
    none

end Sprig.Numeric
