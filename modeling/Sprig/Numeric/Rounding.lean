import Sprig.Numeric.Binary

/-!
# Rounding to a Number

The Number nearest to a quotient of natural numbers, and from it the Number nearest to a decimal
and to an integer. A quotient half way between two Numbers goes to the one of even rank, and one
that is half a step or more above the largest finite Number goes to infinity.
-/

namespace Sprig.Numeric

/-- The integer nearest to `num / den`; a half goes to the even neighbour. -/
def divideToEven (num den : Nat) : Nat :=
  let quotient := num / den
  let twice := 2 * (num % den)
  if twice < den ∨ twice = den ∧ quotient % 2 = 0 then quotient else quotient + 1

/-- The rank of the Number nearest to `num / den`. The quotient in units keeps 53 significant bits;
a significand that rounds up to the next power of two carries into the exponent field by itself. -/
def nearestRank (num den : Nat) : Nat :=
  let scaled := num * unitsPerOne
  let exponent := (scaled / den).log2 - 52
  min (exponent * fractionCount + divideToEven scaled (den * Nat.pow 2 exponent)) infiniteRank

/-- The rank of the Number nearest to `digits * 10 ^ exponent`. An exponent far outside the range
of a Number is settled first, so that no power of ten grows without need. -/
def decimalRank (digits : Nat) (exponent : Int) : Nat :=
  if digits = 0 then 0
  else if 400 < exponent then infiniteRank
  else if exponent < -(400 + digits.log2 : Int) then 0
  else if 0 ≤ exponent then nearestRank (digits * Nat.pow 10 exponent.toNat) 1
  else nearestRank digits (Nat.pow 10 (-exponent).toNat)

/-- The Number nearest to `digits * 10 ^ exponent`, negated on request. -/
def ofDecimal (negative : Bool) (digits : Nat) (exponent : Int) : Float :=
  ofRank negative (decimalRank digits exponent)

/-- The Number nearest to an integer, unless only infinity is. -/
def ofInteger? (k : Int) : Option Float :=
  let n := nearestRank k.natAbs 1
  if n < infiniteRank then some (ofRank (k < 0) n) else none

/-- The Number that counts the elements of a collection. -/
def ofCount (n : Nat) : Float := ofRank false (nearestRank n 1)

/-- A quotient without remainder is not rounded. -/
theorem divideToEven_mul (q : Nat) {den : Nat} (h : 0 < den) : divideToEven (q * den) den = q := by
  simp [divideToEven, Nat.mul_div_cancel _ h, h]

end Sprig.Numeric
