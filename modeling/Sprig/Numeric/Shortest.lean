import Sprig.Numeric.Rounding

/-!
# The shortest decimal of a Number

Among the decimals that round to a given finite positive Number, `shortest` gives one with the
fewest significant digits, and of those the nearest to the Number; a tie goes to the even digit.

## Implementation notes

A decimal rounds to the Number of rank `n` when it lies between the midpoints to the two
neighbouring Numbers, and on a midpoint itself only if `n` is even. All comparisons are made
between natural numbers: a power of ten is kept as a quotient and both sides are cleared.
-/

namespace Sprig.Numeric

/-- The decimal `digits * 10 ^ exponent`. -/
structure Decimal where
  /-- The significant digits, read as one number. -/
  digits : Nat
  /-- The place of the last digit. -/
  exponent : Int
deriving DecidableEq, Repr

/-- Numerator of `10 ^ p`. -/
def tenNum (p : Int) : Nat := Nat.pow 10 p.toNat

/-- Denominator of `10 ^ p`. -/
def tenDen (p : Int) : Nat := Nat.pow 10 (-p).toNat

/-- Twice the midpoint below rank `n`, in units. -/
def lowerMidpoint (n : Nat) : Nat := units (n - 1) + units n

/-- Twice the midpoint above rank `n`, in units. -/
def upperMidpoint (n : Nat) : Nat := units n + units (n + 1)

/-- Whether a decimal rounds to the Number of rank `n`. -/
def roundsTo (n : Nat) (d : Decimal) : Bool :=
  let doubled := d.digits * tenNum d.exponent * (2 * unitsPerOne)
  let lower := lowerMidpoint n * tenDen d.exponent
  let upper := upperMidpoint n * tenDen d.exponent
  if n % 2 = 0 then lower ≤ doubled ∧ doubled ≤ upper else lower < doubled ∧ doubled < upper

/-- The number of whole steps of `10 ^ p` in the Number of rank `n`. -/
def stepsBelow (n : Nat) (p : Int) : Nat := units n * tenDen p / (unitsPerOne * tenNum p)

/-- Whether `10 ^ p` is at most the Number of rank `n`. -/
def tenAtMost (n : Nat) (p : Int) : Bool := unitsPerOne * tenNum p ≤ units n * tenDen p

/-- The place of the leading digit of the Number of rank `n`. The binary logarithm estimates it to
within one place. -/
def leadingPlace (n : Nat) : Int :=
  let estimate := (((units n).log2 : Int) - unitPlaces) * 30103 / 100000
  if tenAtMost n (estimate + 1) then estimate + 1
  else if tenAtMost n estimate then estimate
  else estimate - 1

/-- Of the two multiples of `10 ^ p` around the Number of rank `n`, the one that rounds to it; if
both do, the nearer one, and at equal distance the even one. -/
def onGrid? (n : Nat) (p : Int) : Option Decimal :=
  let k := stepsBelow n p
  let low : Decimal := ⟨k, p⟩
  let high : Decimal := ⟨k + 1, p⟩
  match roundsTo n low, roundsTo n high with
  | true, true =>
    if divideToEven (units n * tenDen p) (unitsPerOne * tenNum p) = k then some low else some high
  | true, false => some low
  | false, true => some high
  | false, false => none

/-- The value of rank `n` written out to its last decimal place. -/
def exactDecimal (n : Nat) : Decimal := ⟨units n * Nat.pow 5 unitPlaces, -unitPlaces⟩

/-- The shortest decimal that rounds to the finite positive Number of rank `n`. Seventeen digits
always suffice; the exact decimal ends the search without an appeal to that fact. -/
def shortest (n : Nat) : Decimal :=
  let place := leadingPlace n
  ((List.range 17).findSome? fun k => onGrid? n (place - (k : Nat))).getD (exactDecimal n)

/-- A decimal that was found on a grid rounds to the Number. -/
theorem roundsTo_of_onGrid? {n : Nat} {p : Int} {d : Decimal} (h : onGrid? n p = some d) :
    roundsTo n d = true := by
  simp only [onGrid?] at h
  split at h
  · split at h <;> simp_all
  all_goals simp_all

/-- Five and two make ten, place by place. -/
theorem clear_places (u : Nat) {p two : Nat} (h : two = Nat.pow 2 p) :
    u * Nat.pow 5 p * 1 * (2 * two) = 2 * u * Nat.pow 10 p := by
  have hten : Nat.pow 10 p = Nat.pow 5 p * Nat.pow 2 p := Nat.mul_pow 5 2 p
  rw [hten, h]
  ac_rfl

/-- A power of ten is positive. -/
theorem ten_pos (p : Nat) : 0 < Nat.pow 10 p := Nat.pow_pos (by decide)

/-- A Number lies below the midpoint above it. -/
theorem below_upperMidpoint (n : Nat) : 2 * units n < upperMidpoint n := by
  have := units_lt_succ n
  simp only [upperMidpoint]
  omega

/-- A Number does not lie below the midpoint below it, and lies above it unless it is zero. -/
theorem lowerMidpoint_below (n : Nat) :
    lowerMidpoint n ≤ 2 * units n ∧ (n % 2 ≠ 0 → lowerMidpoint n < 2 * units n) := by
  cases n with
  | zero => simp [lowerMidpoint, units_zero]
  | succ m =>
    have := units_lt_succ m
    have hlt : lowerMidpoint (m + 1) < 2 * units (m + 1) := by
      simp only [lowerMidpoint, Nat.add_sub_cancel]
      omega
    exact ⟨Nat.le_of_lt hlt, fun _ => hlt⟩

/-- A decimal that is equal to a Number rounds to it. -/
theorem roundsTo_of_eq {n : Nat} {d : Decimal} (hten : 0 < tenDen d.exponent)
    (heq : d.digits * tenNum d.exponent * (2 * unitsPerOne) =
      2 * units n * tenDen d.exponent) : roundsTo n d = true := by
  obtain ⟨hle, hlt⟩ := lowerMidpoint_below n
  have hupper := below_upperMidpoint n
  simp only [roundsTo, heq]
  split <;> rename_i h
  · exact decide_eq_true
      ⟨Nat.mul_le_mul_right _ hle, Nat.le_of_lt (Nat.mul_lt_mul_of_pos_right hupper hten)⟩
  · exact decide_eq_true
      ⟨Nat.mul_lt_mul_of_pos_right (hlt h) hten, Nat.mul_lt_mul_of_pos_right hupper hten⟩

/-- The exact decimal rounds to the Number it is equal to. -/
theorem roundsTo_exactDecimal (n : Nat) : roundsTo n (exactDecimal n) = true := by
  have hdoubled : units n * Nat.pow 5 unitPlaces * 1 * (2 * unitsPerOne) =
      2 * units n * Nat.pow 10 unitPlaces := clear_places (units n) unitsPerOne_eq
  have hnum : tenNum (exactDecimal n).exponent = 1 := rfl
  have hden : tenDen (exactDecimal n).exponent = Nat.pow 10 unitPlaces := rfl
  have hdigits : (exactDecimal n).digits = units n * Nat.pow 5 unitPlaces := rfl
  apply roundsTo_of_eq
  · rw [hden]
    exact ten_pos unitPlaces
  · rw [hnum, hden, hdigits, hdoubled]

/-- The shortest decimal rounds to its Number. -/
theorem roundsTo_shortest (n : Nat) : roundsTo n (shortest n) = true := by
  simp only [shortest]
  cases h : (List.range 17).findSome? fun k => onGrid? n (leadingPlace n - (k : Nat)) with
  | none => exact roundsTo_exactDecimal n
  | some d =>
    obtain ⟨k, _, hk⟩ := List.exists_of_findSome?_eq_some h
    exact roundsTo_of_onGrid? hk

end Sprig.Numeric
