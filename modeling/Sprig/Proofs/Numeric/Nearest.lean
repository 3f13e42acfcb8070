import Mathlib.Order.WellFounded
import Mathlib.Tactic.Ring
import Sprig.Numeric.Shortest

/-!
# Rounding finds the nearest Number

A value lies between the midpoints to the two neighbours of exactly one Number, when a midpoint is
counted to the neighbour of even rank. Rounding finds that Number. So every decimal that rounds to
a Number is read as it, whatever other decimal has the same value.
-/

namespace Sprig.Numeric

/-- A value of `num / den` units has the Number of rank `n` as its nearest one: it lies between the
midpoints around it, and on a midpoint only if `n` is even. -/
structure Nearest (n num den : Nat) : Prop where
  lower : lowerMidpoint n * den ≤ 2 * num
  upper : 2 * num ≤ upperMidpoint n * den
  odd : n % 2 = 1 → lowerMidpoint n * den < 2 * num ∧ 2 * num < upperMidpoint n * den

section Uniqueness

variable {n m num den : Nat}

theorem units_strictMono : StrictMono units := strictMono_nat_of_lt_succ units_lt_succ

/-- Between two Numbers there is the upper midpoint of the lower one and the lower midpoint of the
upper one, and they coincide only for neighbours. -/
theorem upperMidpoint_le (h : n < m) : upperMidpoint n ≤ lowerMidpoint m ∧
    (n + 1 < m → upperMidpoint n < lowerMidpoint m) := by
  have hlow : units n ≤ units (m - 1) := units_strictMono.monotone (by omega)
  have hhigh : units (n + 1) ≤ units m := units_strictMono.monotone (by omega)
  constructor
  · simp only [upperMidpoint, lowerMidpoint]
    omega
  · intro hgap
    have : units (n + 1) < units m := units_strictMono hgap
    simp only [upperMidpoint, lowerMidpoint]
    omega

/-- No value is nearest to two Numbers. -/
theorem Nearest.not_lt (hden : 0 < den) (hn : Nearest n num den) (hm : Nearest m num den) :
    ¬ n < m := by
  intro hlt
  obtain ⟨hle, hstrict⟩ := upperMidpoint_le hlt
  have hmid : upperMidpoint n * den ≤ lowerMidpoint m * den := Nat.mul_le_mul_right den hle
  by_cases hodd : n % 2 = 1
  · have := (hn.odd hodd).2
    have := hm.lower
    omega
  · by_cases hodd' : m % 2 = 1
    · have := (hm.odd hodd').1
      have := hn.upper
      omega
    · have hgap : upperMidpoint n * den < lowerMidpoint m * den :=
        Nat.mul_lt_mul_of_pos_right (hstrict (by omega)) hden
      have := hn.upper
      have := hm.lower
      omega

theorem Nearest.unique (hden : 0 < den) (hn : Nearest n num den) (hm : Nearest m num den) :
    n = m := by
  rcases Nat.lt_trichotomy n m with h | h | h
  · exact absurd h (hn.not_lt hden hm)
  · exact h
  · exact absurd h (hm.not_lt hden hn)

/-- Which Number is nearest depends on the value alone. -/
theorem Nearest.of_eq {num' den' : Nat} (hden : 0 < den) (hden' : 0 < den')
    (heq : num * den' = num' * den) (h : Nearest n num den) : Nearest n num' den' := by
  have hle {a : Nat} : a * den ≤ 2 * num → a * den' ≤ 2 * num' := by
    intro ha
    apply Nat.le_of_mul_le_mul_right (c := den) _ hden
    calc a * den' * den = a * den * den' := by ac_rfl
      _ ≤ 2 * num * den' := Nat.mul_le_mul_right den' ha
      _ = 2 * num' * den := by rw [Nat.mul_assoc, heq, Nat.mul_assoc]
  have hge {a : Nat} : 2 * num ≤ a * den → 2 * num' ≤ a * den' := by
    intro ha
    apply Nat.le_of_mul_le_mul_right (c := den) _ hden
    calc 2 * num' * den = 2 * num * den' := by rw [Nat.mul_assoc, ← heq, Nat.mul_assoc]
      _ ≤ a * den * den' := Nat.mul_le_mul_right den' ha
      _ = a * den' * den := by ac_rfl
  have hlt {a : Nat} : a * den < 2 * num → a * den' < 2 * num' := by
    intro ha
    apply Nat.lt_of_mul_lt_mul_right (a := den)
    calc a * den' * den = a * den * den' := by ac_rfl
      _ < 2 * num * den' := Nat.mul_lt_mul_of_pos_right ha hden'
      _ = 2 * num' * den := by rw [Nat.mul_assoc, heq, Nat.mul_assoc]
  have hgt {a : Nat} : 2 * num < a * den → 2 * num' < a * den' := by
    intro ha
    apply Nat.lt_of_mul_lt_mul_right (a := den)
    calc 2 * num' * den = 2 * num * den' := by rw [Nat.mul_assoc, ← heq, Nat.mul_assoc]
      _ < a * den * den' := Nat.mul_lt_mul_of_pos_right ha hden'
      _ = a * den' * den := by ac_rfl
  exact ⟨hle h.lower, hge h.upper, fun hodd => ⟨hlt (h.odd hodd).1, hgt (h.odd hodd).2⟩⟩

end Uniqueness

section Rounding

variable {num den : Nat}

/-- A quotient is rounded by at most a half, and by less to an odd integer. -/
theorem divideToEven_spec (num : Nat) (hden : 0 < den) :
    2 * divideToEven num den * den ≤ 2 * num + den ∧
      2 * num ≤ 2 * divideToEven num den * den + den ∧
      (divideToEven num den % 2 = 1 → 2 * divideToEven num den * den < 2 * num + den ∧
        2 * num < 2 * divideToEven num den * den + den) := by
  have hdiv := Nat.div_add_mod num den
  have hmod := Nat.mod_lt num hden
  have hq : 2 * (num / den) * den = 2 * (den * (num / den)) := by ac_rfl
  have hq' : 2 * (num / den + 1) * den = 2 * (den * (num / den)) + 2 * den := by ring
  simp only [divideToEven]
  generalize num / den = q at *
  generalize num % den = r at *
  split
  · next h =>
    rw [hq]
    generalize den * q = p at *
    omega
  · next h =>
    rw [hq']
    generalize den * q = p at *
    omega

/-- A quotient is rounded within the integers around it. -/
theorem divideToEven_bounds (num : Nat) {a b : Nat} (hden : 0 < den) (ha : a * den ≤ num)
    (hb : num < b * den) : a ≤ divideToEven num den ∧ divideToEven num den ≤ b := by
  have hq : a ≤ num / den := (Nat.le_div_iff_mul_le hden).mpr ha
  have hq' : num / den < b := (Nat.div_lt_iff_lt_mul hden).mpr hb
  simp only [divideToEven]
  split <;> omega

/-- The value of a rank whose significand and exponent are known. -/
theorem units_eq {n s e : Nat} (hs : significand n = s) (he : binaryExponent n = e) :
    units n = s * Nat.pow 2 e := by
  rw [units, hs, he]

/-- From the first full exponent on, the Numbers up to the next but one power of two are equally
spaced; below it they are so from zero on. -/
theorem units_spaced {e m : Nat} (hlow : e = 0 ∨ fractionCount ≤ m)
    (hhigh : m ≤ 2 * fractionCount) : units (e * fractionCount + m) = m * Nat.pow 2 e := by
  by_cases hsmall : m < fractionCount
  · obtain rfl : e = 0 := by omega
    rw [Nat.zero_mul, Nat.zero_add, units_of_lt hsmall]
    exact (Nat.mul_one m).symm
  · have hfull : ¬ e * fractionCount + m < fractionCount := by omega
    by_cases hcarry : m = 2 * fractionCount
    · have hs : significand (e * fractionCount + m) = fractionCount := by
        rw [significand, if_neg hfull]
        simp only [fractionCount] at *
        omega
      have he : binaryExponent (e * fractionCount + m) = e + 1 := by
        simp only [binaryExponent, fractionCount] at *
        omega
      have hdouble : Nat.pow 2 (e + 1) = Nat.pow 2 e * 2 := rfl
      rw [units_eq hs he, hcarry, hdouble]
      ac_rfl
    · apply units_eq
      · rw [significand, if_neg hfull]
        simp only [fractionCount] at *
        omega
      · simp only [binaryExponent, fractionCount] at *
        omega

/-- The Number above is at least one step away. -/
theorem step_le_units_succ {e m : Nat} (hlow : e = 0 ∨ fractionCount ≤ m)
    (hhigh : m ≤ 2 * fractionCount) :
    (m + 1) * Nat.pow 2 e ≤ units (e * fractionCount + m + 1) := by
  by_cases hcarry : m = 2 * fractionCount
  · have hnext : e * fractionCount + m + 1 = (e + 1) * fractionCount + (fractionCount + 1) := by
      rw [hcarry]
      ring
    have hdouble : Nat.pow 2 (e + 1) = Nat.pow 2 e * 2 := rfl
    rw [hnext, units_spaced (.inr (by simp only [fractionCount]; omega))
      (by simp only [fractionCount]; omega), hdouble, hcarry]
    calc (2 * fractionCount + 1) * Nat.pow 2 e ≤ (2 * (fractionCount + 1)) * Nat.pow 2 e :=
          Nat.mul_le_mul_right _ (by omega)
      _ = (fractionCount + 1) * (Nat.pow 2 e * 2) := by ac_rfl
  · rw [Nat.add_assoc, units_spaced (by omega) (by omega)]

/-- The Number below is one step away, except from the first of an exponent. -/
theorem units_pred_of_step {e m : Nat} (hlow : e = 0 ∧ 0 < m ∨ fractionCount < m)
    (hhigh : m ≤ 2 * fractionCount) :
    units (e * fractionCount + m - 1) = (m - 1) * Nat.pow 2 e := by
  rw [Nat.add_sub_assoc (by omega), units_spaced (by omega) (by omega)]

/-- The midpoint above a Number is at least half a step away. -/
theorem half_step_le_upperMidpoint {e m : Nat} (den : Nat) (hlow : e = 0 ∨ fractionCount ≤ m)
    (hhigh : m ≤ 2 * fractionCount) :
    2 * m * (den * Nat.pow 2 e) + den * Nat.pow 2 e ≤
      upperMidpoint (e * fractionCount + m) * den := by
  have hnext := Nat.mul_le_mul_right den (step_le_units_succ hlow hhigh)
  simp only [upperMidpoint, units_spaced hlow hhigh]
  calc 2 * m * (den * Nat.pow 2 e) + den * Nat.pow 2 e =
        m * Nat.pow 2 e * den + (m + 1) * Nat.pow 2 e * den := by ring
    _ ≤ m * Nat.pow 2 e * den + units (e * fractionCount + m + 1) * den :=
        Nat.add_le_add_left hnext _
    _ = _ := (Nat.add_mul _ _ _).symm

/-- The midpoint below a Number is half a step away, except from the first of an exponent. -/
theorem lowerMidpoint_add_half_step {e m : Nat} (den : Nat)
    (hlow : e = 0 ∧ 0 < m ∨ fractionCount < m) (hhigh : m ≤ 2 * fractionCount) :
    lowerMidpoint (e * fractionCount + m) * den + den * Nat.pow 2 e =
      2 * m * (den * Nat.pow 2 e) := by
  obtain ⟨k, rfl⟩ : ∃ k, m = k + 1 := ⟨m - 1, by omega⟩
  rw [lowerMidpoint, units_pred_of_step hlow hhigh, units_spaced (by omega) hhigh,
    Nat.add_sub_cancel]
  ring

/-- The midpoint below the first Number of an exponent is below that Number. -/
theorem lowerMidpoint_lt_of_first {e den : Nat} (hden : 0 < den) :
    lowerMidpoint (e * fractionCount + fractionCount) * den <
      2 * (fractionCount * (den * Nat.pow 2 e)) := by
  have hpos : 0 < e * fractionCount + fractionCount := by simp only [fractionCount]; omega
  have hpred : units (e * fractionCount + fractionCount - 1) <
      units (e * fractionCount + fractionCount) := units_strictMono (by omega)
  have hunits := units_spaced (e := e) (.inr (Nat.le_refl fractionCount)) (by omega)
  calc lowerMidpoint (e * fractionCount + fractionCount) * den <
        (units (e * fractionCount + fractionCount) + units (e * fractionCount + fractionCount)) *
          den := Nat.mul_lt_mul_of_pos_right (Nat.add_lt_add_right hpred _) hden
    _ = 2 * (fractionCount * (den * Nat.pow 2 e)) := by
        rw [hunits]
        ring

/-- Rounding the significand of a value gives the Number that is nearest to the value. -/
theorem nearest_of_significand {num den e : Nat} (hden : 0 < den)
    (hlow : e = 0 ∨ fractionCount * (den * Nat.pow 2 e) ≤ num)
    (hhigh : num < 2 * fractionCount * (den * Nat.pow 2 e)) :
    Nearest (e * fractionCount + divideToEven num (den * Nat.pow 2 e)) num den := by
  have hwidth : 0 < den * Nat.pow 2 e := Nat.mul_pos hden (Nat.two_pow_pos e)
  have hfloor : e = 0 ∨ fractionCount ≤ divideToEven num (den * Nat.pow 2 e) :=
    hlow.imp_right fun h => (divideToEven_bounds num hwidth h hhigh).1
  have hceil := (divideToEven_bounds num hwidth (a := 0) (by omega) hhigh).2
  obtain ⟨hbelow, habove, hodd⟩ := divideToEven_spec num hwidth
  generalize divideToEven num (den * Nat.pow 2 e) = m at *
  have hparity : (e * fractionCount + m) % 2 = m % 2 := by
    simp only [fractionCount]
    omega
  have hupper := half_step_le_upperMidpoint den hfloor hceil
  have hlower : lowerMidpoint (e * fractionCount + m) * den ≤ 2 * num ∧
      (m % 2 = 1 → lowerMidpoint (e * fractionCount + m) * den < 2 * num) := by
    by_cases hstep : e = 0 ∧ 0 < m ∨ fractionCount < m
    · have := lowerMidpoint_add_half_step den hstep hceil
      omega
    · by_cases hzero : e = 0
      · obtain ⟨rfl, rfl⟩ : e = 0 ∧ m = 0 := by omega
        simp [lowerMidpoint, units_zero]
      · obtain rfl : m = fractionCount := by omega
        have := lowerMidpoint_lt_of_first (e := e) hden
        have := hlow.resolve_left hzero
        omega
  constructor
  · exact hlower.1
  · exact habove.trans hupper
  · intro hrank
    rw [hparity] at hrank
    exact ⟨hlower.2 hrank, Nat.lt_of_lt_of_le (hodd hrank).2 hupper⟩

/-- The exponent is chosen so that a value has 53 bits in front of it, or fewer when there is no
smaller exponent. -/
theorem significand_bounds (num : Nat) {den : Nat} (hden : 0 < den) :
    ((num / den).log2 - 52 = 0 ∨
      fractionCount * (den * Nat.pow 2 ((num / den).log2 - 52)) ≤ num) ∧
      num < 2 * fractionCount * (den * Nat.pow 2 ((num / den).log2 - 52)) := by
  have hcount : fractionCount = Nat.pow 2 52 := by decide
  have hle : num / den * den ≤ num := Nat.div_mul_le_self num den
  have hlt : num < (num / den + 1) * den := by
    rw [Nat.mul_comm]
    exact Nat.lt_mul_div_succ num hden
  generalize num / den = q at *
  have hpow : q < Nat.pow 2 (q.log2 + 1) := Nat.lt_log2_self
  constructor
  · by_cases hsmall : q.log2 ≤ 52
    · exact .inl (by omega)
    · right
      have hq : Nat.pow 2 q.log2 ≤ q := Nat.log2_self_le (by rintro rfl; exact hsmall (by decide))
      have hsplit : Nat.pow 2 q.log2 = fractionCount * Nat.pow 2 (q.log2 - 52) := by
        rw [hcount, Nat.pow_eq, Nat.pow_eq, Nat.pow_eq, ← Nat.pow_add]
        congr 1
        omega
      calc fractionCount * (den * Nat.pow 2 (q.log2 - 52)) = Nat.pow 2 q.log2 * den := by
            rw [hsplit]
            ac_rfl
        _ ≤ q * den := Nat.mul_le_mul_right den hq
        _ ≤ num := hle
  · have hsplit : Nat.pow 2 (q.log2 + 1) ≤ 2 * fractionCount * Nat.pow 2 (q.log2 - 52) := by
      have htwice : 2 * fractionCount = Nat.pow 2 53 := by decide
      rw [htwice, Nat.pow_eq, Nat.pow_eq, Nat.pow_eq, ← Nat.pow_add]
      exact Nat.pow_le_pow_right (by decide) (by omega)
    calc num < (q + 1) * den := hlt
      _ ≤ Nat.pow 2 (q.log2 + 1) * den := Nat.mul_le_mul_right den hpow
      _ ≤ 2 * fractionCount * Nat.pow 2 (q.log2 - 52) * den := Nat.mul_le_mul_right den hsplit
      _ = 2 * fractionCount * (den * Nat.pow 2 (q.log2 - 52)) := by ac_rfl

/-- A value rounds to the Number that is nearest to it. -/
theorem nearestRank_eq {n num den : Nat} (hn : n < infiniteRank) (hden : 0 < den)
    (h : Nearest n (num * unitsPerOne) den) : nearestRank num den = n := by
  obtain ⟨hlow, hhigh⟩ := significand_bounds (num * unitsPerOne) hden
  have hnearest := nearest_of_significand hden hlow hhigh
  simp only [nearestRank]
  rw [h.unique hden hnearest] at hn ⊢
  exact Nat.min_eq_left (Nat.le_of_lt hn)

end Rounding

section Decimals

variable {n : Nat} {d : Decimal}

theorem tenDen_pos (p : Int) : 0 < tenDen p := ten_pos _

/-- A decimal rounds to the Number that is nearest to it. -/
theorem nearest_of_roundsTo (h : roundsTo n d = true) :
    Nearest n (d.digits * tenNum d.exponent * unitsPerOne) (tenDen d.exponent) := by
  have htwice : 2 * (d.digits * tenNum d.exponent * unitsPerOne) =
      d.digits * tenNum d.exponent * (2 * unitsPerOne) := Nat.mul_left_comm ..
  simp only [roundsTo] at h
  split at h <;> rename_i hparity <;> obtain ⟨hlower, hupper⟩ := of_decide_eq_true h
  · rw [← htwice] at hlower hupper
    exact ⟨hlower, hupper, fun hodd => absurd hodd (by omega)⟩
  · rw [← htwice] at hlower hupper
    exact ⟨Nat.le_of_lt hlower, Nat.le_of_lt hupper, fun _ => ⟨hlower, hupper⟩⟩

theorem lowerMidpoint_zero : lowerMidpoint 0 = 0 := by
  rw [lowerMidpoint, Nat.zero_sub, units_zero]

/-- Only zero is nearest to nothing. -/
theorem Nearest.eq_zero {den : Nat} (hden : 0 < den) (h : Nearest n 0 den) : n = 0 := by
  refine h.unique hden ⟨?_, Nat.zero_le _, fun hodd => absurd hodd (by decide)⟩
  rw [lowerMidpoint_zero, Nat.zero_mul]

theorem ten_pow_mul_le {k l p : Nat} (h : k + l ≤ p) :
    Nat.pow 10 k * Nat.pow 10 l ≤ Nat.pow 10 p := by
  calc Nat.pow 10 k * Nat.pow 10 l = Nat.pow 10 (k + l) := (Nat.pow_add 10 k l).symm
    _ ≤ Nat.pow 10 p := Nat.pow_le_pow_right (by decide) h

theorem ten_pow_mul_two_pow_le (k l : Nat) :
    Nat.pow 10 k * Nat.pow 2 l ≤ Nat.pow 10 (k + l) := by
  calc Nat.pow 10 k * Nat.pow 2 l ≤ Nat.pow 10 k * Nat.pow 10 l :=
        Nat.mul_le_mul_left _ (Nat.pow_le_pow_left (by decide) l)
    _ = Nat.pow 10 (k + l) := (Nat.pow_add 10 k l).symm

theorem tenNum_of_neg {p : Int} (h : p ≤ 0) : tenNum p = 1 := by
  rw [tenNum, Int.toNat_of_nonpos h, Nat.pow_eq, Nat.pow_zero]

theorem tenDen_of_nonneg {p : Int} (h : 0 ≤ p) : tenDen p = 1 := by
  rw [tenDen, Int.toNat_of_nonpos (by omega), Nat.pow_eq, Nat.pow_zero]

/-- The midpoint above a finite Number is at most infinity, as far as it has a value in units. -/
theorem upperMidpoint_le_infinite (hn : n < infiniteRank) :
    upperMidpoint n ≤ 2 * units infiniteRank := by
  have hthis : units n ≤ units infiniteRank := units_strictMono.monotone (by omega)
  have hnext : units (n + 1) ≤ units infiniteRank := units_strictMono.monotone (by omega)
  simp only [upperMidpoint]
  omega

/-- No finite Number is nearest to a power of ten as high as those that are not looked at. -/
theorem Nearest.exponent_le {digits k : Nat} (hn : n < infiniteRank) (hdigits : digits ≠ 0)
    (h : Nearest n (digits * Nat.pow 10 k * unitsPerOne) 1) : k ≤ 400 := by
  by_contra hk
  obtain ⟨bound, hlarge, hpow⟩ :
      ∃ bound, units infiniteRank < bound * unitsPerOne ∧ bound ≤ Nat.pow 10 k :=
    ⟨Nat.pow 10 200 * Nat.pow 10 201, by decide +kernel, ten_pow_mul_le (by omega)⟩
  have hmore : bound * unitsPerOne ≤ digits * Nat.pow 10 k * unitsPerOne := by
    apply Nat.mul_le_mul_right
    exact hpow.trans (Nat.le_mul_of_pos_left _ (Nat.pos_of_ne_zero hdigits))
  have hupper := h.upper
  have hmid := upperMidpoint_le_infinite hn
  rw [Nat.mul_one] at hupper
  omega

/-- Only zero is nearest to a power of ten as low as those that are not looked at. -/
theorem Nearest.eq_zero_of_small {digits k : Nat} (hk : 400 + digits.log2 < k)
    (h : Nearest n (digits * unitsPerOne) (Nat.pow 10 k)) : n = 0 := by
  by_contra hn
  have hunits : n ≤ units n := units_strictMono.le_apply
  have hdigits : digits < Nat.pow 2 (digits.log2 + 1) := Nat.lt_log2_self
  obtain ⟨bound, hten, hpow⟩ :
      ∃ bound, 4 * unitsPerOne ≤ bound ∧ bound * Nat.pow 2 digits.log2 ≤ Nat.pow 10 k := by
    refine ⟨Nat.pow 10 200 * Nat.pow 10 201, by decide +kernel, ?_⟩
    rw [Nat.mul_assoc]
    exact (Nat.mul_le_mul_left _ (ten_pow_mul_two_pow_le 201 digits.log2)).trans
      (ten_pow_mul_le (by omega))
  have hlower : Nat.pow 10 k ≤ 2 * (digits * unitsPerOne) := by
    refine Nat.le_trans (Nat.le_mul_of_pos_left _ ?_) h.lower
    simp only [lowerMidpoint]
    omega
  have hless : 2 * (digits * unitsPerOne) < 4 * unitsPerOne * Nat.pow 2 digits.log2 := by
    calc 2 * (digits * unitsPerOne) < 2 * (Nat.pow 2 (digits.log2 + 1) * unitsPerOne) := by
          have hpos : 0 < unitsPerOne := by decide +kernel
          exact Nat.mul_lt_mul_of_pos_left (Nat.mul_lt_mul_of_pos_right hdigits hpos) (by decide)
      _ = 4 * unitsPerOne * Nat.pow 2 digits.log2 := by
          have hdouble : Nat.pow 2 (digits.log2 + 1) = Nat.pow 2 digits.log2 * 2 := rfl
          rw [hdouble]
          ring
  have hmore := Nat.mul_le_mul_right (Nat.pow 2 digits.log2) hten
  omega

/-- Reading a decimal gives the Number that is nearest to it. -/
theorem decimalRank_of_nearest {digits : Nat} {exponent : Int} (hn : n < infiniteRank)
    (h : Nearest n (digits * tenNum exponent * unitsPerOne) (tenDen exponent)) :
    decimalRank digits exponent = n := by
  simp only [decimalRank]
  split
  · next hzero =>
    rw [hzero, Nat.zero_mul, Nat.zero_mul] at h
    exact (h.eq_zero (tenDen_pos exponent)).symm
  · next hdigits =>
    by_cases hsign : 0 ≤ exponent
    · rw [tenDen_of_nonneg hsign] at h
      have hbound := h.exponent_le hn hdigits
      rw [if_neg (by omega), if_neg (by omega), if_pos hsign]
      exact nearestRank_eq hn Nat.one_pos h
    · rw [tenNum_of_neg (by omega), Nat.mul_one] at h
      rw [if_neg (by omega)]
      split
      · next hlow => exact (h.eq_zero_of_small (by omega)).symm
      · exact nearestRank_eq hn (ten_pos _) h

/-- Two decimals of one value round to the same Numbers. -/
theorem decimalRank_of_roundsTo {digits : Nat} {exponent : Int} (hn : n < infiniteRank)
    (h : roundsTo n d = true) (heq : d.digits * tenNum d.exponent * tenDen exponent =
      digits * tenNum exponent * tenDen d.exponent) : decimalRank digits exponent = n := by
  apply decimalRank_of_nearest hn
  apply (nearest_of_roundsTo h).of_eq (tenDen_pos _) (tenDen_pos _)
  rw [Nat.mul_right_comm, heq, Nat.mul_right_comm]

end Decimals

end Sprig.Numeric
