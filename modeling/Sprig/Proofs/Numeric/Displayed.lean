import Mathlib
import Sprig.Proofs.Numeric.Whole

/-!
# How a Number is displayed

Rounding keeps the order of values. So the shortest decimal of a Number is on the same side of a
power of ten as the Number itself, which settles the place of its leading digit, and with it whether
the text has an exponent. At `1e-4` the text starts to do without one, and a Number with a fraction
is never so large that it needs one again.
-/

namespace Sprig.Numeric

/-- The value of a decimal. -/
def Decimal.value (d : Decimal) : ℚ := d.digits * 10 ^ d.exponent

/-- The place of the leading digit of a decimal. -/
def Decimal.place (d : Decimal) : Int := d.exponent + (digitsText d.digits).length - 1

section Order

variable {n m : Nat} {d e : Decimal}

/-- Of two values with different nearest Numbers the one with the lower Number is less. -/
theorem Nearest.div_lt_div {num den num' den' : Nat} (hden : 0 < den) (hden' : 0 < den')
    (hn : Nearest n num den) (hm : Nearest m num' den') (h : n < m) :
    (num / den : ℚ) < num' / den' := by
  obtain ⟨hmid, hgap⟩ := upperMidpoint_le h
  have hpos : 0 < den * den' := Nat.mul_pos hden hden'
  have hupper : 2 * num * den' ≤ upperMidpoint n * (den * den') ∧
      (n % 2 = 1 → 2 * num * den' < upperMidpoint n * (den * den')) := by
    rw [← Nat.mul_assoc]
    exact ⟨Nat.mul_le_mul_right den' hn.upper,
      fun hodd => Nat.mul_lt_mul_of_pos_right (hn.odd hodd).2 hden'⟩
  have hlower : lowerMidpoint m * (den * den') ≤ 2 * num' * den ∧
      (m % 2 = 1 → lowerMidpoint m * (den * den') < 2 * num' * den) := by
    rw [Nat.mul_comm den, ← Nat.mul_assoc]
    exact ⟨Nat.mul_le_mul_right den hm.lower,
      fun hodd => Nat.mul_lt_mul_of_pos_right (hm.odd hodd).1 hden⟩
  have hmiddle : upperMidpoint n * (den * den') ≤ lowerMidpoint m * (den * den') ∧
      (n + 1 < m → upperMidpoint n * (den * den') < lowerMidpoint m * (den * den')) :=
    ⟨Nat.mul_le_mul_right _ hmid, fun h => Nat.mul_lt_mul_of_pos_right (hgap h) hpos⟩
  -- one of the three steps is strict, since of two neighbours one is odd
  have hcross : num * den' < num' * den := by
    rw [Nat.mul_assoc 2] at hupper hlower
    omega
  rw [div_lt_div_iff₀ (by exact_mod_cast hden) (by exact_mod_cast hden')]
  exact_mod_cast hcross

/-- A Number is nearest to its own value. -/
theorem nearest_units (n : Nat) : Nearest n (units n) 1 := by
  obtain ⟨hlower, hstrict⟩ := lowerMidpoint_below n
  have hupper := below_upperMidpoint n
  refine ⟨?_, ?_, fun hodd => ?_⟩ <;> rw [Nat.mul_one]
  · exact hlower
  · exact hupper.le
  · rw [Nat.mul_one]
    exact ⟨hstrict (by omega), hupper⟩

theorem tenNum_div_tenDen (p : Int) : (tenNum p / tenDen p : ℚ) = 10 ^ p := by
  rcases le_total 0 p with h | h
  · rw [tenDen_of_nonneg h, tenNum, Nat.pow_eq, Nat.cast_one, div_one, Nat.cast_pow, ← zpow_natCast,
      Int.toNat_of_nonneg h, Nat.cast_ofNat]
  · rw [tenNum_of_neg h, tenDen, Nat.pow_eq, Nat.cast_one, Nat.cast_pow, ← zpow_natCast,
      Int.toNat_of_nonneg (by omega), Nat.cast_ofNat, zpow_neg, one_div, inv_inv]

theorem unitsPerOne_pos : (0 : ℚ) < unitsPerOne := by
  have hpos (n : Nat) : 0 < Nat.pow 2 n := Nat.two_pow_pos n
  rw [unitsPerOne_eq]
  exact Nat.cast_pos.mpr (hpos unitPlaces)

/-- The value of a decimal in units. -/
theorem value_mul_unitsPerOne (d : Decimal) :
    ((d.digits * tenNum d.exponent * unitsPerOne : Nat) / tenDen d.exponent : ℚ) =
      d.value * unitsPerOne := by
  rw [Decimal.value, ← tenNum_div_tenDen]
  push_cast
  ring

/-- Decimals that round to different Numbers are in the order of these. -/
theorem value_lt_value (hd : roundsTo n d = true) (he : roundsTo m e = true) (h : n < m) :
    d.value < e.value := by
  have hlt := (nearest_of_roundsTo hd).div_lt_div (tenDen_pos _) (tenDen_pos _)
    (nearest_of_roundsTo he) h
  rw [value_mul_unitsPerOne, value_mul_unitsPerOne] at hlt
  exact lt_of_mul_lt_mul_right hlt unitsPerOne_pos.le

/-- A Number is less than the decimals that round to higher ones. -/
theorem units_div_lt_value (he : roundsTo m e = true) (h : n < m) :
    (units n / unitsPerOne : ℚ) < e.value := by
  have hlt := (nearest_units n).div_lt_div Nat.one_pos (tenDen_pos _) (nearest_of_roundsTo he) h
  rw [value_mul_unitsPerOne, Nat.cast_one, div_one] at hlt
  exact (div_lt_iff₀ unitsPerOne_pos).mpr hlt

theorem units_div_le_units_div (h : n ≤ m) :
    (units n / unitsPerOne : ℚ) ≤ units m / unitsPerOne := by
  have hle : units n ≤ units m := units_strictMono.monotone h
  exact div_le_div_of_nonneg_right (by exact_mod_cast hle) unitsPerOne_pos.le

end Order

section Places

variable {d : Decimal}

/-- The leading digit of a decimal is below a place just when the decimal is below the power of ten
at that place. -/
theorem Decimal.place_lt_iff (hpositive : d.digits ≠ 0) (p : Int) :
    d.place < p ↔ d.value < 10 ^ p := by
  have hten : (0 : ℚ) < 10 ^ d.exponent := by positivity
  have hlength : 0 < (digitsText d.digits).length := Nat.length_toDigits_pos
  rcases le_or_gt p d.exponent with hlow | hhigh
  · have hone : (1 : ℚ) ≤ d.digits := by exact_mod_cast Nat.one_le_iff_ne_zero.mpr hpositive
    have hle : (10 : ℚ) ^ p ≤ d.value :=
      calc (10 : ℚ) ^ p ≤ 10 ^ d.exponent := zpow_le_zpow_right₀ (by norm_num) hlow
        _ = 1 * 10 ^ d.exponent := (one_mul _).symm
        _ ≤ d.value := mul_le_mul_of_nonneg_right hone hten.le
    simp only [hle.not_gt, iff_false, Decimal.place]
    omega
  · obtain ⟨k, rfl⟩ : ∃ k : Nat, p = k + d.exponent := ⟨(p - d.exponent).toNat, by omega⟩
    have hdigits : (digitsText d.digits).length ≤ k ↔ d.digits < 10 ^ k :=
      Nat.length_toDigits_le_iff (by decide) (by omega)
    have hplace : d.place < k + d.exponent ↔ (digitsText d.digits).length ≤ k := by
      simp only [Decimal.place]
      omega
    rw [hplace, hdigits, Decimal.value, zpow_add₀ (by norm_num), zpow_natCast,
      mul_lt_mul_iff_left₀ hten]
    exact_mod_cast Iff.rfl

theorem value_power (p : Int) : (⟨1, p⟩ : Decimal).value = 10 ^ p := by
  rw [Decimal.value, Nat.cast_one, one_mul]

end Places

section Bounds

variable {n : Nat}

/-- The rank of the Number that is nearest to `1e-4`. -/
def lowRank : Nat := decimalRank 1 (-4)

/-- The rank of the Number that is equal to `1e16`. -/
def highRank : Nat := decimalRank 1 16

/-- `1e-4` is the shortest decimal of its Number, which is not below it. -/
theorem lowRank_spec : roundsTo lowRank ⟨1, -4⟩ = true ∧ shortest lowRank = ⟨1, -4⟩ ∧
    1 * unitsPerOne ≤ units lowRank * 10 ^ 4 := by
  decide +kernel

/-- From `1e16` on there is no room for a fraction, and `1e21` is still far. -/
theorem highRank_spec : roundsTo highRank ⟨1, 16⟩ = true ∧ 1075 * fractionCount ≤ highRank ∧
    units highRank < 10 ^ 21 * unitsPerOne := by
  decide +kernel

theorem digits_shortest_ne (hn : n ≠ 0) : (shortest n).digits ≠ 0 := by
  intro hdigits
  have hnearest := nearest_of_roundsTo (roundsTo_shortest n)
  rw [hdigits, Nat.zero_mul, Nat.zero_mul] at hnearest
  exact hn (hnearest.eq_zero (tenDen_pos _))

/-- The shortest decimal begins below the fourth place behind the point just when the Number is less
than `1e-4`. -/
theorem place_shortest_lt_iff (hn : n ≠ 0) :
    (shortest n).place < -4 ↔ (units n / unitsPerOne : ℚ) < 1 / 10 ^ 4 := by
  obtain ⟨hround, hshortest, hle⟩ := lowRank_spec
  have hpower : (⟨1, -4⟩ : Decimal).value = 1 / 10 ^ 4 := by
    rw [value_power]
    norm_num
  have hunits : (1 / 10 ^ 4 : ℚ) ≤ units lowRank / unitsPerOne := by
    rw [div_le_div_iff₀ (by norm_num) unitsPerOne_pos]
    exact_mod_cast hle
  have hplace := Decimal.place_lt_iff (digits_shortest_ne hn) (-4)
  rw [← value_power, hpower] at hplace
  rw [hplace]
  rcases lt_trichotomy n lowRank with h | h | h
  · have hvalue := value_lt_value (roundsTo_shortest n) hround h
    have hless := units_div_lt_value hround h
    rw [hpower] at hvalue hless
    exact iff_of_true hvalue hless
  · rw [h, hshortest, hpower]
    exact iff_of_false (lt_irrefl _) hunits.not_gt
  · have hvalue := value_lt_value hround (roundsTo_shortest n) h
    rw [hpower] at hvalue
    exact iff_of_false hvalue.not_gt (hunits.trans (units_div_le_units_div h.le)).not_gt

/-- A Number whose exponent leaves no room for a fraction is whole. -/
theorem units_mod_of_le (h : 1075 * fractionCount ≤ n) : units n % unitsPerOne = 0 := by
  have hexponent : unitPlaces ≤ binaryExponent n := by
    simp only [binaryExponent, unitPlaces, fractionCount] at *
    omega
  apply Nat.mod_eq_zero_of_dvd
  rw [unitsPerOne_eq, units, Nat.pow_eq, Nat.pow_eq]
  exact (pow_dvd_pow 2 hexponent).mul_left _

/-- A Number with a fraction is too small for more than sixteen digits before the point. -/
theorem place_shortest_lt_of_fraction (h : units n % unitsPerOne ≠ 0) :
    (shortest n).place < 16 := by
  obtain ⟨hround, hwhole, -⟩ := highRank_spec
  have hn : n ≠ 0 := by
    rintro rfl
    rw [units_zero, Nat.zero_mod] at h
    exact h rfl
  have hlow : n < highRank := by
    by_contra hhigh
    exact h (units_mod_of_le (hwhole.trans (Nat.not_lt.mp hhigh)))
  rw [Decimal.place_lt_iff (digits_shortest_ne hn), ← value_power]
  exact value_lt_value (roundsTo_shortest n) hround hlow

/-- A Number that is too large to be displayed as an integer has more than sixteen digits before the
point. -/
theorem le_place_shortest_of_large (h : (10 ^ 21 : ℚ) ≤ units n / unitsPerOne) :
    16 ≤ (shortest n).place := by
  obtain ⟨hround, -, hunits⟩ := highRank_spec
  have hhigh : highRank < n := by
    by_contra hlow
    have hless : (units highRank / unitsPerOne : ℚ) < 10 ^ 21 := by
      rw [div_lt_iff₀ unitsPerOne_pos]
      exact_mod_cast hunits
    exact (h.trans (units_div_le_units_div (Nat.not_lt.mp hlow))).not_gt hless
  have hvalue := value_lt_value hround (roundsTo_shortest n) hhigh
  rw [value_power] at hvalue
  rw [← not_lt, Decimal.place_lt_iff (digits_shortest_ne (by omega))]
  exact hvalue.not_gt

/-- Of the Numbers that have a fraction or too many digits for an integer, those between `1e-4` and
`1e21` have the leading digit of their shortest decimal within the bounds of the exact layout. -/
theorem place_shortest_mem_iff (hn : n ≠ 0)
    (hlarge : units n % unitsPerOne = 0 → (10 ^ 21 : ℚ) ≤ units n / unitsPerOne) :
    -4 ≤ (shortest n).place ∧ (shortest n).place < 16 ↔
      (1 / 10 ^ 4 : ℚ) ≤ units n / unitsPerOne ∧ (units n / unitsPerOne : ℚ) < 10 ^ 21 := by
  have hhigh : (shortest n).place < 16 ↔ (units n / unitsPerOne : ℚ) < 10 ^ 21 := by
    by_cases hwhole : units n % unitsPerOne = 0
    · have hplace := le_place_shortest_of_large (hlarge hwhole)
      exact iff_of_false hplace.not_gt (hlarge hwhole).not_gt
    · have hplace := place_shortest_lt_of_fraction hwhole
      exact iff_of_true hplace
        (not_le.mp fun hle => (le_place_shortest_of_large hle).not_gt hplace)
  rw [← not_lt, ← not_lt, place_shortest_lt_iff hn, hhigh]

end Bounds

section Exponents

/-- What has an exponent has its mark. -/
theorem RealText.mark_mem_chars_iff (text : RealText) :
    'e' ∈ text.chars ↔ text.exponent? ≠ none := by
  have hplain {cs : List Char} (h : ∀ c ∈ cs, isPlainDigit c = true) : 'e' ∉ cs :=
    fun hmem => absurd (h _ hmem) (by decide)
  have hwhole := hplain text.whole_plain
  have hfraction : 'e' ∉ fractionChars text.fraction := by
    unfold fractionChars
    split
    · simp
    · simp [hplain text.fraction_plain]
  cases hexponent : text.exponent? with
  | none => simp [chars, hexponent, hwhole, hfraction, exponentChars]
  | some part => simp [chars, hexponent, exponentChars]

theorem mark_notMem_dropZeros (n : Nat) : 'e' ∉ dropZeros (digitsText n) := by
  intro hmem
  obtain ⟨k, hzeros⟩ := exists_replicate_dropZeros (digitsText n)
  have hall : 'e' ∈ digitsText n := by
    rw [hzeros]
    exact List.mem_append_left _ hmem
  exact absurd (isPlainDigit_of_mem_toDigits hall) (by decide)

theorem mark_notMem_positional {ds : List Char} (h : 'e' ∉ ds) (place : Int) :
    'e' ∉ positional place ds := by
  unfold positional
  split
  · simp [h]
  · have htake (k : Nat) : 'e' ∉ ds.take k := fun hmem => h (List.mem_of_mem_take hmem)
    have hdrop (k : Nat) : 'e' ∉ ds.drop k := fun hmem => h (List.mem_of_mem_drop hmem)
    dsimp only
    split <;> simp [htake, hdrop]

/-- A decimal is written with an exponent just when its leading digit is out of the bounds of the
layout. -/
theorem mark_mem_write_iff (layout : Layout) (d : Decimal) : 'e' ∈ layout.write d ↔
    ¬(layout.lowestPlace ≤ d.place ∧ d.place < layout.placeLimit) := by
  have hdigits := mark_notMem_dropZeros d.digits
  rw [Decimal.place]
  simp only [Layout.write]
  split
  · next h => exact iff_of_false (mark_notMem_positional hdigits _) (not_not.mpr h)
  · next h => exact iff_of_true (by simp [scientific]) h

end Exponents

section Equality

variable {x y : Float} {q : ℚ}

open Float.Model (UnpackedFloat)

/-- A Number that is not NaN is equal to itself. -/
theorem beq_self_of_isNaN_eq_false (h : x.isNaN = false) : (x == x) = true := by
  have hnan : x.toModel.unpack ≠ .notANumber := by
    intro heq
    have htrue : x.isNaN = true := congrArg UnpackedFloat.isNaN heq
    rw [h] at htrue
    cases htrue
  exact (UnpackedFloat.beq_iff_ne_notANumber_and_eq _ _).mpr ⟨hnan, hnan, .inl rfl⟩

theorem isNaN_eq_false_of_value? (h : value? x = some q) : x.isNaN = false := by
  change unpackedValue? x.toModel.unpack = some q at h
  change x.toModel.unpack.isNaN = false
  generalize x.toModel.unpack = u at *
  cases u with
  | notANumber => cases h
  | _ => rfl

theorem rank_lt_of_value? (h : value? x = some q) : rank x < infiniteRank := by
  by_contra hfinite
  rw [value?_of_infiniteRank_le (Nat.not_lt.mp hfinite)] at h
  cases h

theorem units_div_nonneg (n : Nat) : (0 : ℚ) ≤ units n / unitsPerOne := by positivity

theorem units_div_inj {n m : Nat} (h : (units n / unitsPerOne : ℚ) = units m / unitsPerOne) :
    n = m := by
  rw [div_left_inj' unitsPerOne_pos.ne'] at h
  exact units_strictMono.injective (by exact_mod_cast h)

theorem eq_zero_of_units_div_eq {n : Nat} (h : (units n / unitsPerOne : ℚ) = 0) : n = 0 := by
  apply units_div_inj
  rw [h, units_zero, Nat.cast_zero, zero_div]

/-- Zero is equal to zero of the other sign. -/
theorem zero_beq_zero (negative negative' : Bool) :
    (ofRank negative 0 == ofRank negative' 0) = true := by
  cases negative <;> cases negative' <;> rfl

/-- The rank tells the magnitude of the value. -/
theorem units_div_eq_abs (h : value? x = some q) : (units (rank x) / unitsPerOne : ℚ) = |q| := by
  have hvalue := value?_of_lt (rank_lt_of_value? h)
  rw [h, Option.some.injEq] at hvalue
  have hnonneg := units_div_nonneg (rank x)
  rw [hvalue]
  split
  · rw [abs_neg, abs_of_nonneg hnonneg]
  · rw [abs_of_nonneg hnonneg]

/-- The sign of a Number is that of its value, unless it is zero. -/
theorem isNegative_eq (h : value? x = some q) (hq : q ≠ 0) : isNegative x = decide (q < 0) := by
  have hvalue := value?_of_lt (rank_lt_of_value? h)
  rw [units_div_eq_abs h, h, Option.some.injEq] at hvalue
  cases hsign : isNegative x with
  | false =>
      rw [hsign, if_neg Bool.false_ne_true] at hvalue
      have hnonneg : 0 ≤ q := hvalue ▸ abs_nonneg q
      exact (decide_eq_false hnonneg.not_gt).symm
  | true =>
      rw [if_pos hsign] at hvalue
      have hpos : 0 < |q| := abs_pos.mpr hq
      exact (decide_eq_true (by linarith)).symm

theorem rank_eq_zero (h : value? x = some 0) : rank x = 0 :=
  eq_zero_of_units_div_eq ((units_div_eq_abs h).trans abs_zero)

/-- Numbers of the same value are equal. -/
theorem beq_of_value?_eq (hx : value? x = some q) (hy : value? y = some q) : (x == y) = true := by
  by_cases hq : q = 0
  · subst hq
    rw [← ofRank_rank x, ← ofRank_rank y, rank_eq_zero hx, rank_eq_zero hy]
    exact zero_beq_zero _ _
  · have hsign : isNegative x = isNegative y :=
      (isNegative_eq hx hq).trans (isNegative_eq hy hq).symm
    have hrank : rank x = rank y :=
      units_div_inj ((units_div_eq_abs hx).trans (units_div_eq_abs hy).symm)
    rw [← ofRank_rank x, ← ofRank_rank y, hrank, hsign, ofRank_rank]
    exact beq_self_of_isNaN_eq_false (isNaN_eq_false_of_value? hy)

theorem units_div_eq (h : value? x = some q) (hq : 0 ≤ q) :
    (units (rank x) / unitsPerOne : ℚ) = q :=
  (units_div_eq_abs h).trans (abs_of_nonneg hq)

theorem isNegative_of_pos (h : value? x = some q) (hq : 0 < q) : isNegative x = false :=
  (isNegative_eq h hq.ne').trans (decide_eq_false hq.not_gt)

/-- A Number that is not negative is the positive one of its rank, but for the sign of zero. -/
theorem ofRank_beq (h : value? x = some q) (hq : 0 ≤ q) : (ofRank false (rank x) == x) = true := by
  have hx := ofRank_rank x
  rcases hq.eq_or_lt with rfl | hpos
  · rw [rank_eq_zero h] at hx ⊢
    rw [← hx]
    exact zero_beq_zero _ _
  · rw [isNegative_of_pos h hpos] at hx
    rw [hx]
    exact beq_self_of_isNaN_eq_false (isNaN_eq_false_of_value? h)

end Equality

section Texts

variable {x : Float} {q : ℚ}

theorem displayText_of_whole {k : Int} (h : wholeNumber? x = some k) (hk : k.natAbs < 10 ^ 21) :
    displayText x = integerText k := by
  have hfinite : rank x < infiniteRank := by
    by_contra hfinite
    simp [wholeNumber?, hfinite] at h
  simp only [displayText, h]
  rw [if_neg (by omega), if_neg (by omega)]
  exact if_pos hk

theorem displayText_of_finite (hfinite : rank x < infiniteRank)
    (h : ∀ k, wholeNumber? x = some k → 10 ^ 21 ≤ k.natAbs) : displayText x = exactText x := by
  simp only [displayText]
  rw [if_neg (by omega), if_neg (by omega)]
  split
  · next k hk => exact if_neg (Nat.not_lt.mpr (h k hk))
  · rfl

/-- A whole Number with at most 21 digits is displayed as these, which stand for it. -/
theorem displayText_eq_digits {k : Nat} (h : value? x = some (k : ℚ)) (hk : k < 10 ^ 21) :
    displayText x = String.ofList (digitsText k) ∧ (ofDecimal false k 0 == x) = true := by
  have hnonneg : (0 : ℚ) ≤ k := Nat.cast_nonneg k
  have hwhole : wholeNumber? x = some (k : Int) :=
    wholeNumber?_eq_some_iff.mpr (by rw [h, Int.cast_natCast])
  have hunits : units (rank x) = k * unitsPerOne := by
    have hquotient := units_div_eq h hnonneg
    rw [div_eq_iff unitsPerOne_pos.ne'] at hquotient
    exact_mod_cast hquotient
  have hnearest : Nearest (rank x) (k * tenNum 0 * unitsPerOne) (tenDen 0) := by
    have hself := nearest_units (rank x)
    rw [hunits] at hself
    rw [tenNum_of_neg le_rfl, tenDen_of_nonneg le_rfl, Nat.mul_one]
    exact hself
  constructor
  · rw [displayText_of_whole hwhole hk, integerText, if_neg (by omega), Int.natAbs_natCast,
      String.empty_append]
  · rw [ofDecimal, decimalRank_of_nearest (rank_lt_of_value? h) hnearest]
    exact ofRank_beq h hnonneg

theorem exactText_of_pos (hfinite : rank x < infiniteRank) (hzero : rank x ≠ 0)
    (hsign : isNegative x = false) :
    exactText x = String.ofList (Layout.exact.write (shortest (rank x))) := by
  simp only [exactText]
  rw [if_neg (by omega), if_neg (by omega), if_neg hzero, hsign]
  exact String.empty_append

/-- Every other positive Number is displayed exactly, and without an exponent just when it is
neither too small nor too large for a numeral. -/
theorem exists_realText_of_display (h : value? x = some q) (hq : 0 < q)
    (hlarge : ∀ k : Nat, q = k → 10 ^ 21 ≤ k) :
    ∃ text : RealText, displayText x = String.ofList text.chars ∧
      ofDecimal false text.digits text.exponent = x ∧
      (text.exponent? = none ↔ 1 / 10 ^ 4 ≤ q ∧ q < 10 ^ 21) := by
  have hfinite := rank_lt_of_value? h
  have hsign := isNegative_of_pos h hq
  have hunits := units_div_eq h hq.le
  have hzero : rank x ≠ 0 := by
    intro hzero
    rw [hzero, units_zero, Nat.cast_zero, zero_div] at hunits
    exact hq.ne hunits
  have hdisplay : displayText x = exactText x := by
    refine displayText_of_finite hfinite fun k hk => ?_
    have hvalue : q = (k : ℚ) := Option.some.inj (h.symm.trans (wholeNumber?_eq_some_iff.mp hk))
    have hpos : 0 < k := by exact_mod_cast hvalue ▸ hq
    obtain ⟨k, rfl⟩ := Int.eq_ofNat_of_zero_le hpos.le
    exact hlarge k (by simpa using hvalue)
  have hwhole (hnone : units (rank x) % unitsPerOne = 0) :
      (10 ^ 21 : ℚ) ≤ units (rank x) / unitsPerOne := by
    rw [← Nat.cast_div (Nat.dvd_of_mod_eq_zero hnone) unitsPerOne_pos.ne'] at hunits ⊢
    exact_mod_cast hlarge _ hunits.symm
  obtain ⟨text, htext, hvalue⟩ := exists_realText_of_finite hfinite
  rw [hsign] at htext hvalue
  have hplain : exactText x = String.ofList text.chars := htext.trans String.empty_append
  refine ⟨text, hdisplay.trans hplain, hvalue, ?_⟩
  have hchars : text.chars = Layout.exact.write (shortest (rank x)) :=
    String.ofList_injective (hplain.symm.trans (exactText_of_pos hfinite hzero hsign))
  have hmark := mark_mem_write_iff Layout.exact (shortest (rank x))
  rw [← hchars, text.mark_mem_chars_iff, not_iff_not] at hmark
  rw [← hunits]
  exact hmark.trans (place_shortest_mem_iff hzero hwhole)

end Texts

end Sprig.Numeric
