import Mathlib.Data.List.Basic
import Mathlib.Data.List.TakeWhile
import Mathlib.Tactic.Ring
import Sprig.Numeric.Layout
import Sprig.Proofs.Numeric.Numeral

/-!
# The texts of decimals

A decimal is written as digits with a fraction, an exponent, or both. However its digits are laid
out, the text has the value of the decimal: zeros that were dropped at its end come back in the
exponent, and zeros that were filled in are counted by the length of the fraction.
-/

namespace Sprig.Numeric

/-- The parts of the text of a real number without a sign. The whole part starts with zero only if
it is zero alone. -/
structure RealText where
  /-- The digits before the point. -/
  whole : List Char
  /-- The digits behind the point; there is no point without them. -/
  fraction : List Char
  /-- Whether the exponent is negative, and its digits. -/
  exponent? : Option (Bool × List Char)
  whole_ne : whole ≠ []
  whole_plain : ∀ c ∈ whole, isPlainDigit c = true
  no_leading_zero : whole.head? = some '0' → whole = ['0']
  fraction_plain : ∀ c ∈ fraction, isPlainDigit c = true
  exponent_ne : ∀ part ∈ exponent?, part.2 ≠ []
  exponent_plain : ∀ part ∈ exponent?, ∀ c ∈ part.2, isPlainDigit c = true
  real : fraction ≠ [] ∨ exponent? ≠ none

namespace RealText

/-- The exponent of a real number as text. -/
def exponentChars : Option (Bool × List Char) → List Char
  | none => []
  | some (negative, ds) => 'e' :: (if negative then '-' else '+') :: ds

/-- The fraction of a real number as text. -/
def fractionChars (ds : List Char) : List Char := if ds = [] then [] else '.' :: ds

/-- The text. -/
def chars (text : RealText) : List Char :=
  text.whole ++ fractionChars text.fraction ++ exponentChars text.exponent?

/-- The number that the digits of the text stand for. -/
def digits (text : RealText) : Nat := Nat.ofDigitChars 10 (text.whole ++ text.fraction) 0

/-- The value of an exponent. -/
def exponentValue : Option (Bool × List Char) → Int
  | none => 0
  | some (negative, ds) =>
    if negative then -(Nat.ofDigitChars 10 ds 0 : Int) else Nat.ofDigitChars 10 ds 0

/-- The place of the last digit of the text. -/
def exponent (text : RealText) : Int := exponentValue text.exponent? - text.fraction.length

/-- The text has the value of a decimal. -/
def HasValue (text : RealText) (d : Decimal) : Prop :=
  d.digits * tenNum d.exponent * tenDen text.exponent =
    text.digits * tenNum text.exponent * tenDen d.exponent

end RealText

section Digits

theorem digitValue?_of_plain {c : Char} (h : isPlainDigit c = true) :
    Text.digitValue? c = some (c.toNat - '0'.toNat) := by
  rw [plainDigit_iff] at h
  have hfound : Text.digitZeros.find? (fun base => base ≤ c.toNat ∧ c.toNat < base + 10) =
      some 0x30 := by
    rw [Text.digitZeros, List.find?_cons_of_pos]
    simp only [decide_eq_true_eq]
    omega
  rw [Text.digitValue?, hfound]
  rfl

/-- Plain digits stand for the number that they spell in base ten. -/
theorem digitsValue_of_plain {cs : List Char} (h : ∀ c ∈ cs, isPlainDigit c = true) :
    digitsValue (digitValues cs) = Nat.ofDigitChars 10 cs 0 := by
  have hvalues : digitValues cs = cs.map fun c => c.toNat - '0'.toNat := by
    apply List.filterMap_eq_map_iff_forall_eq_some.mpr
    exact fun c hc => digitValue?_of_plain (h c hc)
  rw [hvalues, digitsValue, List.foldl_map]
  rfl

theorem isPlainDigit_of_mem_toDigits {n : Nat} {c : Char} (h : c ∈ Nat.toDigits 10 n) :
    isPlainDigit c = true := by
  have hdigit := Nat.isDigit_of_mem_toDigits (by decide) (by decide) h
  simpa [Char.isDigit, isPlainDigit, Char.le_def] using hdigit

/-- A number does not start with zero. -/
theorem head?_toDigits_ne {n : Nat} (h : n ≠ 0) : (Nat.toDigits 10 n).head? ≠ some '0' := by
  induction n using Nat.strongRecOn with
  | ind n ih =>
      by_cases hsmall : n < 10
      · rw [Nat.toDigits_of_lt_base hsmall]
        simpa using h
      · rw [Nat.toDigits_of_base_le (by decide) (by omega), List.head?_append_of_ne_nil _
          Nat.toDigits_ne_nil]
        exact ih (n / 10) (by omega) (by omega)

/-- The zeros at the end of digits can be put back. -/
theorem exists_replicate_dropZeros (ds : List Char) :
    ∃ k, ds = dropZeros ds ++ List.replicate k '0' := by
  refine ⟨(ds.reverse.takeWhile (· = '0')).length, ?_⟩
  have hzeros : ds.reverse.takeWhile (· = '0') =
      List.replicate (ds.reverse.takeWhile (· = '0')).length '0' := by
    apply List.eq_replicate_of_mem
    intro c hc
    simpa using List.mem_takeWhile_imp hc
  apply List.reverse_injective
  rw [dropZeros, List.reverse_append, List.reverse_reverse, List.reverse_replicate, ← hzeros,
    List.takeWhile_append_dropWhile]

end Digits

namespace RealText

variable {text : RealText} {d : Decimal}

/-- Zeros behind the digits are made up for by the exponent. -/
theorem hasValue_of_zeros {v j k : Nat} (hd : d.digits = 10 ^ k * v) (ht : text.digits = 10 ^ j * v)
    (hexponent : text.exponent + j = d.exponent + k) : text.HasValue d := by
  have hpow : 10 ^ k * tenNum d.exponent * tenDen text.exponent =
      10 ^ j * tenNum text.exponent * tenDen d.exponent := by
    simp only [tenNum, tenDen, Nat.pow_eq, ← pow_add]
    congr 1
    omega
  rw [HasValue, hd, ht]
  calc 10 ^ k * v * tenNum d.exponent * tenDen text.exponent =
        10 ^ k * tenNum d.exponent * tenDen text.exponent * v := by ring
    _ = 10 ^ j * v * tenNum text.exponent * tenDen d.exponent := by
        rw [hpow]
        ring

end RealText

section Layouts

variable {d : Decimal} {ds : List Char} {k : Nat}

/-- Zeros in front of digits count for nothing. -/
theorem ofDigitChars_zeros (n : Nat) (ds : List Char) :
    Nat.ofDigitChars 10 (List.replicate n '0' ++ ds) 0 = Nat.ofDigitChars 10 ds 0 := by
  rw [Nat.ofDigitChars_append, Nat.ofDigitChars_replicate_zero, Nat.mul_zero]

theorem isPlainDigit_zero : isPlainDigit '0' = true := by decide

theorem plain_append {cs cs' : List Char} (h : ∀ c ∈ cs, isPlainDigit c = true)
    (h' : ∀ c ∈ cs', isPlainDigit c = true) : ∀ c ∈ cs ++ cs', isPlainDigit c = true :=
  List.forall_mem_append.mpr ⟨h, h'⟩

theorem plain_replicate (n : Nat) : ∀ c ∈ List.replicate n '0', isPlainDigit c = true := by
  intro c hc
  rw [List.eq_of_mem_replicate hc]
  exact isPlainDigit_zero

/-- A number that is less than one has all its digits in the fraction. -/
theorem exists_small (hplain : ∀ c ∈ ds, isPlainDigit c = true) (hne : ds ≠ [])
    (hdigits : d.digits = 10 ^ k * Nat.ofDigitChars 10 ds 0) {place : Int} (hplace : place < 0)
    (hlast : place + 1 - ds.length = d.exponent + k) :
    ∃ text : RealText, text.chars = positional place ds ∧ text.HasValue d := by
  let text : RealText := {
    whole := ['0']
    fraction := List.replicate (-place - 1).toNat '0' ++ ds
    exponent? := none
    whole_ne := by simp
    whole_plain := by simpa using isPlainDigit_zero
    no_leading_zero := fun _ => rfl
    fraction_plain := plain_append (plain_replicate _) hplain
    exponent_ne := by simp
    exponent_plain := by simp
    real := .inl (by simp [hne]) }
  refine ⟨text, ?_, RealText.hasValue_of_zeros (j := 0) hdigits ?_ ?_⟩
  · simp [RealText.chars, RealText.fractionChars, RealText.exponentChars, positional, hplace, hne,
      text]
  · rw [pow_zero, one_mul]
    exact (ofDigitChars_zeros 1 _).trans (ofDigitChars_zeros _ ds)
  · simp only [RealText.exponent, RealText.exponentValue, text, List.length_append,
      List.length_replicate]
    omega

/-- A number whose digits end before the point is filled up with zeros. -/
theorem exists_whole (hplain : ∀ c ∈ ds, isPlainDigit c = true) (hne : ds ≠ [])
    (hhead : ds.head? ≠ some '0') (hdigits : d.digits = 10 ^ k * Nat.ofDigitChars 10 ds 0)
    {place : Int} (hplace : ds.length ≤ place.toNat + 1) (hsign : 0 ≤ place)
    (hlast : place + 1 - ds.length = d.exponent + k) :
    ∃ text : RealText, text.chars = positional place ds ∧ text.HasValue d := by
  let text : RealText := {
    whole := ds ++ List.replicate (place.toNat + 1 - ds.length) '0'
    fraction := ['0']
    exponent? := none
    whole_ne := by simp [hne]
    whole_plain := plain_append hplain (plain_replicate _)
    no_leading_zero := fun h => absurd (List.head?_append_of_ne_nil _ hne ▸ h) hhead
    fraction_plain := by simpa using isPlainDigit_zero
    exponent_ne := by simp
    exponent_plain := by simp
    real := .inl (by simp) }
  refine ⟨text, ?_, RealText.hasValue_of_zeros (j := place.toNat + 1 - ds.length + 1) hdigits ?_ ?_⟩
  · have hnot : ¬ place < 0 := by omega
    simp [RealText.chars, RealText.fractionChars, RealText.exponentChars, positional, hnot, hplace,
      List.take_of_length_le hplace, text]
  · have hzeros : text.whole ++ text.fraction =
        ds ++ List.replicate (place.toNat + 1 - ds.length + 1) '0' := by
      simp [text, List.replicate_succ']
    rw [RealText.digits, hzeros, Nat.ofDigitChars_append, Nat.ofDigitChars_replicate_zero]
  · simp only [RealText.exponent, RealText.exponentValue, text, List.length_singleton]
    omega

/-- A number whose digits go on behind the point is cut there. -/
theorem exists_cut (hplain : ∀ c ∈ ds, isPlainDigit c = true) (hhead : ds.head? ≠ some '0')
    (hdigits : d.digits = 10 ^ k * Nat.ofDigitChars 10 ds 0) {place : Int}
    (hplace : place.toNat + 1 < ds.length) (hsign : 0 ≤ place)
    (hlast : place + 1 - ds.length = d.exponent + k) :
    ∃ text : RealText, text.chars = positional place ds ∧ text.HasValue d := by
  have hdrop : ds.drop (place.toNat + 1) ≠ [] := by simpa using hplace
  let text : RealText := {
    whole := ds.take (place.toNat + 1)
    fraction := ds.drop (place.toNat + 1)
    exponent? := none
    whole_ne := by
      intro h
      have hlength := congrArg List.length h
      simp only [List.length_take, List.length_nil] at hlength
      omega
    whole_plain := fun c hc => hplain c (List.mem_of_mem_take hc)
    no_leading_zero := fun h => absurd (by simpa [List.head?_take] using h) hhead
    fraction_plain := fun c hc => hplain c (List.mem_of_mem_drop hc)
    exponent_ne := by simp
    exponent_plain := by simp
    real := .inl hdrop }
  refine ⟨text, ?_, RealText.hasValue_of_zeros (j := 0) hdigits ?_ ?_⟩
  · have hnot : ¬ place < 0 := by omega
    have hlong : place.toNat + 1 - ds.length = 0 := by omega
    have hwide : ¬ ds.length ≤ place.toNat + 1 := by omega
    simp [RealText.chars, RealText.fractionChars, RealText.exponentChars, positional, hnot, hlong,
      hwide, hdrop, text]
  · rw [pow_zero, one_mul, RealText.digits, List.take_append_drop]
  · simp only [RealText.exponent, RealText.exponentValue, text, List.length_drop]
    omega

/-- A number with an exponent has one digit before the point. -/
theorem exists_scientific (hplain : ∀ c ∈ ds, isPlainDigit c = true) (hne : ds ≠ [])
    (hhead : ds.head? ≠ some '0') (hdigits : d.digits = 10 ^ k * Nat.ofDigitChars 10 ds 0)
    (width : Nat) {place : Int} (hlast : place + 1 - ds.length = d.exponent + k) :
    ∃ text : RealText, text.chars = scientific width place ds ∧ text.HasValue d := by
  obtain ⟨c, cs, rfl⟩ := List.exists_cons_of_ne_nil hne
  let text : RealText := {
    whole := [c]
    fraction := cs
    exponent? := some (place < 0,
      List.replicate (width - (digitsText place.natAbs).length) '0' ++ digitsText place.natAbs)
    whole_ne := by simp
    whole_plain := fun c' hc => hplain c' (by simp_all)
    no_leading_zero := fun h => absurd h hhead
    fraction_plain := fun c' hc => hplain c' (by simp [hc])
    exponent_ne := by simp [digitsText]
    exponent_plain := by
      simp only [Option.mem_some_iff, forall_eq']
      exact plain_append (plain_replicate _) fun c hc => isPlainDigit_of_mem_toDigits hc
    real := .inr (by simp) }
  refine ⟨text, ?_, RealText.hasValue_of_zeros (j := 0) hdigits ?_ ?_⟩
  · cases cs <;> simp [RealText.chars, RealText.fractionChars, RealText.exponentChars, scientific,
      text]
  · rw [pow_zero, one_mul]
    rfl
  · simp only [RealText.exponent, RealText.exponentValue, text, ofDigitChars_zeros, digitsText,
      Nat.ofDigitChars_ten_toDigits, decide_eq_true_eq, List.length_cons] at hlast ⊢
    split <;> omega

/-- A positive decimal is written as a text of its value, in every layout. -/
theorem Layout.exists_realText (layout : Layout) (hpositive : d.digits ≠ 0) :
    ∃ text : RealText, text.chars = layout.write d ∧ text.HasValue d := by
  obtain ⟨k, hzeros⟩ := exists_replicate_dropZeros (digitsText d.digits)
  have hplain : ∀ c ∈ dropZeros (digitsText d.digits), isPlainDigit c = true := by
    intro c hc
    apply isPlainDigit_of_mem_toDigits (n := d.digits)
    change c ∈ digitsText d.digits
    rw [hzeros]
    exact List.mem_append_left _ hc
  have hdigits : d.digits = 10 ^ k * Nat.ofDigitChars 10 (dropZeros (digitsText d.digits)) 0 := by
    have hvalue : Nat.ofDigitChars 10 (digitsText d.digits) 0 = d.digits :=
      Nat.ofDigitChars_ten_toDigits
    rw [hzeros, Nat.ofDigitChars_append, Nat.ofDigitChars_replicate_zero] at hvalue
    exact hvalue.symm
  have hne : dropZeros (digitsText d.digits) ≠ [] := by
    intro hnil
    rw [hnil, Nat.ofDigitChars_nil, Nat.mul_zero] at hdigits
    exact hpositive hdigits
  have hhead : (dropZeros (digitsText d.digits)).head? ≠ some '0' := by
    intro hzero
    apply head?_toDigits_ne hpositive
    change (digitsText d.digits).head? = some '0'
    rw [hzeros, List.head?_append_of_ne_nil _ hne]
    exact hzero
  have hlength : (digitsText d.digits).length = (dropZeros (digitsText d.digits)).length + k := by
    conv_lhs => rw [hzeros]
    simp
  simp only [Layout.write]
  generalize dropZeros (digitsText d.digits) = ds at *
  have hlast : d.exponent + (digitsText d.digits).length - 1 + 1 - ds.length = d.exponent + k := by
    omega
  generalize d.exponent + (digitsText d.digits).length - 1 = place at *
  split
  · rcases lt_or_ge place 0 with hsmall | hsign
    · exact exists_small hplain hne hdigits hsmall hlast
    · rcases lt_or_ge (place.toNat + 1) ds.length with hlong | hshort
      · exact exists_cut hplain hhead hdigits hlong hsign hlast
      · exact exists_whole hplain hne hhead hdigits hshort hsign hlast
  · exact exists_scientific hplain hne hhead hdigits layout.exponentWidth hlast

end Layouts

end Sprig.Numeric
