import Sprig.Json.Printer
import Sprig.Json.Reader
import Sprig.Proofs.Numeric.ReadBack

/-!
# Numbers are read back from their texts

A number is read as far as it goes, so what stands behind it must not go on with it. Then the text
of a Number is read as that Number, and the text of an integer as that integer when it has no more
digits than a reader takes.
-/

namespace Sprig.Json

open Numeric (isPlainDigit RealText)

/-- A text does not go on with a number that stands before it. -/
def Stops (rest : List Char) : Prop :=
  ∀ c ∈ rest.head?, isPlainDigit c = false ∧ c ≠ '.' ∧ c ≠ 'e' ∧ c ≠ 'E'

section Parts

variable {ds rest : List Char}

theorem splitDigits_append (hds : ∀ c ∈ ds, isPlainDigit c = true)
    (hrest : ∀ c ∈ rest.head?, isPlainDigit c = false) :
    splitDigits (ds ++ rest) = (ds, rest) := by
  have hstop : rest.takeWhile isPlainDigit = [] ∧ rest.dropWhile isPlainDigit = rest := by
    cases rest with
    | nil => simp
    | cons c rest =>
        have hc := hrest c (by simp)
        simp [hc]
  rw [splitDigits, List.takeWhile_append_of_pos hds, List.dropWhile_append_of_pos hds, hstop.1,
    hstop.2, List.append_nil]

/-- The fraction is what follows the point. -/
theorem splitFraction_fractionChars (hds : ∀ c ∈ ds, isPlainDigit c = true)
    (hrest : ∀ c ∈ rest.head?, isPlainDigit c = false ∧ c ≠ '.') :
    splitFraction (RealText.fractionChars ds ++ rest) = (ds, rest) := by
  have hsplit := splitDigits_append hds fun c hc => (hrest c hc).1
  by_cases hne : ds = []
  · subst hne
    rw [RealText.fractionChars, if_pos rfl, List.nil_append]
    cases rest with
    | nil => rfl
    | cons c rest =>
        have hc := (hrest c (by simp)).2
        unfold splitFraction
        split
        · next heq => exact absurd (List.cons.inj heq).1 hc
        · rfl
  · rw [RealText.fractionChars, if_neg hne, List.cons_append]
    simp only [splitFraction, hsplit]
    rw [if_neg hne]

/-- The exponent is what follows its mark. -/
theorem splitExponent_exponentChars (exponent? : Option (Bool × List Char))
    (hne : ∀ part ∈ exponent?, part.2 ≠ [])
    (hplain : ∀ part ∈ exponent?, ∀ c ∈ part.2, isPlainDigit c = true)
    (hrest : ∀ c ∈ rest.head?, isPlainDigit c = false ∧ c ≠ 'e' ∧ c ≠ 'E') :
    splitExponent (RealText.exponentChars exponent? ++ rest) =
      (exponent?.map fun part => RealText.exponentValue (some part), rest) := by
  cases exponent? with
  | none =>
      rw [RealText.exponentChars, List.nil_append]
      cases rest with
      | nil => rfl
      | cons c rest =>
          obtain ⟨-, hsmall, hlarge⟩ := hrest c (by simp)
          simp [splitExponent, hsmall, hlarge]
  | some part =>
      obtain ⟨negative, ds⟩ := part
      have hds := hplain _ rfl
      have hsplit := splitDigits_append hds fun c hc => (hrest c hc).1
      have hsign : Numeric.splitSign ((if negative then '-' else '+') :: (ds ++ rest)) =
          (negative, ds ++ rest) := by cases negative <;> rfl
      simp only [RealText.exponentChars, List.cons_append, splitExponent, hsign, hsplit]
      rw [if_pos (.inl trivial), if_neg (hne _ rfl), Numeric.digitsValue_of_plain hds]
      rfl

end Parts

section Numbers

variable (start : List Char) (negative : Bool) {rest : List Char}

/-- A number is read part by part. -/
theorem readNumber_parts {whole fraction tail tail' : List Char} {exponent? : Option Int}
    (hne : whole ≠ []) (hplain : ∀ c ∈ whole, isPlainDigit c = true)
    (hzero : whole.head? = some '0' → whole = ['0'])
    (htail : ∀ c ∈ tail.head?, isPlainDigit c = false)
    (hfraction : splitFraction tail = (fraction, tail'))
    (hexponent : splitExponent tail' = (exponent?, rest)) :
    readNumber start negative (whole ++ tail) =
      let digits := Numeric.digitsValue (Numeric.digitValues (whole ++ fraction))
      if fraction = [] ∧ exponent? = none then
        if Numeric.maxIntegerDigits < whole.length then flaw (.integerTooLong whole.length) start
        else .ok (.integer (if negative then -digits else digits), rest)
      else
        .ok (.number (Numeric.ofDecimal negative digits (exponent?.getD 0 - fraction.length)),
          rest) := by
  by_cases hsingle : whole = ['0']
  · subst hsingle
    simp only [List.cons_append, List.nil_append, readNumber, hfraction, hexponent]
    rw [if_neg (List.cons_ne_nil _ _)]
  · rw [readNumber, splitDigits_append hplain htail]
    · simp only [hfraction, hexponent]
      rw [if_neg hne]
    · intro rest heq
      obtain ⟨c, cs, rfl⟩ := List.exists_cons_of_ne_nil hne
      obtain ⟨rfl, -⟩ := List.cons.inj heq
      exact hsingle (hzero rfl)

/-- What stands behind a fraction does not go on with it. -/
theorem stops_exponentChars (exponent? : Option (Bool × List Char)) (hrest : Stops rest) :
    ∀ c ∈ (RealText.exponentChars exponent? ++ rest).head?, isPlainDigit c = false ∧ c ≠ '.' := by
  intro c hc
  cases exponent? with
  | none => exact ⟨(hrest c hc).1, (hrest c hc).2.1⟩
  | some part =>
      obtain rfl : 'e' = c := by simpa [RealText.exponentChars] using hc
      decide

/-- What stands behind the whole part does not go on with it. -/
theorem stops_fractionChars (fraction : List Char) {tail : List Char}
    (htail : ∀ c ∈ tail.head?, isPlainDigit c = false) :
    ∀ c ∈ (RealText.fractionChars fraction ++ tail).head?, isPlainDigit c = false := by
  intro c hc
  by_cases hne : fraction = []
  · rw [RealText.fractionChars, if_pos hne, List.nil_append] at hc
    exact htail c hc
  · rw [RealText.fractionChars, if_neg hne] at hc
    obtain rfl : '.' = c := by simpa using hc
    decide

/-- A real number is read as the Number nearest to its value. -/
theorem readNumber_realText (text : RealText) (hrest : Stops rest) :
    readNumber start negative (text.chars ++ rest) =
      .ok (.number (Numeric.ofDecimal negative text.digits text.exponent), rest) := by
  have htail := stops_exponentChars text.exponent? hrest
  have hreal : ¬ (text.fraction = [] ∧
      (text.exponent?.map fun part => RealText.exponentValue (some part)) = none) := by
    rintro ⟨hnone, hnone'⟩
    exact text.real.elim (· hnone) (· (Option.map_eq_none_iff.mp hnone'))
  have hdigits : Numeric.digitsValue (Numeric.digitValues (text.whole ++ text.fraction)) =
      text.digits :=
    Numeric.digitsValue_of_plain (Numeric.plain_append text.whole_plain text.fraction_plain)
  have hplace : (text.exponent?.map fun part => RealText.exponentValue (some part)).getD 0 -
      text.fraction.length = text.exponent := by
    cases h : text.exponent? <;> simp [RealText.exponent, RealText.exponentValue, h]
  rw [RealText.chars, List.append_assoc, List.append_assoc,
    readNumber_parts start negative text.whole_ne text.whole_plain text.no_leading_zero
      (stops_fractionChars text.fraction fun c hc => (htail c hc).1)
      (splitFraction_fractionChars text.fraction_plain htail)
      (splitExponent_exponentChars text.exponent? text.exponent_ne text.exponent_plain
        fun c hc => ⟨(hrest c hc).1, (hrest c hc).2.2⟩)]
  dsimp only
  rw [if_neg hreal, hdigits, hplace]

/-- Digits alone are read as an integer. -/
theorem readNumber_digits (n : Nat) (hshort : (Nat.toDigits 10 n).length ≤ Numeric.maxIntegerDigits)
    (hrest : Stops rest) : readNumber start negative (Nat.toDigits 10 n ++ rest) =
      .ok (.integer (if negative then -n else n), rest) := by
  have hplain : ∀ c ∈ Nat.toDigits 10 n, isPlainDigit c = true :=
    fun c hc => Numeric.isPlainDigit_of_mem_toDigits hc
  have hzero : (Nat.toDigits 10 n).head? = some '0' → Nat.toDigits 10 n = ['0'] := by
    intro h
    obtain rfl : n = 0 := by
      by_contra hn
      exact Numeric.head?_toDigits_ne hn h
    rfl
  have hfraction : splitFraction rest = ([], rest) :=
    splitFraction_fractionChars (List.forall_mem_nil _)
      fun c hc => ⟨(hrest c hc).1, (hrest c hc).2.1⟩
  have hexponent : splitExponent rest = (none, rest) :=
    splitExponent_exponentChars none (fun _ h => nomatch h) (fun _ h => nomatch h)
      fun c hc => ⟨(hrest c hc).1, (hrest c hc).2.2⟩
  rw [readNumber_parts start negative Nat.toDigits_ne_nil hplain hzero
    (fun c hc => (hrest c hc).1) hfraction hexponent]
  dsimp only
  rw [if_pos ⟨rfl, rfl⟩, if_neg (by omega), List.append_nil, Numeric.digitsValue_of_plain hplain,
    Nat.ofDigitChars_ten_toDigits]

end Numbers

section Scalars

variable {c : Char} {cs rest : List Char}

theorem readScalar_of_digit (h : isPlainDigit c = true) :
    readScalar (c :: cs) = readNumber (c :: cs) false (c :: cs) := by
  have hne {d : Char} (hd : isPlainDigit d = false) : c ≠ d := Numeric.ne_of_isPlainDigit h hd
  unfold readScalar
  split <;> rename_i heq <;> first
    | exact absurd (List.cons.inj heq).1 (hne (by decide))
    | rfl

theorem readScalar_of_minus (h : isPlainDigit c = true) :
    readScalar ('-' :: c :: cs) = readNumber ('-' :: c :: cs) true (c :: cs) := by
  have hI : c ≠ 'I' := Numeric.ne_of_isPlainDigit h (by decide)
  unfold readScalar
  split <;> rename_i heq <;> first
    | exact absurd (List.cons.inj heq).1 (by decide)
    | exact absurd (List.cons.inj (List.cons.inj heq).2).1 hI
    | rw [(List.cons.inj heq).2]
    | exact absurd rfl (heq _)

/-- A signed number is read by its digits. -/
theorem readScalar_signed (negative : Bool) (cs : List Char)
    (h : ∀ c ∈ cs.head?, isPlainDigit c = true) (hne : cs ≠ []) : ∃ start,
      readScalar ((if negative then ['-'] else []) ++ cs) = readNumber start negative cs := by
  obtain ⟨c, cs, rfl⟩ := List.exists_cons_of_ne_nil hne
  have hc := h c rfl
  cases negative with
  | false => exact ⟨_, readScalar_of_digit hc⟩
  | true => exact ⟨_, readScalar_of_minus hc⟩

end Scalars

section Texts

variable {rest : List Char}

theorem realText_head (text : RealText) : ∃ c cs, text.chars = c :: cs ∧ isPlainDigit c = true := by
  obtain ⟨c, cs, hwhole⟩ := List.exists_cons_of_ne_nil text.whole_ne
  refine ⟨c, cs ++ RealText.fractionChars text.fraction ++ RealText.exponentChars text.exponent?,
    ?_, text.whole_plain c (by simp [hwhole])⟩
  simp [RealText.chars, hwhole]

theorem toList_sign (negative : Bool) :
    (if negative then "-" else "").toList = if negative then ['-'] else [] := by
  cases negative <;> rfl

/-- The text of a finite Number is no name. -/
theorem numberText_of_realText {x : Float} {text : RealText} (htext : Numeric.exactText x =
    (if Numeric.isNegative x then "-" else "") ++ String.ofList text.chars) :
    (numberText x).toList = (if Numeric.isNegative x then ['-'] else []) ++ text.chars := by
  obtain ⟨c, cs, hchars, hc⟩ := realText_head text
  have hlist : (Numeric.exactText x).toList =
      (if Numeric.isNegative x then ['-'] else []) ++ c :: cs := by
    rw [htext, String.toList_append, String.toList_ofList, toList_sign, hchars]
  have hi : c ≠ 'i' := Numeric.ne_of_isPlainDigit hc (by decide)
  have hn : c ≠ 'n' := Numeric.ne_of_isPlainDigit hc (by decide)
  have hminus : c ≠ '-' := Numeric.ne_of_isPlainDigit hc (by decide)
  have hinf : Numeric.exactText x ≠ "inf" := by
    rw [ne_eq, ← String.toList_inj, hlist]
    cases Numeric.isNegative x <;> simp [hi]
  have hneg : Numeric.exactText x ≠ "-inf" := by
    rw [ne_eq, ← String.toList_inj, hlist]
    cases Numeric.isNegative x <;> simp [hi, hminus]
  have hnan : Numeric.exactText x ≠ "nan" := by
    rw [ne_eq, ← String.toList_inj, hlist]
    cases Numeric.isNegative x <;> simp [hn]
  simp only [numberText]
  rw [if_neg hinf, if_neg hneg, if_neg hnan, hlist, hchars]

/-- A Number is read back from its text. -/
theorem readScalar_numberText (x : Float) (hrest : Stops rest) :
    readScalar ((numberText x).toList ++ rest) = .ok (.number x, rest) := by
  rcases lt_trichotomy (Numeric.rank x) Numeric.infiniteRank with hfinite | hinfinite | hnan
  · obtain ⟨text, htext, hvalue⟩ := Numeric.exists_realText_of_finite hfinite
    obtain ⟨c, cs, hchars, hc⟩ := realText_head text
    obtain ⟨start, hstart⟩ := readScalar_signed (Numeric.isNegative x) (text.chars ++ rest)
      (by simp [hchars, hc]) (by simp [hchars])
    rw [numberText_of_realText htext, List.append_assoc, hstart, readNumber_realText _ _ _ hrest,
      hvalue]
  · have hx := Numeric.ofRank_rank x
    rw [hinfinite] at hx
    have htext : numberText x = if Numeric.isNegative x then "-Infinity" else "Infinity" := by
      simp only [numberText, Numeric.exactText, hinfinite]
      cases Numeric.isNegative x <;> rfl
    rw [htext]
    cases hsign : Numeric.isNegative x <;> rw [hsign] at hx <;> rw [← hx] <;> rfl
  · have hx := Numeric.eq_of_infiniteRank_lt hnan
    have htext : numberText x = "NaN" := by
      simp only [numberText, Numeric.exactText]
      rw [if_pos hnan]
      rfl
    rw [htext, hx]
    rfl

/-- An integer is read back from its text when it is not too long. -/
theorem readScalar_integerText (k : Int)
    (hshort : (Nat.toDigits 10 k.natAbs).length ≤ Numeric.maxIntegerDigits) (hrest : Stops rest) :
    readScalar ((Numeric.integerText k).toList ++ rest) = .ok (.integer k, rest) := by
  obtain ⟨start, hstart⟩ := readScalar_signed (k < 0) (Nat.toDigits 10 k.natAbs ++ rest) (by
      intro c hc
      rw [List.head?_append_of_ne_nil _ Nat.toDigits_ne_nil] at hc
      exact Numeric.isPlainDigit_of_mem_toDigits (List.mem_of_mem_head? hc)) (by simp)
  have htext : (Numeric.integerText k).toList =
      (if decide (k < 0) = true then ['-'] else []) ++ Nat.toDigits 10 k.natAbs := by
    rw [← toList_sign, Numeric.integerText, String.toList_append, String.toList_ofList,
      Numeric.digitsText]
    simp only [decide_eq_true_eq]
  rw [htext, List.append_assoc, hstart, readNumber_digits _ _ _ hshort hrest]
  congr 3
  simp only [decide_eq_true_eq]
  split <;> omega

end Texts

end Sprig.Json
