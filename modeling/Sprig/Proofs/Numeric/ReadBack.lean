import Mathlib
import Sprig.Proofs.Numeric.Nearest
import Sprig.Proofs.Numeric.Writing

/-!
# Numbers are read back from their texts

A finite Number is written as the shortest decimal that rounds to it, so whatever has the value of
that decimal is read as the Number again. Infinity has a name, and so has NaN, which is a single
value.
-/

namespace Sprig.Numeric

/-- A Number is its sign and its rank. -/
theorem ofRank_rank (x : Float) : ofRank (isNegative x) (rank x) = x := by
  have hbits : x.toBits.toNat < 2 * signBit := x.toBits.toNat_lt
  have hsum : (if isNegative x then signBit + rank x else rank x) = x.toBits.toNat := by
    simp only [isNegative, rank, decide_eq_true_eq]
    split <;> simp only [signBit] at * <;> omega
  rw [ofRank, hsum, UInt64.ofNat_toNat, Float.ofBits_toBits]

open Float.Model in
/-- There is one NaN: a value with a NaN's exponent and fraction has the bits of that one. -/
theorem eq_of_infiniteRank_lt {x : Float} (h : infiniteRank < rank x) :
    x = ofRank false nanRank := by
  have hbits : x.toBits.toNat < 2 * signBit := x.toBits.toNat_lt
  simp only [rank, infiniteRank, fractionCount, signBit] at h hbits
  have hexponent :
      @UnpackedFloat.unpackExponent Format.binary64 x.toBits.toBitVec = -1#11 := by
    have hones : (-1#11).toNat = 2047 := by decide
    rw [UnpackedFloat.unpackExponent_def, ← BitVec.toNat_inj, BitVec.extractLsb'_toNat,
      UInt64.toNat_toBitVec, Nat.shiftRight_eq_div_pow]
    norm_num [hones]
    omega
  have hmantissa :
      @UnpackedFloat.unpackMantissa Format.binary64 x.toBits.toBitVec ≠ 0#52 := by
    rw [UnpackedFloat.unpackMantissa_def, ne_eq, ← BitVec.toNat_inj, BitVec.extractLsb'_toNat,
      UInt64.toNat_toBitVec, Nat.shiftRight_zero]
    norm_num
    omega
  have hpacked : x.toBits.toBitVec = UnpackedFloat.packedNaN Format.binary64 :=
    x.toModel.valid.eq_packedNaN hexponent hmantissa
  have hnan : x.toBits = UInt64.ofNat nanRank := by
    rw [← UInt64.toBitVec_inj, hpacked]
    decide
  rw [← Float.ofBits_toBits x, hnan]
  rfl

/-- The text of zero. -/
def zeroText : RealText where
  whole := ['0']
  fraction := ['0']
  exponent? := none
  whole_ne := by simp
  whole_plain := by simpa using isPlainDigit_zero
  no_leading_zero := fun _ => rfl
  fraction_plain := by simpa using isPlainDigit_zero
  exponent_ne := by simp
  exponent_plain := by simp
  real := .inl (by simp)

/-- A finite Number is written as a sign and a text that rounds to it. -/
theorem exists_realText_of_finite {x : Float} (h : rank x < infiniteRank) :
    ∃ text : RealText,
      exactText x = (if isNegative x then "-" else "") ++ String.ofList text.chars ∧
        ofDecimal (isNegative x) text.digits text.exponent = x := by
  by_cases hzero : rank x = 0
  · refine ⟨zeroText, ?_, ?_⟩
    · simp only [exactText]
      rw [if_neg (by omega), if_neg (by omega), if_pos hzero]
      rfl
    · have hrank : decimalRank zeroText.digits zeroText.exponent = rank x := by
        rw [hzero]
        rfl
      rw [ofDecimal, hrank, ofRank_rank]
  · obtain ⟨text, hchars, hvalue⟩ := Layout.exact.exists_realText (d := shortest (rank x)) (by
      intro hdigits
      have hnearest := nearest_of_roundsTo (roundsTo_shortest (rank x))
      rw [hdigits, Nat.zero_mul, Nat.zero_mul] at hnearest
      exact hzero (hnearest.eq_zero (tenDen_pos _)))
    refine ⟨text, ?_, ?_⟩
    · simp only [exactText]
      rw [if_neg (by omega), if_neg (by omega), if_neg hzero, hchars]
    · rw [ofDecimal, decimalRank_of_roundsTo h (roundsTo_shortest (rank x)) hvalue, ofRank_rank]

section Characters

/-- The text of a real number is made of digits and signs. -/
theorem mem_chars {text : RealText} {c : Char} (h : c ∈ text.chars) :
    isPlainDigit c = true ∨ c ∈ ['.', 'e', '-', '+'] := by
  simp only [RealText.chars, List.mem_append] at h
  rcases h with (h | h) | h
  · exact .inl (text.whole_plain c h)
  · rw [RealText.fractionChars] at h
    split at h
    · cases h
    · rcases List.mem_cons.mp h with rfl | h
      · exact .inr (by decide)
      · exact .inl (text.fraction_plain c h)
  · cases hpart : text.exponent? with
    | none =>
        rw [hpart] at h
        cases h
    | some part =>
        rw [hpart, RealText.exponentChars] at h
        rcases List.mem_cons.mp h with rfl | h
        · exact .inr (by decide)
        rcases List.mem_cons.mp h with rfl | h
        · exact .inr (by cases part.1 <;> decide)
        · exact .inl (text.exponent_plain part hpart c h)

/-- The text of a Number is made of digits and signs, unless it is a name. -/
theorem mem_exactText {x : Float} {c : Char} (h : c ∈ (exactText x).toList) :
    isPlainDigit c = true ∨ c ∈ ['.', 'e', '-', '+', 'i', 'n', 'f', 'a'] := by
  rcases lt_trichotomy (rank x) infiniteRank with hfinite | hinfinite | hnan
  · obtain ⟨text, htext, -⟩ := exists_realText_of_finite hfinite
    rw [htext, String.toList_append, String.toList_ofList, List.mem_append] at h
    rcases h with h | h
    · cases hsign : isNegative x <;> rw [hsign] at h
      · cases h
      · exact .inr (by obtain rfl := List.mem_singleton.mp h; decide)
    · rcases mem_chars h with h | h
      · exact .inl h
      · exact .inr (by simp only [List.mem_cons] at h ⊢; tauto)
  · have htext : exactText x = if isNegative x then "-inf" else "inf" := by
      simp only [exactText, hinfinite]
      cases isNegative x <;> rfl
    have hname : ∀ c ∈ ['-', 'i', 'n', 'f'], c ∈ ['.', 'e', '-', '+', 'i', 'n', 'f', 'a'] := by
      simp
    rw [htext] at h
    cases hsign : isNegative x <;> rw [hsign] at h
    · exact .inr (hname c (List.mem_cons_of_mem _ h))
    · exact .inr (hname c h)
  · have htext : exactText x = "nan" := by
      simp only [exactText]
      rw [if_pos hnan]
    have hname : ∀ c ∈ ['n', 'a', 'n'], c ∈ ['.', 'e', '-', '+', 'i', 'n', 'f', 'a'] := by simp
    rw [htext] at h
    exact .inr (hname c h)

end Characters

end Sprig.Numeric
