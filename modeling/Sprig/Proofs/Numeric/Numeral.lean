import Sprig.Numeric.Reading

/-!
# Numerals as real numbers

A numeral is digits of any script, and behind a point more digits. The text of a numeral is also
read as a real number, by the reader for all ways in which a real number is written. Both readings
give the same Number.
-/

namespace Sprig.Numeric

section Digits

/-- Outside of the Latin script the digits start behind its signs, and no run of ten digits reaches
over white space. -/
theorem digitZeros_ranges : ∀ base ∈ Text.digitZeros, base = 0x30 ∨
    (0x660 ≤ base ∧ base + 10 ≤ 0x1680) ∨ (0x1680 < base ∧ base + 10 ≤ 0x2000) ∨
    0x3000 < base := by
  decide

theorem exists_zero_of_isDigit {c : Char} (h : Text.isDigit c = true) :
    ∃ base ∈ Text.digitZeros, base ≤ c.toNat ∧ c.toNat < base + 10 ∧
      Text.digitValue? c = some (c.toNat - base) := by
  obtain ⟨d, hd⟩ := Option.isSome_iff_exists.mp h
  obtain ⟨base, hbase, rfl⟩ := Option.map_eq_some_iff.mp hd
  have hrange := List.find?_some hbase
  simp only [decide_eq_true_eq] at hrange
  exact ⟨base, List.mem_of_find?_eq_some hbase, hrange.1, hrange.2, hd⟩

theorem isBlank_of_isDigit {c : Char} (h : Text.isDigit c = true) : Text.isBlank c = false := by
  obtain ⟨base, hmem, hle, hlt, -⟩ := exists_zero_of_isDigit h
  have hranges := digitZeros_ranges base hmem
  simp only [Text.isBlank, decide_eq_false_iff_not]
  omega

/-- A digit of any script is read as the digit of the Latin script with the same value. -/
theorem plain?_of_isDigit {c : Char} (h : Text.isDigit c = true) :
    ∃ p, plain? c = some p ∧ isPlainDigit p = true ∧ Text.digitValue? p = Text.digitValue? c := by
  obtain ⟨base, hmem, hle, hlt, hvalue⟩ := exists_zero_of_isDigit h
  have hranges := digitZeros_ranges base hmem
  by_cases hlatin : c.toNat < 0x7F
  · refine ⟨c, by rw [plain?, if_pos hlatin], ?_, rfl⟩
    simp only [isPlainDigit, decide_eq_true_eq, Char.le_def, UInt32.le_iff_toNat_le]
    change 0x30 ≤ c.toNat ∧ c.toNat ≤ 0x39
    omega
  · have hdigits : ∀ d < 10, isPlainDigit (Char.ofNat (0x30 + d)) = true ∧
        Text.digitValue? (Char.ofNat (0x30 + d)) = some d := by
      decide
    obtain ⟨hplain, hsame⟩ := hdigits (c.toNat - base) (by omega)
    refine ⟨_, ?_, hplain, hsame.trans hvalue.symm⟩
    rw [plain?, if_neg hlatin, isBlank_of_isDigit h, hvalue]
    rfl

/-- Digits of any script are read as as many digits of the Latin script, with the same values. -/
theorem mapM_plain?_of_isDigit {cs : List Char} (h : ∀ c ∈ cs, Text.isDigit c = true) :
    ∃ ps, cs.mapM plain? = some ps ∧ (∀ p ∈ ps, isPlainDigit p = true) ∧
      digitValues ps = digitValues cs ∧ ps.length = cs.length := by
  induction cs with
  | nil => exact ⟨[], rfl, by simp, rfl, rfl⟩
  | cons c cs ih =>
      obtain ⟨p, hp, hdigit, hvalue⟩ := plain?_of_isDigit (h c (by simp))
      obtain ⟨ps, hps, hdigits, hvalues, hlength⟩ := ih fun d hd => h d (by simp [hd])
      refine ⟨p :: ps, ?_, ?_, ?_, ?_⟩
      · simp [hp, hps]
      · simpa using ⟨hdigit, hdigits⟩
      · simp only [digitValues, List.filterMap_cons, hvalue] at hvalues ⊢
        rw [hvalues]
      · simp [hlength]

end Digits

section Plain

variable {p : Char} {ps fs : List Char}

theorem plainDigit_iff (p : Char) : isPlainDigit p = true ↔ 0x30 ≤ p.toNat ∧ p.toNat ≤ 0x39 := by
  simp only [isPlainDigit, decide_eq_true_eq, Char.le_def, UInt32.le_iff_toNat_le]
  rfl

theorem isPadding_of_isPlainDigit (h : isPlainDigit p = true) : Text.isPadding p = false := by
  rw [plainDigit_iff] at h
  simp only [Text.isPadding, decide_eq_false_iff_not]
  omega

theorem ne_of_isPlainDigit (h : isPlainDigit p = true) {c : Char}
    (hc : isPlainDigit c = false) : p ≠ c := by
  rintro rfl
  rw [h] at hc
  cases hc

/-- Nothing is trimmed off a text that starts and ends with digits. -/
theorem dropWhile_padding (h : isPlainDigit p = true) (ps : List Char) :
    (p :: ps).dropWhile Text.isPadding = p :: ps := by
  simp [isPadding_of_isPlainDigit h]

/-- A text without an underscore stays as it is. -/
theorem joinDigits?_of_not_mem (afterDigit : Bool) (h : '_' ∉ ps) :
    joinDigits? afterDigit ps = some ps := by
  induction ps generalizing afterDigit with
  | nil => simp [joinDigits?]
  | cons p ps ih =>
      have hp : p ≠ '_' := fun heq => h (by simp [heq])
      have hps : '_' ∉ ps := fun hmem => h (by simp [hmem])
      rw [joinDigits?, ih _ hps]
      · rfl
      · exact fun heq => hp heq

theorem splitSign_of_isPlainDigit (h : isPlainDigit p = true) (ps : List Char) :
    splitSign (p :: ps) = (false, p :: ps) := by
  have hminus := ne_of_isPlainDigit h (c := '-') (by decide)
  have hplus := ne_of_isPlainDigit h (c := '+') (by decide)
  unfold splitSign
  split
  · next heq => exact absurd (List.cons.inj heq).1 hminus
  · next heq => exact absurd (List.cons.inj heq).1 hplus
  · rfl

/-- A text that starts with a digit is no name of infinity or NaN. -/
theorem map_toLower_ne (h : isPlainDigit p = true) (ps : List Char) {c : Char} {name : List Char}
    (hc : isPlainDigit c = false) : (p :: ps).map Char.toLower ≠ c :: name := by
  have hlower : p.toLower = p := by
    rw [plainDigit_iff] at h
    unfold Char.toLower
    rw [dif_neg]
    rintro ⟨hupper, -⟩
    have hcode : 0x41 ≤ p.toNat := UInt32.le_iff_toNat_le.mp hupper
    omega
  intro heq
  rw [List.map_cons, hlower] at heq
  exact ne_of_isPlainDigit h hc (List.cons.inj heq).1

/-- What is read of a text in plain characters that starts and ends with digits. -/
theorem readReal?_of_plain {cs : List Char} (hplain : cs.mapM plain? = some (p :: ps))
    (hfirst : isPlainDigit p = true)
    (hlast : ∀ q ∈ (p :: ps).getLast?, isPlainDigit q = true) (hjoined : '_' ∉ p :: ps) :
    readReal? (String.ofList cs) = readMagnitude? false (p :: ps) := by
  have htrimmed : trimmed? cs = some (p :: ps) := by
    obtain ⟨q, qs, hreverse⟩ := List.exists_cons_of_ne_nil
      (List.reverse_ne_nil_iff.mpr (List.cons_ne_nil p ps))
    have hq : isPlainDigit q = true := hlast q (by simp [← List.head?_reverse, hreverse])
    rw [trimmed?, hplain, Option.map_some, dropWhile_padding hfirst, hreverse,
      dropWhile_padding hq, ← hreverse, List.reverse_reverse]
  rw [readReal?, String.toList_ofList, htrimmed, Option.bind_some,
    joinDigits?_of_not_mem _ hjoined, Option.bind_some, splitSign_of_isPlainDigit hfirst]

/-- A text of digits is all in front of the first character that is none. -/
theorem takeWhile_of_plain (h : ∀ q ∈ ps, isPlainDigit q = true) :
    ps.takeWhile isPlainDigit = ps ∧ ps.dropWhile isPlainDigit = [] := by
  constructor
  · simpa using @List.takeWhile_append_of_pos Char isPlainDigit ps [] h
  · simpa using @List.dropWhile_append_of_pos Char isPlainDigit ps [] h

theorem readMagnitude?_of_plain (hfirst : isPlainDigit p = true)
    (hps : ∀ q ∈ ps, isPlainDigit q = true) (hfs : ∀ q ∈ fs, isPlainDigit q = true) :
    readMagnitude? false (p :: ps) =
        some (ofDecimal false (digitsValue (digitValues (p :: ps))) 0) ∧
      readMagnitude? false (p :: ps ++ '.' :: fs) =
        some (ofDecimal false (digitsValue (digitValues (p :: ps ++ fs))) (-fs.length)) := by
  have hall : ∀ q ∈ p :: ps, isPlainDigit q = true := by simpa using ⟨hfirst, hps⟩
  have hinfinity : ∀ qs, ¬((p :: qs).map Char.toLower = "inf".toList ∨
      (p :: qs).map Char.toLower = "infinity".toList) := by
    rintro qs (hname | hname)
    · exact map_toLower_ne hfirst qs (by decide) hname
    · exact map_toLower_ne hfirst qs (by decide) hname
  have hnan : ∀ qs, (p :: qs).map Char.toLower ≠ "nan".toList :=
    fun qs => map_toLower_ne hfirst qs (by decide)
  have htake : (p :: (ps ++ '.' :: fs)).takeWhile isPlainDigit = p :: ps := by
    rw [← List.cons_append, List.takeWhile_append_of_pos hall,
      List.takeWhile_cons_of_neg (by decide), List.append_nil]
  have hdrop : (p :: (ps ++ '.' :: fs)).dropWhile isPlainDigit = '.' :: fs := by
    rw [← List.cons_append, List.dropWhile_append_of_pos hall,
      List.dropWhile_cons_of_neg (by decide)]
  obtain ⟨hwhole, hnothing⟩ := takeWhile_of_plain hall
  obtain ⟨hfraction, hrest⟩ := takeWhile_of_plain hfs
  constructor
  · rw [readMagnitude?, if_neg (hinfinity ps), if_neg (hnan ps)]
    simp [hwhole, hnothing, readExponent?]
  · rw [List.cons_append, readMagnitude?, if_neg (hinfinity _), if_neg (hnan _)]
    simp [htake, hdrop, hfraction, hrest, readExponent?]

end Plain

section Numerals

variable {whole fraction : List Char}

/-- A numeral without a point is read as a real number of the same value. -/
theorem readReal?_whole (hne : whole ≠ []) (h : ∀ c ∈ whole, Text.isDigit c = true) :
    readReal? (String.ofList whole) = some (ofNumeral whole []) := by
  obtain ⟨ps, hps, hdigits, hvalues, hlength⟩ := mapM_plain?_of_isDigit h
  cases ps with
  | nil => exact absurd (List.length_eq_zero_iff.mp hlength.symm) hne
  | cons p ps =>
      obtain ⟨hfirst, hrest⟩ := List.forall_mem_cons.mp hdigits
      rw [readReal?_of_plain hps hfirst, (readMagnitude?_of_plain hfirst hrest hrest).1, hvalues]
      · simp [ofNumeral]
      · exact fun q hq => hdigits q (List.mem_of_getLast? hq)
      · exact fun hmem => absurd (hdigits _ hmem) (by decide)

/-- A numeral with a point is read as a real number of the same value. -/
theorem readReal?_fraction (hwhole : whole ≠ []) (hfraction : fraction ≠ [])
    (h : ∀ c ∈ whole ++ fraction, Text.isDigit c = true) :
    readReal? (String.ofList (whole ++ '.' :: fraction)) = some (ofNumeral whole fraction) := by
  obtain ⟨hw, hf⟩ := List.forall_mem_append.mp h
  obtain ⟨ps, hps, hpdigits, hpvalues, hplength⟩ := mapM_plain?_of_isDigit hw
  obtain ⟨fs, hfs, hfdigits, hfvalues, hflength⟩ := mapM_plain?_of_isDigit hf
  have hfne : fs ≠ [] :=
    fun heq => hfraction (List.length_eq_zero_iff.mp (by simp [← hflength, heq]))
  cases ps with
  | nil => exact absurd (List.length_eq_zero_iff.mp hplength.symm) hwhole
  | cons p ps =>
      obtain ⟨hfirst, hrest⟩ := List.forall_mem_cons.mp hpdigits
      have hplain : (whole ++ '.' :: fraction).mapM plain? = some (p :: (ps ++ '.' :: fs)) := by
        rw [List.mapM_append, hps, List.mapM_cons, hfs]
        rfl
      have hvalues : digitValues (p :: ps ++ fs) = digitValues (whole ++ fraction) := by
        simp only [digitValues, List.filterMap_append] at hpvalues hfvalues ⊢
        rw [hpvalues, hfvalues]
      rw [readReal?_of_plain hplain hfirst, ← List.cons_append,
        (readMagnitude?_of_plain hfirst hrest hfdigits).2, hvalues, hflength, ofNumeral]
      · intro q hq
        obtain ⟨front, f, rfl⟩ := (List.eq_nil_or_concat fs).resolve_left hfne
        have hend : p :: (ps ++ '.' :: front.concat f) = p :: (ps ++ '.' :: front) ++ [f] := by
          simp
        rw [hend, List.getLast?_concat] at hq
        exact Option.mem_some.mp hq ▸ hfdigits f (by simp)
      · intro hmem
        have hsigns : '_' ∈ p :: ps ∨ '_' ∈ fs := by simpa [or_assoc] using hmem
        rcases hsigns with hmem | hmem
        · exact absurd (hpdigits _ hmem) (by decide)
        · exact absurd (hfdigits _ hmem) (by decide)

end Numerals

end Sprig.Numeric
