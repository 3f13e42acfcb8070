import Mathlib
import Sprig.Proofs.Json.Number
import Sprig.Proofs.Numeric.Displayed
import Sprig.Proofs.Token.Separator

/-!
# Displayed Numbers are read back

A numeral has no sign and no exponent, while a displayed Number may have both. Where the text of a
Number that is not negative has no exponent it is a numeral, and it is read as the Number. An
exponent is read as a name, a sign and a second numeral. Whether a program can read the text or not,
no two Numbers share it unless they are equal.

## Implementation notes

A text is told apart from others by a reader that takes all of them: that of documents, which reads
signs and exponents, and reads infinity by its name.
-/

namespace Sprig.Token

open Numeric (isPlainDigit RealText)

/-- A numeral does not go on with the text behind it. -/
def EndsNumeral (rest : List Char) : Prop :=
  ∀ c ∈ rest.head?, Text.isDigit c = false ∧ c ≠ '.'

section Runs

variable {p : Char → Bool} {cs rest : List Char}

/-- A run of characters of one sort is as long as it can be. -/
theorem takeWhile_append_of_head? (h : ∀ c ∈ cs, p c = true)
    (hrest : ∀ c ∈ rest.head?, p c = false) : (cs ++ rest).takeWhile p = cs := by
  rw [List.takeWhile_append_of_pos h]
  cases rest with
  | nil => simp
  | cons c rest => simp [hrest c rfl]

theorem dropWhile_append_of_head? (h : ∀ c ∈ cs, p c = true)
    (hrest : ∀ c ∈ rest.head?, p c = false) : (cs ++ rest).dropWhile p = rest := by
  rw [List.dropWhile_append_of_pos h]
  cases rest with
  | nil => rfl
  | cons c rest => simp [hrest c rfl]

end Runs

section Numerals

variable {c : Char} {cs fraction rest : List Char} {lexeme : Lexeme} {tokens : List Token}
  {p : Text.Position}

theorem isDigit_of_isPlainDigit (h : isPlainDigit c = true) : Text.isDigit c = true :=
  isDigit_of_plain (of_decide_eq_true h)

theorem fractionOf_of_ends (h : EndsNumeral rest) : fractionOf rest = [] := by
  cases rest with
  | nil => rfl
  | cons c rest => exact fractionOf_of_ne (h c rfl).2 rest

theorem chars_number (whole fraction : List Char) :
    (Lexeme.number whole fraction).chars = whole ++ RealText.fractionChars fraction := by
  cases fraction <;> simp [Lexeme.chars, RealText.fractionChars]

/-- The digits around a point are one lexeme. -/
theorem pieceAt_numeral (hwhole : ∀ d ∈ c :: cs, isPlainDigit d = true)
    (hfraction : ∀ d ∈ fraction, isPlainDigit d = true) (hrest : EndsNumeral rest) :
    pieceAt c (cs ++ (RealText.fractionChars fraction ++ rest)) =
      .lexeme (.number (c :: cs) fraction) := by
  obtain ⟨hc, hcs⟩ := List.forall_mem_cons.mp hwhole
  have hdigits : ∀ d ∈ cs, Text.isDigit d = true := fun d hd => isDigit_of_isPlainDigit (hcs d hd)
  have hstop : ∀ d ∈ (RealText.fractionChars fraction ++ rest).head?, Text.isDigit d = false := by
    intro d hd
    unfold RealText.fractionChars at hd
    split at hd
    · exact (hrest d hd).1
    · obtain rfl : '.' = d := by simpa using hd
      decide
  have hsplit : fractionOf (RealText.fractionChars fraction ++ rest) = fraction := by
    unfold RealText.fractionChars
    split
    · next hnone => rw [hnone, List.nil_append, fractionOf_of_ends hrest]
    · rw [List.cons_append, fractionOf_point]
      exact takeWhile_append_of_head? (fun d hd => isDigit_of_isPlainDigit (hfraction d hd))
        fun d hd => (hrest d hd).1
  rw [pieceAt_digit (isDigit_of_isPlainDigit hc), takeWhile_append_of_head? hdigits hstop,
    dropWhile_append_of_head? hdigits hstop, hsplit]

/-- A lexeme in front of a text gives one token more. -/
theorem scanFrom_lexeme (hpiece : pieceAt c cs = .lexeme lexeme)
    (hsplit : lexeme.chars ++ rest = c :: cs)
    (hrest : scanFrom (p.after lexeme.chars) rest = .ok tokens) :
    scanFrom p (c :: cs) = .ok (lexeme.token p :: tokens) := by
  have hdrop : cs.drop (lexeme.chars.length - 1) = rest :=
    List.append_cancel_left ((chars_append_drop hpiece).trans hsplit.symm)
  rw [scanFrom, hpiece]
  dsimp only
  rw [hdrop, hrest]

/-- A numeral is read as one token of its value. -/
theorem scanFrom_numeral {whole : List Char} (hne : whole ≠ [])
    (hwhole : ∀ d ∈ whole, isPlainDigit d = true)
    (hfraction : ∀ d ∈ fraction, isPlainDigit d = true) (hends : EndsNumeral rest)
    (hrest : scanFrom (p.after (whole ++ RealText.fractionChars fraction)) rest = .ok tokens) :
    scanFrom p (whole ++ RealText.fractionChars fraction ++ rest) =
      .ok (⟨.number, .number (Numeric.ofNumeral whole fraction), p⟩ :: tokens) := by
  obtain ⟨c, cs, rfl⟩ := List.exists_cons_of_ne_nil hne
  rw [← chars_number] at hrest
  rw [List.append_assoc, List.cons_append]
  refine scanFrom_lexeme (pieceAt_numeral hwhole hfraction hends) ?_ hrest
  rw [chars_number, List.append_assoc, List.cons_append]

/-- A numeral with nothing behind it is read as one token and the closing one. -/
theorem scanFrom_whole_numeral (p : Text.Position) {whole : List Char} (hne : whole ≠ [])
    (hwhole : ∀ d ∈ whole, isPlainDigit d = true)
    (hfraction : ∀ d ∈ fraction, isPlainDigit d = true) :
    scanFrom p (whole ++ RealText.fractionChars fraction) =
      .ok [⟨.number, .number (Numeric.ofNumeral whole fraction), p⟩,
        ⟨.finish, .absent, p.after (whole ++ RealText.fractionChars fraction)⟩] := by
  have hnothing : EndsNumeral [] := fun _ hd => nomatch hd
  have hscan := scanFrom_numeral hne hwhole hfraction hnothing
    (scanFrom_nil (p.after (whole ++ RealText.fractionChars fraction)))
  rwa [List.append_nil] at hscan

/-- An exponent is read as a name, a sign and a numeral. -/
theorem scanFrom_exponent (p : Text.Position) (negative : Bool) {ds : List Char} (hne : ds ≠ [])
    (hplain : ∀ d ∈ ds, isPlainDigit d = true) :
    ∃ tokens, scanFrom p (RealText.exponentChars (some (negative, ds))) = .ok tokens ∧
      tokens.map (·.kind) = [.identifier, .operator, .number, .finish] := by
  rw [RealText.exponentChars]
  generalize hsign : (if negative then '-' else '+') = sign
  have hname : pieceAt 'e' (sign :: ds) = .lexeme (.name ['e']) := by
    have hpart : isNamePart sign = false := by
      rw [← hsign]
      cases negative <;> decide
    rw [pieceAt_name (by decide), List.takeWhile_cons_of_neg (by simp [hpart])]
  have hsymbol : pieceAt sign ds = .lexeme (.symbol .operator [sign]) := by
    have hhead : ds.head? ≠ some '=' := fun hhead =>
      absurd (hplain '=' (List.mem_of_mem_head? hhead)) (by decide)
    have hkind : singles.lookup sign = some .operator := by
      rw [← hsign]
      cases negative <;> decide
    apply pieceAt_symbol
    rw [symbol?, if_neg fun h => hhead h.1, hkind]
    rfl
  have hnumber (p : Text.Position) := scanFrom_whole_numeral p hne hplain (List.forall_mem_nil _)
  simp only [RealText.fractionChars, if_pos, List.append_nil] at hnumber
  exact ⟨_, scanFrom_lexeme hname rfl (scanFrom_lexeme hsymbol rfl (hnumber _)), rfl⟩

end Numerals

section Numbers

variable {x y : Float} {q : ℚ}

theorem ofNumeral_digits (k : Nat) :
    Numeric.ofNumeral (Numeric.digitsText k) [] = Numeric.ofDecimal false k 0 := by
  have hvalue : Numeric.digitsValue (Numeric.digitValues (Numeric.digitsText k)) = k :=
    (Numeric.digitsValue_of_plain fun _ hd => Numeric.isPlainDigit_of_mem_toDigits hd).trans
      Nat.ofDigitChars_ten_toDigits
  rw [Numeric.ofNumeral, List.append_nil, hvalue]
  rfl

theorem ofNumeral_realText (text : RealText) (hnone : text.exponent? = none) :
    Numeric.ofNumeral text.whole text.fraction =
      Numeric.ofDecimal false text.digits text.exponent := by
  have hexponent : text.exponent = -text.fraction.length := by
    rw [RealText.exponent, hnone, RealText.exponentValue, Int.zero_sub]
  rw [Numeric.ofNumeral, Numeric.digitsValue_of_plain
    (Numeric.plain_append text.whole_plain text.fraction_plain), hexponent]
  rfl

/-- Zero and the Numbers between `1e-4` and `1e21` are displayed as numerals of their values. -/
theorem scan_displayText (h : Numeric.value? x = some q)
    (hq : q = 0 ∨ 1 / 10 ^ 4 ≤ q ∧ q < 10 ^ 21) :
    ∃ y, scan (Numeric.displayText x) = .ok [⟨.number, .number y, .start⟩,
        ⟨.finish, .absent, Text.Position.start.after (Numeric.displayText x).toList⟩] ∧
      (y == x) = true := by
  by_cases hwhole : ∃ k : Nat, q = k ∧ k < 10 ^ 21
  · obtain ⟨k, rfl, hk⟩ := hwhole
    obtain ⟨hdisplay, hvalue⟩ := Numeric.displayText_eq_digits h hk
    have hne : Numeric.digitsText k ≠ [] := Nat.toDigits_ne_nil
    have hscan := scanFrom_whole_numeral .start hne
      (fun _ hd => Numeric.isPlainDigit_of_mem_toDigits hd) (List.forall_mem_nil _)
    rw [RealText.fractionChars, if_pos rfl, List.append_nil] at hscan
    refine ⟨_, ?_, (ofNumeral_digits k).symm ▸ hvalue⟩
    rw [scan, hdisplay, String.toList_ofList]
    exact hscan
  · have hlarge (k : Nat) (hk : q = k) : 10 ^ 21 ≤ k :=
      Nat.not_lt.mp fun hless => hwhole ⟨k, hk, hless⟩
    have hpos : 0 < q ∧ 1 / 10 ^ 4 ≤ q ∧ q < 10 ^ 21 := by
      rcases hq with rfl | hq
      · exact absurd (hlarge 0 Nat.cast_zero.symm) (by decide)
      · exact ⟨lt_of_lt_of_le (by norm_num) hq.1, hq⟩
    obtain ⟨text, hdisplay, hvalue, hexponent⟩ :=
      Numeric.exists_realText_of_display h hpos.1 hlarge
    have hnone := hexponent.mpr hpos.2
    have hchars : text.chars = text.whole ++ RealText.fractionChars text.fraction := by
      rw [RealText.chars, hnone, RealText.exponentChars, List.append_nil]
    refine ⟨x, ?_, Numeric.beq_self_of_isNaN_eq_false (Numeric.isNaN_eq_false_of_value? h)⟩
    rw [scan, hdisplay, String.toList_ofList, hchars,
      scanFrom_whole_numeral .start text.whole_ne text.whole_plain text.fraction_plain,
      ofNumeral_realText text hnone, hvalue]

/-- All other positive Numbers are displayed with an exponent. -/
theorem scan_displayText_of_exponent (h : Numeric.value? x = some q) (hpos : 0 < q)
    (hq : ¬(1 / 10 ^ 4 ≤ q ∧ q < 10 ^ 21)) :
    ∃ tokens, scan (Numeric.displayText x) = .ok tokens ∧
      tokens.map (·.kind) = [.number, .identifier, .operator, .number, .finish] := by
  have hlarge (k : Nat) (hk : q = k) : 10 ^ 21 ≤ k := by
    by_contra hless
    rw [hk] at hq hpos
    have hone : (1 : ℚ) ≤ k := by exact_mod_cast Nat.cast_pos.mp hpos
    have hbelow : (k : ℚ) < 10 ^ 21 := by exact_mod_cast Nat.not_le.mp hless
    exact hq ⟨le_trans (by norm_num) hone, hbelow⟩
  obtain ⟨text, hdisplay, -, hexponent⟩ := Numeric.exists_realText_of_display h hpos hlarge
  obtain ⟨⟨negative, ds⟩, hpart⟩ := Option.ne_none_iff_exists'.mp (mt hexponent.mp hq)
  have hends : EndsNumeral (RealText.exponentChars (some (negative, ds))) := by
    intro c hc
    obtain rfl : 'e' = c := by simpa [RealText.exponentChars] using hc
    decide
  have hne : ds ≠ [] := text.exponent_ne _ hpart
  obtain ⟨tokens, htokens, hkinds⟩ := scanFrom_exponent
    (Text.Position.start.after (text.whole ++ RealText.fractionChars text.fraction)) negative hne
    (text.exponent_plain _ hpart)
  have hscan := scanFrom_numeral text.whole_ne text.whole_plain text.fraction_plain hends htokens
  rw [scan, hdisplay, String.toList_ofList, RealText.chars, hpart, hscan]
  exact ⟨_, rfl, congrArg (Kind.number :: ·) hkinds⟩

/-- What is not displayed as an integer is displayed as in a document. -/
theorem displayText_eq_numberText
    (h : ∀ k, Numeric.wholeNumber? x = some k → 10 ^ 21 ≤ k.natAbs) :
    Numeric.displayText x = Json.numberText x := by
  rcases lt_trichotomy (Numeric.rank x) Numeric.infiniteRank with hfinite | hinfinite | hnan
  · obtain ⟨text, htext, -⟩ := Numeric.exists_realText_of_finite hfinite
    rw [Numeric.displayText_of_finite hfinite h, ← String.toList_inj,
      Json.numberText_of_realText htext, htext, String.toList_append, String.toList_ofList,
      Json.toList_sign]
  · simp only [Numeric.displayText, Json.numberText, Numeric.exactText, hinfinite]
    cases Numeric.isNegative x <;> rfl
  · simp only [Numeric.displayText, Json.numberText, Numeric.exactText]
    rw [if_pos hnan, if_pos hnan]
    rfl

/-- A document reads the text of a Number as an integer that is equal to it, or as the Number. -/
theorem readScalar_displayText (x : Float) :
    (∃ k, Numeric.wholeNumber? x = some k ∧
      Json.readScalar (Numeric.displayText x).toList = .ok (.integer k, [])) ∨
    Json.readScalar (Numeric.displayText x).toList = .ok (.number x, []) := by
  have hstops : Json.Stops [] := fun _ hc => nomatch hc
  by_cases hwhole : ∃ k, Numeric.wholeNumber? x = some k ∧ k.natAbs < 10 ^ 21
  · obtain ⟨k, hk, hless⟩ := hwhole
    have hlength : (Nat.toDigits 10 k.natAbs).length ≤ 21 :=
      (Nat.length_toDigits_le_iff (by decide) (by decide)).mpr hless
    have hread := Json.readScalar_integerText k
      (hlength.trans (by decide : 21 ≤ Numeric.maxIntegerDigits)) hstops
    rw [List.append_nil, ← Numeric.displayText_of_whole hk hless] at hread
    exact .inl ⟨k, hk, hread⟩
  · have hread := Json.readScalar_numberText x hstops
    rw [List.append_nil, ← displayText_eq_numberText fun k hk =>
      Nat.not_lt.mp fun hless => hwhole ⟨k, hk, hless⟩] at hread
    exact .inr hread

/-- Numbers with the same text are equal. -/
theorem beq_of_displayText_eq (hx : x.isNaN = false)
    (h : Numeric.displayText x = Numeric.displayText y) : (x == y) = true := by
  have hxread := readScalar_displayText x
  have hyread := readScalar_displayText y
  rw [h] at hxread
  rcases hxread with ⟨k, hk, hxread⟩ | hxread <;> rcases hyread with ⟨l, hl, hyread⟩ | hyread <;>
    rw [hxread, Except.ok.injEq, Prod.mk.injEq] at hyread
  · obtain rfl := Json.integer.inj hyread.1
    exact Numeric.beq_of_value?_eq (Numeric.wholeNumber?_eq_some_iff.mp hk)
      (Numeric.wholeNumber?_eq_some_iff.mp hl)
  · cases hyread.1
  · cases hyread.1
  · obtain rfl := Json.number.inj hyread.1
    exact Numeric.beq_self_of_isNaN_eq_false hx

/-- Displayed Numbers are read back. Zero and the Numbers between `1e-4` and `1e21` are displayed as
numerals, and the only token of such a text has a value that is equal to the Number. Every other
positive Number is displayed with an exponent, which no numeral has, so its text is read as more
than one token. And Numbers other than NaN that have the same text are equal. -/
theorem displayed_read_back :
    (∀ x q, Numeric.value? x = some q → q = 0 ∨ 1 / 10 ^ 4 ≤ q ∧ q < 10 ^ 21 →
      ∃ y, scan (Numeric.displayText x) = .ok [⟨.number, .number y, .start⟩,
          ⟨.finish, .absent, Text.Position.start.after (Numeric.displayText x).toList⟩] ∧
        (y == x) = true) ∧
    (∀ x q, Numeric.value? x = some q → 0 < q → ¬(1 / 10 ^ 4 ≤ q ∧ q < 10 ^ 21) →
      ∃ tokens, scan (Numeric.displayText x) = .ok tokens ∧
        tokens.map (·.kind) = [.number, .identifier, .operator, .number, .finish]) ∧
    ∀ x y : Float, x.isNaN = false → y.isNaN = false →
      Numeric.displayText x = Numeric.displayText y → (x == y) = true :=
  ⟨fun _ _ => scan_displayText, fun _ _ => scan_displayText_of_exponent,
    fun _ _ hx _ => beq_of_displayText_eq hx⟩

/-- `1e20` has more digits than are written exactly without an exponent, and is a numeral all the
same; `1e21` is none. The zeros share a text. -/
theorem displayed_read_back_at_edges :
    Numeric.value? 1e20 = some (10 ^ 20) ∧
    (∃ y, scan (Numeric.displayText 1e20) = .ok [⟨.number, .number y, .start⟩,
        ⟨.finish, .absent, Text.Position.start.after (Numeric.displayText 1e20).toList⟩] ∧
      (y == 1e20) = true) ∧
    Numeric.value? 1e21 = some (10 ^ 21) ∧
    (∃ tokens, scan (Numeric.displayText 1e21) = .ok tokens ∧
      tokens.map (·.kind) = [.number, .identifier, .operator, .number, .finish]) ∧
    Float.isNaN (-0.0) = false ∧ Float.isNaN 0.0 = false ∧
    Numeric.displayText (-0.0) = Numeric.displayText 0.0 ∧ ((-0.0 : Float) == 0.0) = true := by
  obtain ⟨hlarge, htooLarge, hnegative, hpositive, htext⟩ :
      Numeric.value? 1e20 = some (10 ^ 20) ∧ Numeric.value? 1e21 = some (10 ^ 21) ∧
      Float.isNaN (-0.0) = false ∧ Float.isNaN 0.0 = false ∧
      Numeric.displayText (-0.0) = Numeric.displayText 0.0 := by
    decide +kernel
  exact ⟨hlarge, displayed_read_back.1 _ _ hlarge (.inr (by norm_num)),
    htooLarge, displayed_read_back.2.1 _ _ htooLarge (by norm_num) (by norm_num),
    hnegative, hpositive, htext, displayed_read_back.2.2 _ _ hnegative hpositive htext⟩

end Numbers

end Sprig.Token
