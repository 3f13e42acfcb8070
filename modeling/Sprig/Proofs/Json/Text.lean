import Mathlib.Data.List.Basic
import Sprig.Json.Printer
import Sprig.Json.Reader

/-!
# Strings are read back from their texts

Between its quotes a string is its characters, and some of them are escapes. Each escape is read as
the character it was made for, and no other character ends the string or starts an escape.
-/

namespace Sprig.Json

/-- A string as characters. -/
def quotedChars (cs : List Char) : List Char :=
  '"' :: cs.flatMap (fun c => (escapeChar c).toList) ++ ['"']

theorem toList_foldl_append (out : String) (f : Char → String) (cs : List Char) :
    (cs.foldl (fun out c => out ++ f c) out).toList =
      out.toList ++ cs.flatMap fun c => (f c).toList := by
  induction cs generalizing out with
  | nil => simp
  | cons c cs ih => simp [ih]

theorem toList_quote (s : String) : (quote s).toList = quotedChars s.toList := by
  rw [quote, String.toList_append, String.foldl_eq_foldl_toList, toList_foldl_append]
  rfl

/-- Four hexadecimal digits are read back as their number. -/
theorem hexadecimal_control : ∀ n < 0x20, (Text.hexadecimal 4 n).length = 4 ∧
    ((Text.hexadecimal 4 n).mapM hexValue?).map (·.foldl (fun n d => 16 * n + d) 0) = some n := by
  decide

theorem codeUnit?_hexadecimal {n : Nat} (h : n < 0x20) {rest : List Char} (hrest : rest ≠ []) :
    codeUnit? (Text.hexadecimal 4 n ++ rest) = some n := by
  obtain ⟨hlength, hvalue⟩ := hexadecimal_control n h
  have hdrop : (Text.hexadecimal 4 n ++ rest).drop 4 = rest := List.drop_left' hlength
  have htake : (Text.hexadecimal 4 n ++ rest).take 4 = Text.hexadecimal 4 n :=
    List.take_left' hlength
  rw [codeUnit?, hdrop, htake, hvalue, if_neg (by simpa using hrest)]

/-- An escape for a control character is read as that character. -/
theorem readEscape_control {c : Char} (h : c.toNat < 0x20) {rest : List Char} (hrest : rest ≠ []) :
    readEscape ('u' :: (Text.hexadecimal 4 c.toNat ++ rest)) = .ok (c, rest) := by
  have hdrop : (Text.hexadecimal 4 c.toNat ++ rest).drop 4 = rest :=
    List.drop_left' (hexadecimal_control c.toNat h).1
  simp only [readEscape, codeUnit?_hexadecimal h hrest]
  rw [if_neg (by omega), if_neg (by omega), hdrop, Char.ofNat_toNat]

section Reading

variable (opening : List Char) (fuel : Nat) (before : List Char) {c : Char} {cs rest : List Char}

/-- An escape that is read as a character is that character of the string. -/
theorem readText_escape (hne : cs ≠ []) (h : readEscape cs = .ok (c, rest)) :
    readText opening (fuel + 1) before ('\\' :: cs) = readText opening fuel (c :: before) rest := by
  obtain ⟨d, ds, rfl⟩ := List.exists_cons_of_ne_nil hne
  simp only [readText, h]

/-- Any other character stands for itself. -/
theorem readText_plain (hquote : c ≠ '"') (hescape : c ≠ '\\') (hcontrol : ¬ c.toNat < 0x20) :
    readText opening (fuel + 1) before (c :: rest) = readText opening fuel (c :: before) rest := by
  rw [readText, if_neg hcontrol]
  · exact hquote
  · exact fun heq => absurd heq hescape
  · exact hescape

/-- A character is read back from what stands for it in a string. -/
theorem readText_escapeChar (c : Char) (hrest : rest ≠ []) :
    readText opening (fuel + 1) before ((escapeChar c).toList ++ rest) =
      readText opening fuel (c :: before) rest := by
  have hshort (e : Char) (h : readEscape (e :: rest) = .ok (c, rest)) :
      readText opening (fuel + 1) before ('\\' :: e :: rest) =
        readText opening fuel (c :: before) rest :=
    readText_escape opening fuel before (List.cons_ne_nil e rest) h
  unfold escapeChar
  split
  · next h => exact hshort '"' (by rw [h]; rfl)
  split
  · next h => exact hshort '\\' (by rw [h]; rfl)
  split
  · next h => exact hshort 'n' (by rw [h]; rfl)
  split
  · next h => exact hshort 'r' (by rw [h]; rfl)
  split
  · next h => exact hshort 't' (by rw [h]; rfl)
  split
  · next h => exact hshort 'f' (by rw [h]; rfl)
  split
  · next h => exact hshort 'b' (by rw [h]; rfl)
  split
  · next hcontrol =>
    rw [String.toList_append, String.toList_ofList, String.toList_ofList, List.append_assoc,
      List.cons_append, List.cons_append, List.nil_append]
    exact readText_escape opening fuel before (List.cons_ne_nil 'u' _)
      (readEscape_control hcontrol hrest)
  · next hquote hescape _ _ _ _ _ hcontrol =>
    rw [String.toList_ofList]
    exact readText_plain opening fuel before hquote hescape hcontrol

end Reading

/-- A string is read back from its text, whatever stands behind it. -/
theorem readText_quotedChars (opening : List Char) {fuel : Nat} (before cs rest : List Char)
    (hfuel : cs.length < fuel) :
    readText opening fuel before (cs.flatMap (fun c => (escapeChar c).toList) ++ '"' :: rest) =
      .ok (String.ofList (before.reverse ++ cs), rest) := by
  induction cs generalizing fuel before with
  | nil =>
      obtain ⟨fuel, rfl⟩ := Nat.exists_eq_add_one_of_ne_zero (by omega : fuel ≠ 0)
      simp [readText]
  | cons c cs ih =>
      obtain ⟨fuel, rfl⟩ := Nat.exists_eq_add_one_of_ne_zero (by omega : fuel ≠ 0)
      rw [List.flatMap_cons, List.append_assoc, readText_escapeChar _ _ _ _ (by simp), ih]
      · simp
      · simpa using hfuel

end Sprig.Json
