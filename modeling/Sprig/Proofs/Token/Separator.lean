import Mathlib
import Sprig.Proofs.Token.Tiling

/-!
# Texts behind a separator

White space and the characters that start no lexeme separate texts. When a text has no open quote,
its last lexeme ends in front of them, and what follows them is read as if it stood alone. So two
texts with a separator between them have the tokens of the first and those of the second, whose
places count from behind the separator.
-/

namespace Sprig.Token

/-- Whether a character is white space or starts no lexeme. A `!` does neither, since it starts a
comparison. -/
def Separates (c : Char) : Prop :=
  Text.isBlank c = true ∨ ∀ terminal cs, Terminal.Matches terminal cs → cs.head? ≠ some c

section Separators

variable {c : Char} {cs bs : List Char}

theorem Separates.skips (h : Separates c) (cs : List Char) : Skips c cs := by
  rcases h with hblank | hnone
  · exact .inl hblank
  · exact .inr (.inr hnone)

/-- The scanner knows a separator by skipping it. -/
theorem separates_of_pieceAt (h : pieceAt c [] = .skipped) (hmark : c ≠ '!') : Separates c := by
  rcases skips_of_pieceAt h with hblank | ⟨rfl, -⟩ | hnone
  · exact .inl hblank
  · exact absurd rfl hmark
  · exact .inr hnone

theorem isDigit_of_plain (h : '0' ≤ c ∧ c ≤ '9') : Text.isDigit c = true := by
  obtain ⟨hlow, hhigh⟩ := h
  rw [Char.le_def, UInt32.le_iff_toNat_le] at hlow hhigh
  have hlow : 0x30 ≤ c.toNat := hlow
  have hhigh : c.toNat ≤ 0x39 := hhigh
  rw [Text.isDigit, Text.digitValue?, Option.isSome_map, List.find?_isSome]
  exact ⟨0x30, by decide, by simpa using ⟨hlow, by omega⟩⟩

/-- A separator ends the lexeme in front of it, since all that a lexeme may go on with starts a
lexeme too. -/
theorem Separates.endsLexemes (h : Separates c) : EndsLexemes c := by
  have hpiece : pieceAt c [] = .skipped := pieceAt_of_skips (h.skips [])
  have hdigit : Text.isDigit c = false := by
    rw [← Bool.not_eq_true]
    intro hdigit
    rw [pieceAt_digit hdigit] at hpiece
    cases hpiece
  have hstart : isNameStart c = false := by
    rw [← Bool.not_eq_true]
    intro hstart
    rw [pieceAt_name hstart] at hpiece
    cases hpiece
  refine ⟨?_, ?_, ?_, hdigit⟩
  · rintro rfl
    cases hpiece
  · rintro rfl
    cases hpiece
  · have hplain : ¬('0' ≤ c ∧ c ≤ '9') := fun hplain => by
      rw [isDigit_of_plain hplain] at hdigit
      cases hdigit
    simp [isNamePart, hstart, hplain]

/-- Separators have no tokens. -/
theorem scanFrom_separated (p : Text.Position) (h : ∀ c ∈ cs, Separates c) :
    scanFrom p (cs ++ bs) = scanFrom (p.after cs) bs := by
  induction cs generalizing p with
  | nil => rfl
  | cons c cs ih =>
      obtain ⟨hc, hcs⟩ := List.forall_mem_cons.mp h
      rw [List.cons_append, scanFrom, pieceAt_of_skips (hc.skips _), Text.Position.after_cons]
      exact ih _ hcs

end Separators

/-- Two texts with a separator between them have the tokens of the first, without the closing one,
and those of the second. The tokens of the first stay at their places, and the places of the second
count from the end of the separator. They are refused just when the second text is, at the place of
its open quote counted in the same way. -/
theorem scan_across_separator {a separator : String} {tokens : List Token}
    (ha : scan a = .ok tokens) (hne : separator ≠ "") (hs : ∀ c ∈ separator.toList, Separates c)
    (b : String) : ∃ front closing, tokens = front ++ [closing] ∧ closing.kind = .finish ∧
      (∀ t ∈ front, t.kind ≠ .finish) ∧
      scan (a ++ separator ++ b) = match scan b with
        | .ok further => .ok (front ++ further.map (within (.behind (a ++ separator).toList)))
        | .error fault => .error (fault.within (.behind (a ++ separator).toList)) := by
  obtain ⟨front, closing, rfl, hclosing, hfront⟩ := scan_lexical ha
  refine ⟨front, closing, rfl, hclosing, fun t ht => (hfront t ht).kind_ne_finish, ?_⟩
  obtain ⟨c, cs, hseparator⟩ := List.exists_cons_of_ne_nil fun hnil =>
    hne (String.toList_eq_nil_iff.mp hnil)
  rw [hseparator] at hs
  have hplace : (Text.Position.start.after a.toList).after (c :: cs) =
      .behind (a ++ separator).toList := by
    rw [String.toList_append, hseparator, ← Text.Position.after_append]
    exact Text.Position.after_behind [] _
  have htext : (a ++ separator ++ b).toList = a.toList ++ c :: (cs ++ b.toList) := by
    rw [String.toList_append, String.toList_append, hseparator, List.append_assoc, List.cons_append]
  generalize Text.Position.behind (a ++ separator).toList = place at hplace ⊢
  have hsecond := scanFrom_within place .start b.toList Text.Position.isCounted_start
  rw [Text.Position.within_start] at hsecond
  rw [scan, scan, htext, scanFrom_append (hs c (by simp)).endsLexemes .start _ _ ha,
    ← List.cons_append, scanFrom_separated _ hs, hplace, hsecond]
  cases scanFrom .start b.toList <;> rfl

/-- A mark at the end of a text does not become a comparison with what follows a separator. -/
theorem scan_across_separator_of_mark :
    let tokens : List Token := [⟨.identifier, .text "x", ⟨1, 1⟩⟩, ⟨.finish, .absent, ⟨1, 4⟩⟩]
    scan "x !" = .ok tokens ∧ "#\n" ≠ "" ∧ (∀ c ∈ "#\n".toList, Separates c) ∧
    ∃ front closing, tokens = front ++ [closing] ∧ closing.kind = .finish ∧
      (∀ t ∈ front, t.kind ≠ .finish) ∧
      scan ("x !" ++ "#\n" ++ "= \"") = match scan "= \"" with
        | .ok further => .ok (front ++ further.map (within (.behind ("x !" ++ "#\n").toList)))
        | .error fault => .error (fault.within (.behind ("x !" ++ "#\n").toList)) := by
  intro tokens
  have hscan : scan "x !" = .ok tokens := by cbv
  have hs : ∀ c ∈ "#\n".toList, Separates c := by
    simp only [String.reduceToList, List.forall_mem_cons, List.not_mem_nil, false_imp_iff,
      implies_true, and_true]
    exact ⟨separates_of_pieceAt (by decide) (by decide), separates_of_pieceAt (by decide) (by decide)⟩
  exact ⟨hscan, by decide, hs, scan_across_separator hscan (by decide) hs "= \""⟩

end Sprig.Token
