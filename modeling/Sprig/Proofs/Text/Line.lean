import Sprig.Text.Position
import Sprig.Text.Quoted

/-!
# Texts of one line

A text stands on one line when each of its characters has a glyph or is a space: no end of a line
has one. Numbers and quoted texts stand on one line, whatever the quoted text holds.
-/

namespace Sprig.Text

/-- Whether all characters of a text have a glyph or are spaces. -/
def IsLine (s : String) : Prop := ∀ c ∈ s.toList, isPrintable c = true

instance (s : String) : Decidable (IsLine s) := List.decidableBAll _ s.toList

@[simp] theorem isLine_append {s t : String} : IsLine (s ++ t) ↔ IsLine s ∧ IsLine t := by
  simp [IsLine, or_imp, forall_and]

@[simp] theorem isLine_ofList {cs : List Char} :
    IsLine (String.ofList cs) ↔ ∀ c ∈ cs, isPrintable c = true := by
  simp [IsLine]

/-- A text of one line does not end it. -/
theorem IsLine.lineFeed_notMem {s : String} (h : IsLine s) : '\n' ∉ s.toList :=
  fun hmem => absurd (h '\n' hmem) (by decide)

theorem isPrintable_of_ascii {c : Char} (h : 0x20 ≤ c.toNat ∧ c.toNat < 0x7F) :
    isPrintable c = true := by
  rw [isPrintable_of_lt h.2]
  exact decide_eq_true h.1

section Numbers

theorem isPrintable_digitChar : ∀ d < 16, isPrintable (Nat.digitChar d) = true := by decide

theorem isPrintable_of_mem_toDigits {base n : Nat} {c : Char} (hbase : 1 < base)
    (hsmall : base ≤ 16) (h : c ∈ Nat.toDigits base n) : isPrintable c = true := by
  induction n using Nat.strongRecOn with
  | ind n ih =>
      rw [Nat.toDigits_eq_if hbase] at h
      split at h
      · obtain rfl := List.mem_singleton.mp h
        exact isPrintable_digitChar n (by omega)
      · rcases List.mem_append.mp h with h | h
        · exact ih (n / base) (Nat.div_lt_self (by omega) hbase) h
        · obtain rfl := List.mem_singleton.mp h
          have hdigit : n % base < base := Nat.mod_lt n (by omega)
          exact isPrintable_digitChar _ (by omega)

@[simp] theorem isLine_toString (n : Nat) : IsLine (toString n) := by
  intro c hc
  rw [Nat.toString_eq_ofList_toDigits, String.toList_ofList] at hc
  exact isPrintable_of_mem_toDigits (by decide) (by decide) hc

@[simp] theorem isLine_position (p : Position) : IsLine p.text := by
  simp only [Position.text, isLine_append, isLine_toString, true_and, and_true]
  decide

end Numbers

section Quotes

theorem isPrintable_of_mem_hexadecimal {width n : Nat} {c : Char} (h : c ∈ hexadecimal width n) :
    isPrintable c = true := by
  rcases List.mem_append.mp h with h | h
  · obtain rfl := List.eq_of_mem_replicate h
    decide
  · exact isPrintable_of_mem_toDigits (by decide) (by decide) h

/-- An escape by a number is a backslash, a letter and digits. -/
theorem isPrintable_of_mem_numbered {mark c : Char} {width n : Nat}
    (hmark : isPrintable mark = true) (h : c ∈ '\\' :: mark :: hexadecimal width n) :
    isPrintable c = true := by
  rcases List.mem_cons.mp h with rfl | h
  · decide
  rcases List.mem_cons.mp h with rfl | h
  · exact hmark
  · exact isPrintable_of_mem_hexadecimal h

theorem isPrintable_of_mem_escape {quote c d : Char} (hquote : isPrintable quote = true)
    (h : d ∈ escape quote c) : isPrintable d = true := by
  have hpair {e : Char} (he : isPrintable e = true) (h : d ∈ ['\\', e]) :
      isPrintable d = true := by
    rcases List.mem_cons.mp h with rfl | h
    · decide
    · obtain rfl := List.mem_singleton.mp h
      exact he
  unfold escape at h
  split at h
  · next hc =>
    rcases hc with rfl | rfl
    · exact hpair hquote h
    · exact hpair (by decide) h
  split at h
  · exact hpair (by decide) h
  split at h
  · exact hpair (by decide) h
  split at h
  · exact hpair (by decide) h
  split at h
  · next hprintable =>
    obtain rfl := List.mem_singleton.mp h
    exact hprintable
  split at h
  · exact isPrintable_of_mem_numbered (by decide) h
  split at h
  · exact isPrintable_of_mem_numbered (by decide) h
  · exact isPrintable_of_mem_numbered (by decide) h

/-- A quoted text stands on one line. -/
@[simp] theorem isLine_quoted (s : String) : IsLine (quoted s) := by
  have hquote : isPrintable (quoteFor s.toList) = true := by
    rcases quoteFor_eq s.toList with h | h <;> rw [h] <;> decide
  simp only [quoted, isLine_ofList, List.mem_append, List.mem_cons, List.mem_flatMap,
    List.not_mem_nil, or_false]
  rintro c ((rfl | ⟨d, -, h⟩) | rfl)
  · exact hquote
  · exact isPrintable_of_mem_escape hquote h
  · exact hquote

end Quotes

end Sprig.Text
