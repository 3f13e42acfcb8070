import Mathlib.Algebra.Ring.Parity
import Sprig.Proofs.Token.Tiling

/-!
# Quotes in pairs

Quotes are taken two by two: outside of strings no lexeme and no skipped character holds one, and a
string holds the two around it. So a text has tokens just when its quotes can be paired, its strings
are the texts between the two quotes of each pair, and where one quote is left over it is the last
one of the text.
-/

namespace Sprig.Token

section Pieces

variable {c : Char} {cs : List Char} {lexeme : Lexeme}

theorem quote_notMem_of_isDigit {digits : List Char} (h : ∀ d ∈ digits, Text.isDigit d = true) :
    quote ∉ digits :=
  fun hmem => absurd (h quote hmem) (by decide)

theorem quote_notMem_signs : ∀ entry ∈ signs, quote ∉ entry.2.toList ∧ entry.1 ≠ .string := by
  decide

/-- Only the rows of a string hold a quote. -/
theorem Terminal.Matches.quote_notMem {terminal : Terminal} {row : List Char}
    (h : terminal.Matches row) (hterminal : terminal ≠ .string) : quote ∉ row := by
  cases h with
  | whole _ hdigits => exact quote_notMem_of_isDigit hdigits
  | fraction _ _ hdigits =>
      have hquote := quote_notMem_of_isDigit hdigits
      have hpoint : quote ≠ '.' := by decide
      simp only [List.mem_append, not_or] at hquote
      simp [hquote.1, hquote.2, hpoint]
  | string => exact absurd rfl hterminal
  | name hstart hparts =>
      intro hmem
      rcases List.mem_cons.mp hmem with rfl | hmem
      · exact absurd hstart (by decide)
      · exact absurd (hparts quote hmem) (by decide)
  | punctuation hsign => exact (quote_notMem_signs _ hsign).1

theorem count_quote_string {content : List Char} (h : quote ∉ content) :
    (Lexeme.string content).chars.count quote = 2 := by
  simp [Lexeme.chars, List.count_append, List.count_eq_zero_of_not_mem h]

theorem wordKind_ne_string (word : String) : wordKind word ≠ .string := by
  unfold wordKind
  split
  · decide
  · split <;> decide

/-- A lexeme is a string, or it has no quote and its token is none of a string. -/
theorem string_or_unquoted (h : pieceAt c cs = .lexeme lexeme) :
    (∃ content, quote ∉ content ∧ lexeme = .string content) ∨
      (quote ∉ lexeme.chars ∧ ∀ p, (lexeme.token p).kind ≠ .string) := by
  have hrow := (of_pieceAt h .start).1
  cases lexeme with
  | number whole fraction => exact .inr ⟨hrow.quote_notMem nofun, fun _ => nofun⟩
  | string content =>
      refine .inl ⟨content, ?_, rfl⟩
      generalize hchars : Lexeme.chars (.string content) = row at hrow
      cases hrow with
      | string hcontent => rwa [List.append_cancel_right (List.cons.inj hchars).2]
  | name letters => exact .inr ⟨hrow.quote_notMem nofun, fun _ => wordKind_ne_string _⟩
  | symbol kind chars =>
      refine .inr ⟨hrow.quote_notMem nofun, fun _ => ?_⟩
      cases hrow with
      | punctuation hsign => exact (quote_notMem_signs _ hsign).2

theorem quote_notMem_of_unclosed (h : pieceAt c cs = .unclosed) : quote ∉ cs := by
  intro hmem
  obtain ⟨content, rest, rfl, hcontent⟩ := List.eq_append_cons_of_mem hmem
  rw [eq_quote_of_unclosed h, pieceAt_string hcontent] at h
  cases h

theorem ne_quote_of_skipped (h : pieceAt c cs = .skipped) : c ≠ quote := by
  rintro rfl
  rw [pieceAt, if_pos rfl] at h
  dsimp only at h
  split at h <;> cases h

end Pieces

/-- The strings among some tokens. -/
def strings (tokens : List Token) : List Token := tokens.filter (·.kind = .string)

/-- Whether a place is that of the last quote of a text that goes on behind some characters, with an
even number of quotes in front of it. -/
def LeftOpenAt (front cs : List Char) (p : Text.Position) : Prop :=
  ∃ before content, cs = before ++ quote :: content ∧ Even (before.count quote) ∧
    quote ∉ content ∧ p = .behind (front ++ before)

/-- Whether some tokens are the strings of a text that goes on behind some characters: one for every
two quotes, and with twice as many quotes in front as there are strings before it. -/
structure Pairs (front cs : List Char) (found : List Token) : Prop where
  /-- There is one string for every two quotes. -/
  count : cs.count quote = 2 * found.length
  /-- A string is what stands between two quotes, and its place is that of the first. -/
  between : ∀ i t, found[i]? = some t → ∃ before content rest,
    cs = before ++ quote :: content ++ quote :: rest ∧ before.count quote = 2 * i ∧
      quote ∉ content ∧ t = ⟨.string, .text (String.ofList content), .behind (front ++ before)⟩

section Scanning

variable {front row content rest cs : List Char} {found tokens : List Token} {p : Text.Position}

theorem LeftOpenAt.behind (h : LeftOpenAt (front ++ row) rest p) (hrow : Even (row.count quote)) :
    LeftOpenAt front (row ++ rest) p := by
  obtain ⟨before, content, rfl, heven, hcontent, rfl⟩ := h
  refine ⟨row ++ before, content, by rw [List.append_assoc], ?_, hcontent, by
    rw [List.append_assoc]⟩
  rw [List.count_append]
  exact hrow.add heven

theorem LeftOpenAt.odd (h : LeftOpenAt front cs p) : Odd (cs.count quote) := by
  obtain ⟨before, content, rfl, heven, hcontent, -⟩ := h
  rw [List.count_append, List.count_cons_self, List.count_eq_zero_of_not_mem hcontent]
  exact heven.add_one

theorem Pairs.even (h : Pairs front cs found) : Even (cs.count quote) := by
  rw [h.count]
  exact even_two_mul _

/-- The strings behind some characters, in front of which there are as many strings as pairs of
quotes. -/
theorem exists_between_of_behind (h : Pairs (front ++ row) rest found) {n i : Nat}
    (hrow : row.count quote = 2 * n) {t : Token} (ht : found[i]? = some t) :
    ∃ before content further,
      row ++ rest = before ++ quote :: content ++ quote :: further ∧
        before.count quote = 2 * (n + i) ∧ quote ∉ content ∧
        t = ⟨.string, .text (String.ofList content), .behind (front ++ before)⟩ := by
  obtain ⟨before, content, further, rfl, hcount, hcontent, rfl⟩ := h.between i t ht
  refine ⟨row ++ before, content, further, by simp, ?_, hcontent, by rw [List.append_assoc]⟩
  rw [List.count_append, hrow, hcount]
  omega

/-- Characters without a quote change no string behind them. -/
theorem Pairs.behind_plain (h : Pairs (front ++ row) rest found) (hrow : quote ∉ row) :
    Pairs front (row ++ rest) found := by
  have hzero := List.count_eq_zero_of_not_mem hrow
  refine ⟨by rw [List.count_append, hzero, h.count, Nat.zero_add], fun i t ht => ?_⟩
  simpa using exists_between_of_behind h (n := 0) hzero ht

/-- A string stands before the strings behind it. -/
theorem Pairs.behind_string (h : Pairs (front ++ (Lexeme.string content).chars) rest found)
    (hcontent : quote ∉ content) : Pairs front ((Lexeme.string content).chars ++ rest)
      ((Lexeme.string content).token (.behind front) :: found) := by
  have hrow := count_quote_string hcontent
  refine ⟨by rw [List.count_append, hrow, h.count, List.length_cons]; omega, ?_⟩
  intro i t ht
  cases i with
  | zero =>
      obtain rfl := Option.some.inj ht
      refine ⟨[], content, rest, by simp [Lexeme.chars], rfl, hcontent, ?_⟩
      rw [List.append_nil, Lexeme.token]
  | succ i =>
      rw [Nat.add_comm i 1]
      exact exists_between_of_behind h (n := 1) hrow ht

/-- A text is scanned up to an open quote that is its last one, or all its quotes are paired. -/
theorem quotes_of_scanFrom (front : List Char) (p : Text.Position) (cs : List Char)
    (hp : p = .behind front) :
    match scanFrom p cs with
    | .error fault => LeftOpenAt front cs fault.position
    | .ok tokens => Pairs front cs (strings tokens) := by
  induction p, cs using scanFrom.induct generalizing front with
  | case1 p =>
      rw [scanFrom_nil]
      exact ⟨rfl, fun i t ht => by cases ht⟩
  | case2 p c cs hpiece =>
      rw [scanFrom, hpiece, eq_quote_of_unclosed hpiece]
      exact ⟨[], cs, rfl, Even.zero, quote_notMem_of_unclosed hpiece, by simpa using hp⟩
  | case3 p c cs hpiece ih =>
      have hc : quote ∉ [c] := by simpa using (ne_quote_of_skipped hpiece).symm
      have hbehind := ih (front ++ [c]) (by rw [hp, Text.Position.next_behind])
      rw [scanFrom, hpiece]
      dsimp only
      split at hbehind
      · have hopen := hbehind.behind (by simp [List.count_eq_zero_of_not_mem hc])
        exact hopen
      · have hpairs := hbehind.behind_plain hc
        exact hpairs
  | case4 p c cs lexeme hpiece fault hrest ih =>
      have hbehind := ih (front ++ lexeme.chars) (by rw [hp, Text.Position.after_behind])
      rw [hrest] at hbehind
      rw [scanFrom, hpiece]
      simp only [hrest]
      rw [← chars_append_drop hpiece]
      apply hbehind.behind
      rcases string_or_unquoted hpiece with ⟨content, hcontent, rfl⟩ | ⟨hplain, -⟩
      · rw [count_quote_string hcontent]
        exact even_two
      · rw [List.count_eq_zero_of_not_mem hplain]
        exact Even.zero
  | case5 p c cs lexeme hpiece tokens hrest ih =>
      have hbehind := ih (front ++ lexeme.chars) (by rw [hp, Text.Position.after_behind])
      rw [hrest] at hbehind
      rw [scanFrom, hpiece]
      simp only [hrest]
      rw [← chars_append_drop hpiece]
      rcases string_or_unquoted hpiece with ⟨content, hcontent, rfl⟩ | ⟨hplain, hkind⟩
      · rw [hp]
        exact hbehind.behind_string hcontent
      · rw [strings, List.filter_cons_of_neg (by simpa using hkind p)]
        exact hbehind.behind_plain hplain

end Scanning

/-- A text is refused just when it has an odd number of quotes, and then at the last quote. Else it
has tokens, with one string for every two quotes: the strings are in their order the texts between
the first and the second quote, the third and the fourth, and so on. -/
theorem scan_by_quotes (source : String) :
    ((∃ fault, scan source = .error fault) ↔ Odd (source.toList.count quote)) ∧
    (∀ fault, scan source = .error fault → ∃ before content,
      source.toList = before ++ quote :: content ∧ quote ∉ content ∧
        fault.position = .behind before) ∧
    (¬Odd (source.toList.count quote) → ∃ tokens, scan source = .ok tokens ∧
      2 * (strings tokens).length = source.toList.count quote ∧
      ∀ i t, (strings tokens)[i]? = some t → ∃ before content rest,
        source.toList = before ++ quote :: content ++ quote :: rest ∧
          before.count quote = 2 * i ∧ quote ∉ content ∧
          t = ⟨.string, .text (String.ofList content), .behind before⟩) := by
  have hquotes := quotes_of_scanFrom [] .start source.toList rfl
  change match scan source with | .error fault => _ | .ok tokens => _ at hquotes
  cases hscan : scan source with
  | error fault =>
      rw [hscan] at hquotes
      refine ⟨⟨fun _ => hquotes.odd, fun _ => ⟨fault, rfl⟩⟩, ?_, fun h => absurd hquotes.odd h⟩
      rintro _ ⟨⟩
      obtain ⟨before, content, hsplit, -, hcontent, hplace⟩ := hquotes
      exact ⟨before, content, hsplit, hcontent, hplace⟩
  | ok tokens =>
      rw [hscan] at hquotes
      have heven := Nat.not_odd_iff_even.mpr hquotes.even
      refine ⟨⟨by rintro ⟨_, ⟨⟩⟩, fun h => absurd h heven⟩, by rintro _ ⟨⟩, fun _ => ?_⟩
      exact ⟨tokens, rfl, hquotes.count.symm, hquotes.between⟩

end Sprig.Token
