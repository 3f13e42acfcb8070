import Sprig.Proofs.Numeric.Numeral
import Sprig.Proofs.Token.Concat

/-!
# Terminals

A terminal is a sort of lexemes: numerals, quoted texts, names, and the signs of each kind of
punctuation. Here each terminal is a set of rows of characters, said without the scanner, and what
such a row stands for is a relation. Where a row of a terminal stands at the front of a text, the
scanner finds a lexeme that is as long at least. Where none does, it skips a character or finds an
open quote.
-/

namespace Sprig.Token

/-- The sorts of lexemes. -/
inductive Terminal
  | number
  | string
  | name
  | punctuation (kind : Kind)
deriving DecidableEq

/-- The signs of punctuation, with the kinds of their tokens. -/
def signs : List (Kind × String) := [
  (.comparison, "=="), (.comparison, "!="), (.comparison, "<="), (.comparison, ">="),
  (.assign, "="), (.operator, "+"), (.operator, "-"), (.operator, "*"), (.operator, "/"),
  (.operator, "<"), (.operator, ">"), (.power, "^"), (.leftParen, "("), (.rightParen, ")"),
  (.leftBrace, "\x7b"), (.rightBrace, "\x7d"), (.leftBracket, "["), (.rightBracket, "]"),
  (.comma, ","), (.semicolon, ";"), (.dot, ".")]

/-- Whether a row of characters is of a terminal. -/
inductive Terminal.Matches : Terminal → List Char → Prop
  | whole {digits} (nonempty : digits ≠ []) (areDigits : ∀ d ∈ digits, Text.isDigit d = true) :
      Matches .number digits
  | fraction {digits fraction} (nonempty : digits ≠ []) (further : fraction ≠ [])
      (areDigits : ∀ d ∈ digits ++ fraction, Text.isDigit d = true) :
      Matches .number (digits ++ '.' :: fraction)
  | string {content} (unquoted : quote ∉ content) : Matches .string (quote :: content ++ [quote])
  | name {c cs} (start : isNameStart c = true) (parts : ∀ d ∈ cs, isNamePart d = true) :
      Matches .name (c :: cs)
  | punctuation {kind word} (sign : (kind, word) ∈ signs) :
      Matches (.punctuation kind) word.toList

/-- The kind and the literal of the token that a row of characters of a terminal stands for. The
value of a numeral is what its text is as a real number. -/
inductive Terminal.Denotes : Terminal → List Char → Kind → Literal → Prop
  | number {cs x} (value : Numeric.readReal? (String.ofList cs) = some x) :
      Denotes .number cs .number (.number x)
  | string {content} :
      Denotes .string (quote :: content ++ [quote]) .string (.text (String.ofList content))
  | keyword {cs} (word : String.ofList cs ∈ keywords) :
      Denotes .name cs .keyword (.text (String.ofList cs))
  | giveBack {cs} (word : String.ofList cs = returnWord) :
      Denotes .name cs .giveBack (.text (String.ofList cs))
  | identifier {cs} (noKeyword : String.ofList cs ∉ keywords)
      (noReturn : String.ofList cs ≠ returnWord) :
      Denotes .name cs .identifier (.text (String.ofList cs))
  | punctuation {kind cs} : Denotes (.punctuation kind) cs kind (.text (String.ofList cs))

/-- Whether a character in front of others is skipped: white space, a `!` without `=` behind it, or
a character that no row of a terminal starts with. -/
def Skips (c : Char) (rest : List Char) : Prop :=
  Text.isBlank c = true ∨ (c = '!' ∧ rest.head? ≠ some '=') ∨
    ∀ terminal cs, Terminal.Matches terminal cs → cs.head? ≠ some c

section Classes

variable {c : Char} {cs : List Char} {lexeme : Lexeme}

theorem isNameStart_iff (c : Char) : isNameStart c = true ↔
    (0x61 ≤ c.toNat ∧ c.toNat ≤ 0x7A) ∨ (0x41 ≤ c.toNat ∧ c.toNat ≤ 0x5A) ∨ c.toNat = 0x5F := by
  have hcode : c = '_' ↔ c.toNat = 0x5F := Char.toNat_inj.symm
  simp only [isNameStart, decide_eq_true_eq, Char.le_def, UInt32.le_iff_toNat_le, hcode]
  rfl

theorem isNameStart_of_isDigit (h : Text.isDigit c = true) : isNameStart c = false := by
  obtain ⟨base, hmem, hle, hlt, -⟩ := Numeric.exists_zero_of_isDigit h
  have hranges := Numeric.digitZeros_ranges base hmem
  rw [← Bool.not_eq_true, isNameStart_iff]
  omega

/-- What holds of the characters before a second one of a sign, one by one. -/
theorem forall_first {P : Char → Prop} :
    (∀ d ∈ ['=', '!', '<', '>'], P d) ↔ P '=' ∧ P '!' ∧ P '<' ∧ P '>' := by simp

theorem not_symbol (h : symbol? c cs = some lexeme) :
    c ≠ quote ∧ isNameStart c = false ∧ Text.isDigit c = false ∧ Text.isBlank c = false := by
  have hsingles : ∀ entry ∈ singles, entry.1 ≠ quote ∧ isNameStart entry.1 = false ∧
      Text.isDigit entry.1 = false ∧ Text.isBlank entry.1 = false := by decide
  have hfirsts : ∀ d ∈ ['=', '!', '<', '>'], d ≠ quote ∧ isNameStart d = false ∧
      Text.isDigit d = false ∧ Text.isBlank d = false := forall_first.mpr (by decide)
  unfold symbol? at h
  split at h
  · next hpair => exact hfirsts c hpair.2
  · obtain ⟨kind, hkind, -⟩ := Option.map_eq_some_iff.mp h
    obtain ⟨front, back, hsplit, -⟩ := List.lookup_eq_some_iff.mp hkind
    exact hsingles (c, kind) (by simp [hsplit])

theorem symbol?_eq_none (h : c = quote ∨ isNameStart c = true ∨ Text.isDigit c = true ∨
    Text.isBlank c = true) (cs : List Char) : symbol? c cs = none := by
  cases hsymbol : symbol? c cs with
  | none => rfl
  | some lexeme =>
      obtain ⟨hquote, hname, hdigit, hblank⟩ := not_symbol hsymbol
      rw [hname, hdigit, hblank] at h
      simp [hquote] at h

theorem pieceAt_name (h : isNameStart c = true) (cs : List Char) :
    pieceAt c cs = .lexeme (.name (c :: cs.takeWhile isNamePart)) := by
  have hquote : c ≠ quote := by
    rintro rfl
    exact absurd h (by decide)
  rw [pieceAt, if_neg hquote, if_pos h]

theorem pieceAt_symbol (h : symbol? c cs = some lexeme) : pieceAt c cs = .lexeme lexeme := by
  obtain ⟨hquote, hname, -, -⟩ := not_symbol h
  rw [pieceAt, if_neg hquote, if_neg (by simp [hname]), h]

theorem pieceAt_digit (h : Text.isDigit c = true) (cs : List Char) :
    pieceAt c cs = .lexeme (.number (c :: cs.takeWhile Text.isDigit)
      (fractionOf (cs.dropWhile Text.isDigit))) := by
  have hquote : c ≠ quote := by
    rintro rfl
    exact absurd h (by decide)
  rw [pieceAt, if_neg hquote, if_neg (by simp [isNameStart_of_isDigit h]),
    symbol?_eq_none (.inr (.inr (.inl h))) cs]
  exact if_pos h

/-- Quoted text is what stands up to the next quote. -/
theorem pieceAt_string {content : List Char} (h : quote ∉ content) (rest : List Char) :
    pieceAt quote (content ++ quote :: rest) = .lexeme (.string content) := by
  have hcontent : (content ++ quote :: rest).takeWhile (· ≠ quote) = content := by
    rw [List.takeWhile_append_of_pos fun d hd => by simpa using fun heq : d = quote => h (heq ▸ hd),
      List.takeWhile_cons_of_neg (by simp), List.append_nil]
  rw [pieceAt, if_pos rfl, hcontent]
  simp

end Classes

/-- The terminal that a lexeme is of. -/
def Lexeme.terminal : Lexeme → Terminal
  | .number _ _ => .number
  | .string _ => .string
  | .name _ => .name
  | .symbol kind _ => .punctuation kind

section Lexemes

variable {c : Char} {cs : List Char} {lexeme : Lexeme}

theorem exists_sign (h : symbol? c cs = some lexeme) :
    ∃ kind word, (kind, word) ∈ signs ∧ lexeme = .symbol kind word.toList := by
  have hsingles : ∀ entry ∈ singles, (entry.2, String.ofList [entry.1]) ∈ signs := by decide
  have hpairs : ∀ d ∈ ['=', '!', '<', '>'], (Kind.comparison, String.ofList [d, '=']) ∈ signs :=
    forall_first.mpr (by decide)
  unfold symbol? at h
  split at h
  · next hpair =>
    obtain rfl := Option.some.inj h
    exact ⟨_, _, hpairs c hpair.2, by rw [String.toList_ofList]⟩
  · obtain ⟨kind, hkind, rfl⟩ := Option.map_eq_some_iff.mp h
    obtain ⟨front, back, hsplit, -⟩ := List.lookup_eq_some_iff.mp hkind
    exact ⟨kind, _, hsingles (c, kind) (by simp [hsplit]), by rw [String.toList_ofList]⟩

theorem isDigit_of_mem_takeWhile {d : Char} (h : d ∈ cs.takeWhile Text.isDigit) :
    Text.isDigit d = true :=
  List.all_eq_true.mp List.all_takeWhile d h

theorem isDigit_of_mem_fractionOf {d : Char} (h : d ∈ fractionOf cs) : Text.isDigit d = true := by
  unfold fractionOf at h
  split at h
  · exact isDigit_of_mem_takeWhile h
  · cases h

/-- A numeral is of its terminal, and stands for the Number that it is read as. -/
theorem of_number {whole fraction : List Char} (hne : whole ≠ [])
    (h : ∀ d ∈ whole ++ fraction, Text.isDigit d = true) :
    Terminal.number.Matches (Lexeme.number whole fraction).chars ∧
      Terminal.number.Denotes (Lexeme.number whole fraction).chars .number
        (.number (Numeric.ofNumeral whole fraction)) := by
  cases fraction with
  | nil =>
      rw [List.append_nil] at h
      exact ⟨.whole hne h, .number (Numeric.readReal?_whole hne h)⟩
  | cons d fraction =>
      have hfraction := List.cons_ne_nil d fraction
      exact ⟨.fraction hne hfraction h, .number (Numeric.readReal?_fraction hne hfraction h)⟩

/-- A name stands for a word of the language or for an identifier. -/
theorem denotes_name (cs : List Char) :
    Terminal.name.Denotes cs (wordKind (String.ofList cs)) (.text (String.ofList cs)) := by
  by_cases hreturn : String.ofList cs = returnWord
  · rw [wordKind, if_pos hreturn]
    exact .giveBack hreturn
  · rw [wordKind, if_neg hreturn]
    split
    · next hkeyword => exact .keyword hkeyword
    · next hkeyword => exact .identifier hkeyword hreturn

/-- The lexeme at the front of a text is of its terminal, and becomes the token that its characters
stand for. -/
theorem of_pieceAt (h : pieceAt c cs = .lexeme lexeme) (p : Text.Position) :
    lexeme.terminal.Matches lexeme.chars ∧
      lexeme.terminal.Denotes lexeme.chars (lexeme.token p).kind (lexeme.token p).literal := by
  unfold pieceAt at h
  split at h
  · next hquote =>
    dsimp only at h
    split at h
    · obtain rfl := Piece.lexeme.inj h
      refine ⟨.string fun hmem => ?_, .string⟩
      have hall := List.all_eq_true.mp List.all_takeWhile _ hmem
      simp at hall
    · cases h
  · split at h
    · next hname =>
      obtain rfl := Piece.lexeme.inj h
      refine ⟨.name hname fun d hd => ?_, denotes_name _⟩
      exact List.all_eq_true.mp List.all_takeWhile d hd
    · split at h
      · next hsymbol =>
        obtain rfl := Piece.lexeme.inj h
        obtain ⟨kind, word, hsign, rfl⟩ := exists_sign hsymbol
        exact ⟨.punctuation hsign, .punctuation⟩
      · split at h
        · next hdigit =>
          obtain rfl := Piece.lexeme.inj h
          apply of_number (List.cons_ne_nil _ _)
          intro d hd
          rcases List.mem_append.mp hd with hd | hd
          · rcases List.mem_cons.mp hd with rfl | hd
            · exact hdigit
            · exact isDigit_of_mem_takeWhile hd
          · exact isDigit_of_mem_fractionOf hd
        · cases h

theorem length_number (whole fraction : List Char) :
    whole.length ≤ (Lexeme.number whole fraction).chars.length ∧ (fraction ≠ [] →
      (Lexeme.number whole fraction).chars.length = whole.length + (fraction.length + 1)) := by
  cases fraction with
  | nil => simp [Lexeme.chars]
  | cons d fraction => simp [Lexeme.chars]

theorem symbol?_of_lookup {kind : Kind} (h : singles.lookup c = some kind) (cs : List Char) :
    ∃ lexeme, symbol? c cs = some lexeme ∧ 1 ≤ lexeme.chars.length ∧
      (lexeme.chars.length = 1 → lexeme.terminal = .punctuation kind) := by
  rw [symbol?]
  split
  · exact ⟨_, rfl, by simp [Lexeme.chars], by simp [Lexeme.chars]⟩
  · exact ⟨.symbol kind [c], by rw [h, Option.map_some], Nat.le_refl _, fun _ => rfl⟩

/-- A sign has one character that is a lexeme by itself, or is a comparison of two. -/
theorem sign_cases : ∀ entry ∈ signs,
    (entry.1 = .comparison ∧ ∃ d ∈ ['=', '!', '<', '>'], entry.2.toList = [d, '=']) ∨
    ∃ single ∈ singles, entry.2.toList = [single.1] ∧ singles.lookup single.1 = some entry.1 := by
  simp only [List.mem_cons, List.not_mem_nil, or_false, exists_eq_or_imp, exists_eq_left]
  decide

theorem symbol?_of_sign {kind : Kind} {word : String} (h : (kind, word) ∈ signs)
    {rest : List Char} (hrest : word.toList ++ rest = c :: cs) :
    ∃ lexeme, symbol? c cs = some lexeme ∧ word.toList.length ≤ lexeme.chars.length ∧
      (lexeme.chars.length = word.toList.length → lexeme.terminal = .punctuation kind) := by
  rcases sign_cases _ h with ⟨rfl, d, hd, hword⟩ | ⟨single, -, hword, hlookup⟩
  · rw [hword] at hrest ⊢
    obtain ⟨rfl, rfl⟩ := List.cons.inj hrest
    exact ⟨.symbol .comparison [d, '='], if_pos ⟨rfl, hd⟩, Nat.le_refl 2, fun _ => rfl⟩
  · rw [hword] at hrest ⊢
    obtain ⟨rfl, -⟩ := List.cons.inj hrest
    exact symbol?_of_lookup hlookup cs

/-- Wherever a row of a terminal stands, the scanner finds a lexeme that is as long at least. If it
is no longer, it is of the same terminal. -/
theorem exists_lexeme_of_matches {terminal : Terminal} {row : List Char}
    (h : terminal.Matches row) (hfront : row <+: c :: cs) :
    ∃ lexeme, pieceAt c cs = .lexeme lexeme ∧ row.length ≤ lexeme.chars.length ∧
      (lexeme.chars.length = row.length → lexeme.terminal = terminal) := by
  obtain ⟨rest, hrest⟩ := hfront
  cases h with
  | @whole digits hne hdigits =>
      obtain ⟨d, ds, rfl⟩ := List.exists_cons_of_ne_nil hne
      rw [List.cons_append] at hrest
      obtain ⟨rfl, rfl⟩ := List.cons.inj hrest
      obtain ⟨hd, hds⟩ := List.forall_mem_cons.mp hdigits
      refine ⟨_, pieceAt_digit hd _, ?_, fun _ => rfl⟩
      rw [List.takeWhile_append_of_pos hds]
      have hchars := (length_number (d :: (ds ++ rest.takeWhile Text.isDigit))
        (fractionOf ((ds ++ rest).dropWhile Text.isDigit))).1
      simp only [List.length_cons, List.length_append] at hchars ⊢
      omega
  | @fraction digits fraction hne hfurther hdigits =>
      obtain ⟨d, ds, rfl⟩ := List.exists_cons_of_ne_nil hne
      rw [List.append_assoc, List.cons_append, List.cons_append] at hrest
      obtain ⟨rfl, rfl⟩ := List.cons.inj hrest
      obtain ⟨hwhole, hfraction⟩ := List.forall_mem_append.mp hdigits
      obtain ⟨hd, hds⟩ := List.forall_mem_cons.mp hwhole
      have hpoint : ¬Text.isDigit '.' = true := by decide
      refine ⟨_, pieceAt_digit hd _, ?_, fun _ => rfl⟩
      rw [List.takeWhile_append_of_pos hds, List.dropWhile_append_of_pos hds,
        List.takeWhile_cons_of_neg hpoint, List.dropWhile_cons_of_neg hpoint, fractionOf_point,
        List.takeWhile_append_of_pos hfraction, List.append_nil,
        (length_number _ _).2 (by simp [hfurther])]
      simp only [List.length_append, List.length_cons]
      omega
  | @string content hquote =>
      simp only [List.cons_append, List.append_assoc, List.cons.injEq] at hrest
      obtain ⟨rfl, rfl⟩ := hrest
      exact ⟨_, pieceAt_string hquote rest, Nat.le_refl _, fun _ => rfl⟩
  | @name d parts hstart hparts =>
      rw [List.cons_append] at hrest
      obtain ⟨rfl, rfl⟩ := List.cons.inj hrest
      refine ⟨_, pieceAt_name hstart _, ?_, fun _ => rfl⟩
      rw [List.takeWhile_append_of_pos hparts]
      simp [Lexeme.chars]
  | @punctuation kind word hsign =>
      obtain ⟨lexeme, hsymbol, hlength⟩ := symbol?_of_sign hsign hrest
      exact ⟨lexeme, pieceAt_symbol hsymbol, hlength⟩

theorem Terminal.Matches.ne_nil {terminal : Terminal} {row : List Char}
    (h : terminal.Matches row) : row ≠ [] := by
  cases h with
  | whole hne => exact hne
  | fraction hne => simp
  | string => simp
  | name => simp
  | punctuation hsign =>
      rcases sign_cases _ hsign with ⟨-, d, -, hword⟩ | ⟨single, -, hword, -⟩
      · simp [hword]
      · simp [hword]

theorem eq_quote_of_unclosed (h : pieceAt c cs = .unclosed) : c = quote := by
  by_cases hquote : c = quote
  · exact hquote
  · rw [pieceAt, if_neg hquote] at h
    split at h
    · cases h
    · split at h
      · cases h
      · split at h <;> cases h

theorem skips_of_pieceAt (h : pieceAt c cs = .skipped) : Skips c cs := by
  by_cases hmark : c = '!'
  · refine .inr (.inl ⟨hmark, fun hhead => ?_⟩)
    have hsymbol : symbol? c cs = some (.symbol .comparison [c, '=']) :=
      if_pos ⟨hhead, by simp [hmark]⟩
    rw [pieceAt_symbol hsymbol] at h
    cases h
  · refine .inr (.inr fun terminal row hrow hhead => ?_)
    obtain ⟨front, rfl⟩ := List.head?_eq_some_iff.mp hhead
    generalize hall : c :: front = row at hrow
    cases hrow with
    | whole hne hdigits =>
        rw [pieceAt_digit (hdigits c (by simp [← hall]))] at h
        cases h
    | fraction hne hfurther hdigits =>
        obtain ⟨d, ds, rfl⟩ := List.exists_cons_of_ne_nil hne
        obtain ⟨rfl, -⟩ := List.cons.inj hall
        rw [pieceAt_digit (hdigits c (by simp))] at h
        cases h
    | string =>
        obtain ⟨rfl, -⟩ := List.cons.inj hall
        rw [pieceAt, if_pos rfl] at h
        dsimp only at h
        split at h <;> cases h
    | name hstart =>
        obtain ⟨rfl, -⟩ := List.cons.inj hall
        rw [pieceAt_name hstart] at h
        cases h
    | punctuation hsign =>
        have hsome : ∃ kind, singles.lookup c = some kind := by
          have hpairs : ∀ d ∈ ['=', '!', '<', '>'], d ≠ '!' → (singles.lookup d).isSome :=
            forall_first.mpr (by decide)
          rcases sign_cases _ hsign with ⟨-, d, hd, hword⟩ | ⟨single, -, hword, hlookup⟩
          · obtain ⟨rfl, -⟩ := List.cons.inj (hall.trans hword)
            exact Option.isSome_iff_exists.mp (hpairs c hd hmark)
          · obtain ⟨rfl, -⟩ := List.cons.inj (hall.trans hword)
            exact ⟨_, hlookup⟩
        obtain ⟨kind, hlookup⟩ := hsome
        obtain ⟨lexeme, hsymbol, -⟩ := symbol?_of_lookup hlookup cs
        rw [pieceAt_symbol hsymbol] at h
        cases h

theorem pieceAt_of_skips (h : Skips c cs) : pieceAt c cs = .skipped := by
  rcases h with hblank | ⟨rfl, hhead⟩ | hnone
  · have hquote : c ≠ quote := by
      rintro rfl
      exact absurd hblank (by decide)
    have hname : isNameStart c = false := by
      rw [← Bool.not_eq_true, isNameStart_iff]
      simp only [Text.isBlank, decide_eq_true_eq] at hblank
      omega
    have hdigit : ¬Text.isDigit c = true := by
      intro hdigit
      rw [Numeric.isBlank_of_isDigit hdigit] at hblank
      cases hblank
    rw [pieceAt, if_neg hquote, if_neg (by simp [hname]),
      symbol?_eq_none (.inr (.inr (.inr hblank)))]
    exact if_neg hdigit
  · have hsymbol : symbol? '!' cs = none := by
      rw [symbol?, if_neg fun hpair => hhead hpair.1]
      rfl
    rw [pieceAt, if_neg (by decide), if_neg (by decide), hsymbol]
    exact if_neg (by decide)
  · cases hpiece : pieceAt c cs with
    | skipped => rfl
    | unclosed =>
        obtain rfl := eq_quote_of_unclosed hpiece
        exact absurd rfl (hnone _ _ (@Terminal.Matches.string [] (by simp)))
    | lexeme lexeme =>
        have hrow := (of_pieceAt hpiece .start).1
        obtain ⟨d, row, hchars⟩ := List.exists_cons_of_ne_nil hrow.ne_nil
        have hsplit := chars_append_drop hpiece
        rw [hchars] at hsplit
        obtain ⟨rfl, -⟩ := List.cons.inj hsplit
        exact absurd (by rw [hchars, List.head?_cons]) (hnone _ _ hrow)

/-- The longest row of a terminal at the front of a text is the lexeme that the scanner finds
there. -/
theorem pieceAt_of_longest {terminal : Terminal} {row rest : List Char}
    (h : terminal.Matches row) (hsplit : row ++ rest = c :: cs)
    (hlongest : ∀ other more, Terminal.Matches other more → more <+: row ++ rest →
      more.length ≤ row.length) :
    ∃ lexeme, pieceAt c cs = .lexeme lexeme ∧ row = lexeme.chars ∧ terminal = lexeme.terminal ∧
      rest = cs.drop (lexeme.chars.length - 1) := by
  obtain ⟨lexeme, hpiece, hlength, hterminal⟩ := exists_lexeme_of_matches h ⟨rest, hsplit⟩
  have hchars := chars_append_drop hpiece
  have hshort := hlongest _ _ (of_pieceAt hpiece .start).1 ⟨_, hchars.trans hsplit.symm⟩
  have hsame := Nat.le_antisymm hshort hlength
  obtain ⟨hrow, hrest⟩ := List.append_inj (hsplit.trans hchars.symm) hsame.symm
  exact ⟨lexeme, hpiece, hrow, (hterminal hsame).symm, hrest⟩

end Lexemes

section Meanings

variable {terminal : Terminal} {row : List Char}

/-- A row of characters stands for one kind and one literal. -/
theorem Terminal.Denotes.unique {kind other : Kind} {literal another : Literal}
    (h : terminal.Denotes row kind literal) (hother : terminal.Denotes row other another) :
    kind = other ∧ literal = another := by
  have hreturn : returnWord ∉ keywords := by decide
  cases h with
  | number hvalue =>
      cases hother with
      | number hanother => exact ⟨rfl, by rw [Option.some.inj (hvalue.symm.trans hanother)]⟩
  | @string content =>
      generalize hrow : quote :: content ++ [quote] = row at hother
      cases hother with
      | string =>
          have hcontent := List.append_cancel_right (List.cons.inj hrow).2
          exact ⟨rfl, by rw [hcontent]⟩
  | punctuation =>
      cases hother
      exact ⟨rfl, rfl⟩
  | keyword hword =>
      cases hother with
      | keyword => exact ⟨rfl, rfl⟩
      | giveBack hgiveBack => exact absurd (hgiveBack ▸ hword) hreturn
      | identifier hnone => exact absurd hword hnone
  | giveBack hgiveBack =>
      cases hother with
      | keyword hword => exact absurd (hgiveBack ▸ hword) hreturn
      | giveBack => exact ⟨rfl, rfl⟩
      | identifier _ hnone => exact absurd hgiveBack hnone
  | identifier hnoKeyword hnoReturn =>
      cases hother with
      | keyword hword => exact absurd hword hnoKeyword
      | giveBack hgiveBack => exact absurd hgiveBack hnoReturn
      | identifier => exact ⟨rfl, rfl⟩

end Meanings

end Sprig.Token
