import Sprig.Token.Scan

/-!
# Tokens that a text can spell

The kind of a token read from a text settles which literals it can have: a name is no word of the
language, an operator is one of six, a bracket is the bracket itself. A text never spells the
closing token, and a token list read from a text has exactly one, at its end.
-/

namespace Sprig.Token

/-- Whether a text can spell a token of a kind with a literal. -/
def Kind.admits : Kind → Literal → Bool
  | .number, .number _ => true
  | .string, .text _ => true
  | .identifier, .text s => wordKind s = .identifier
  | .keyword, .text s => wordKind s = .keyword
  | .giveBack, .text s => s = returnWord
  | .operator, .text s => s ∈ ["+", "-", "*", "/", "<", ">"]
  | .comparison, .text s => s ∈ ["==", "!=", "<=", ">="]
  | .power, .text s => s = "^"
  | .assign, .text s => s = "="
  | .leftParen, .text s => s = "("
  | .rightParen, .text s => s = ")"
  | .leftBrace, .text s => s = "\x7b"
  | .rightBrace, .text s => s = "\x7d"
  | .leftBracket, .text s => s = "["
  | .rightBracket, .text s => s = "]"
  | .comma, .text s => s = ","
  | .semicolon, .text s => s = ";"
  | .dot, .text s => s = "."
  | _, _ => false

/-- A token that a text can spell. -/
def IsLexical (t : Token) : Prop := t.kind.admits t.literal = true

namespace IsLexical

variable {t : Token}

theorem kind_ne_finish (h : t.IsLexical) : t.kind ≠ .finish := by
  intro hkind
  simp [IsLexical, hkind, Kind.admits] at h

theorem number (h : t.IsLexical) (hkind : t.kind = .number) : ∃ x, t.literal = .number x := by
  rw [IsLexical, hkind] at h
  cases hliteral : t.literal with
  | number x => exact ⟨x, rfl⟩
  | _ => simp [hliteral, Kind.admits] at h

/-- A token that is no Number says a word that its kind admits. -/
theorem text (h : t.IsLexical) (hkind : t.kind ≠ .number) :
    ∃ s, t.literal = .text s ∧ t.kind.admits (.text s) = true := by
  rw [IsLexical] at h
  cases hliteral : t.literal with
  | text s => exact ⟨s, rfl, hliteral ▸ h⟩
  | _ =>
      rw [hliteral] at h
      cases hk : t.kind <;> simp_all [Kind.admits]

end IsLexical

theorem admits_word (s : String) : (wordKind s).admits (.text s) = true := by
  by_cases hreturn : s = returnWord
  · simp [wordKind, hreturn, Kind.admits]
  · by_cases hword : s ∈ keywords
    · simp [wordKind, hreturn, hword, Kind.admits]
    · simp [wordKind, hreturn, hword, Kind.admits]

theorem admits_comparison {c : Char} (h : c ∈ ['=', '!', '<', '>']) :
    Kind.comparison.admits (.text (String.ofList [c, '='])) = true := by
  simp only [List.mem_cons, List.not_mem_nil, or_false] at h
  rcases h with rfl | rfl | rfl | rfl <;> rfl

theorem admits_single :
    ∀ entry ∈ singles, entry.2.admits (.text (String.ofList [entry.1])) = true := by
  decide

theorem isLexical_symbol {c : Char} {cs : List Char} {lexeme : Lexeme}
    (h : symbol? c cs = some lexeme) (p : Text.Position) : (lexeme.token p).IsLexical := by
  unfold symbol? at h
  split at h
  · next hpair =>
    obtain rfl := Option.some.inj h
    exact admits_comparison hpair.2
  · obtain ⟨kind, hkind, rfl⟩ := Option.map_eq_some_iff.mp h
    obtain ⟨before, after, hsingles, -⟩ := List.lookup_eq_some_iff.mp hkind
    exact admits_single (c, kind) (by simp [hsingles])

/-- Every lexeme at the front of a text becomes a token that a text can spell. -/
theorem isLexical_of_pieceAt {c : Char} {cs : List Char} {lexeme : Lexeme}
    (h : pieceAt c cs = .lexeme lexeme) (p : Text.Position) : (lexeme.token p).IsLexical := by
  unfold pieceAt at h
  split at h
  · dsimp only at h
    split at h
    · obtain rfl := Piece.lexeme.inj h
      rfl
    · cases h
  · split at h
    · obtain rfl := Piece.lexeme.inj h
      exact admits_word _
    · split at h
      · next hsymbol =>
        obtain rfl := Piece.lexeme.inj h
        exact isLexical_symbol hsymbol p
      · split at h
        · obtain rfl := Piece.lexeme.inj h
          rfl
        · cases h

theorem scanFrom_lexical (p : Text.Position) (cs : List Char) {tokens : List Token}
    (h : scanFrom p cs = .ok tokens) :
    ∃ body closing, tokens = body ++ [closing] ∧ closing.kind = .finish ∧
      ∀ t ∈ body, t.IsLexical := by
  induction p, cs using scanFrom.induct generalizing tokens with
  | case1 p =>
      rw [scanFrom] at h
      obtain rfl := Except.ok.inj h
      exact ⟨[], _, rfl, rfl, by simp⟩
  | case2 p c cs hpiece =>
      rw [scanFrom, hpiece] at h
      cases h
  | case3 p c cs hpiece ih =>
      rw [scanFrom, hpiece] at h
      exact ih h
  | case4 p c cs lexeme hpiece fault hrest ih =>
      rw [scanFrom, hpiece] at h
      simp only [hrest] at h
      cases h
  | case5 p c cs lexeme hpiece rest hrest ih =>
      rw [scanFrom, hpiece] at h
      simp only [hrest] at h
      obtain rfl := Except.ok.inj h
      obtain ⟨body, closing, rfl, hclosing, hbody⟩ := ih hrest
      refine ⟨lexeme.token p :: body, closing, rfl, hclosing, ?_⟩
      intro t ht
      rcases List.mem_cons.mp ht with rfl | ht
      · exact isLexical_of_pieceAt hpiece p
      · exact hbody t ht

/-- The tokens of a text are tokens that a text can spell, and one closing token behind them. -/
theorem scan_lexical {source : String} {tokens : List Token} (h : scan source = .ok tokens) :
    ∃ body closing, tokens = body ++ [closing] ∧ closing.kind = .finish ∧
      ∀ t ∈ body, t.IsLexical :=
  scanFrom_lexical .start source.toList h

end Sprig.Token
