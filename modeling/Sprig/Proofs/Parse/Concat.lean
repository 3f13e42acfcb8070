import Sprig.Proofs.Grammar.Shape
import Sprig.Proofs.Parse.TrackStatement
import Sprig.Proofs.Token.Concat

/-!
# Programs behind a semicolon

A program with a semicolon and any text behind it is read as the program and then the text. What
follows is read as it is read by itself, and where it is no program, it is no program for the same
reason and at the same token.

## Implementation notes

In front of a semicolon every statement of the program ends where it ended in front of the closing
token. Behind the semicolon stand the tokens of the other text, only at other places.
-/

namespace Sprig

/-- What is wrong with a part of a text that starts at `start`, at its place in the whole text. -/
def SourceFault.within (start : Text.Position) : SourceFault → SourceFault
  | .unclosed fault => .unclosed (fault.within start)
  | .malformed fault => .malformed ⟨fault.why, fault.found.within start⟩

namespace Parse

section Moved

variable {move : Token → Token}

theorem current_of_tokens {c d : Cursor} (h : d.tokens = c.tokens.map move) :
    d.current = move c.current := (List.cons.inj h).1

theorem tokens_advance_of_tokens (hmove : ∀ t, Alike t (move t)) {c d : Cursor}
    (h : d.tokens = c.tokens.map move) : d.advance.tokens = c.advance.tokens.map move := by
  have hkind : d.current.kind = c.current.kind := current_of_tokens h ▸ (hmove c.current).1.symm
  obtain ⟨t, later⟩ := c
  obtain ⟨u, others⟩ := d
  obtain ⟨rfl, rfl⟩ := List.cons.inj h
  unfold Cursor.advance
  rw [hkind]
  split
  · rfl
  · cases later <;> rfl

/-- Cursors on the same tokens at other places. -/
def moved (move : Token → Token) (hmove : ∀ t, Alike t (move t)) : Correspondence where
  near c d := c.IsLexical ∧ d.tokens = c.tokens.map move
  beyond _ := False
  loose := False
  kind_eq {c d} h := by rw [current_of_tokens h.2, (hmove c.current).1]
  literal_eq {c d} h := by rw [current_of_tokens h.2, (hmove c.current).2]
  closed h := h.1.isClosed
  lexical h := h.elim
  near_advance {c d} h := .inr ⟨h.1.advance, tokens_advance_of_tokens hmove h.2⟩
  beyond_advance h := h
  loose_of_beyond h := h
  gap := ⟨0, 0, fun h => by rw [h.2, List.length_map]⟩

end Moved

theorem program_apply (n : Nat) (c : Cursor) :
    program n c = programStatements (statement n) c.tokens c := rfl

/-- Behind a program and a semicolon the loop over statements goes on as it would have started. -/
theorem program_behind {n : Nat} {ts : List Token} {trees : List Tree} {semicolon : Token}
    (hts : Grammar.Derivation n ts trees) (hsemicolon : semicolon.kind = .semicolon)
    (rest : Cursor) : ∃ rounds : List Token, rest.tokens.length ≤ rounds.length ∧
      program n (rest.prepend (ts ++ [semicolon])) = (do
        let others ← programStatements (statement n) rounds
        return trees ++ others) rest := by
  have hend : (rest.prepend [semicolon]).current.kind ∈ Grammar.endKinds := by
    simp [Grammar.endKinds, hsemicolon]
  obtain ⟨rounds, hrounds, hloop⟩ := Grammar.program_resumes hts (fun _ _ _ => id) hend
    (rest.prepend (ts ++ [semicolon])).tokens (by simp)
  simp only [Cursor.tokens_prepend, List.length_append, List.length_singleton] at hrounds
  cases rounds with
  | nil =>
      simp only [List.length_nil] at hrounds
      omega
  | cons u rounds =>
      refine ⟨rounds, by simp only [List.length_cons] at hrounds; omega, ?_⟩
      rw [program_apply]
      rw [Cursor.prepend_append] at hloop ⊢
      rw [hloop, bind_apply, programStatements_semicolon hsemicolon, ← bind_apply,
        Cursor.prepend_nil]

/-- A program, a semicolon and other tokens are read as the program and then as the other tokens are
read by themselves, wherever these stand. -/
theorem program_concat {n : Nat} {ts us : List Token} {trees : List Tree} {closing : Token}
    {move : Token → Token} (hmove : ∀ t, Alike t (move t))
    (hts : Grammar.Derivation n ts trees) (semicolon : Token)
    (hsemicolon : semicolon.kind = .semicolon) (hus : ∀ t ∈ us, t.IsLexical)
    (hclosing : closing.kind = .finish) :
    (program n ((⟨move closing, []⟩ : Cursor).prepend
      (ts ++ semicolon :: us.map move))).toExcept =
      match (program n ((⟨closing, []⟩ : Cursor).prepend us)).toExcept with
      | .ok others => .ok (trees ++ others)
      | .error fault => .error ⟨fault.why, move fault.found⟩ := by
  obtain ⟨rounds, hrounds, hloop⟩ := program_behind hts hsemicolon
    ((⟨move closing, []⟩ : Cursor).prepend (us.map move))
  have hnear : (moved move hmove).near ((⟨closing, []⟩ : Cursor).prepend us)
      ((⟨move closing, []⟩ : Cursor).prepend (us.map move)) :=
    ⟨Cursor.isLexical_prepend hus hclosing, by
      rw [Cursor.tokens_prepend, Cursor.tokens_prepend, List.map_append]
      rfl⟩
  have hfollows := follows_programStatements (n := n) (m := n) (.inl rfl) hnear
    (Nat.le_refl _) hrounds
  rw [← Cursor.prepend_append, List.append_assoc, List.singleton_append] at hloop
  rw [hloop, program_apply, bind_apply]
  generalize programStatements _ _ (Cursor.prepend _ us) = s at *
  generalize programStatements _ _ (Cursor.prepend _ (us.map move)) = t at *
  cases hfollows with
  | tooDeep h => exact h.elim
  | otherTooDeep h => exact h.elim
  | beyond h => exact h.elim
  | done hvalue hrest => rw [← hvalue]; rfl
  | refused hrest => simp [Step.toExcept, current_of_tokens hrest.2]

theorem alike_within (start : Text.Position) (t : Token) : Alike t (t.within start) := ⟨rfl, rfl⟩

theorem source_of_scan {text : String} {tokens : List Token}
    (h : Token.scan text = .ok tokens) : source text = treesOf tokens := by
  rw [source, tokensOf, h]
  rfl

theorem source_of_unclosed {text : String} {fault : Token.Unclosed}
    (h : Token.scan text = .error fault) : source text = .error (.unclosed fault) := by
  rw [source, tokensOf, h]
  rfl

/-- A text that is a program, a semicolon and any text behind it are the program of the first text
and then that of the other one, unless the other one is none. Then the whole is none for the same
reason, at the same place of the other text. -/
theorem source_semicolon {a b : String} {trees : List Tree} (h : source a = .ok trees) :
    source (a ++ ";" ++ b) = match source b with
      | .ok others => .ok (trees ++ others)
      | .error fault => .error (fault.within (Text.Position.start.after (a ++ ";").toList)) := by
  obtain ⟨tokens, hscan, hparse⟩ := Grammar.exists_scan_of_source h
  obtain ⟨ts, last, rfl, hlast, hlexical⟩ := Token.scan_lexical hscan
  obtain ⟨rest, hprogram⟩ := Grammar.exists_of_ofTokens hparse
  rw [Cursor.ofTokens_concat hlast] at hprogram
  have hts := Grammar.derivation_of_program hlexical hlast hprogram
  have hwhole := Token.scan_semicolon hscan b
  cases hother : Token.scan b with
  | error fault =>
      rw [hother] at hwhole
      rw [source_of_unclosed hwhole, source_of_unclosed hother]
      rfl
  | ok others =>
      rw [hother] at hwhole
      obtain ⟨us, closing, rfl, hclosing, hus⟩ := Token.scan_lexical hother
      have hconcat := program_concat
        (alike_within (Text.Position.start.after (a ++ ";").toList)) hts
        ⟨.semicolon, .text ";", Text.Position.start.after a.toList⟩ rfl hus hclosing
      rw [source_of_scan hwhole, source_of_scan hother, treesOf, treesOf, ofTokens, ofTokens,
        Cursor.ofTokens_concat hclosing, List.map_append, List.map_singleton, ← List.cons_append,
        ← List.append_assoc, Cursor.ofTokens_concat (by exact hclosing), hconcat]
      cases (program nestingLimit ((⟨closing, []⟩ : Cursor).prepend us)).toExcept <;> rfl

end Parse

end Sprig
