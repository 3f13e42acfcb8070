import Sprig.Proofs.Token.Terminal

/-!
# Tilings of a text

A text is tiled by rows of terminals and by skipped characters when each row is as long as any
terminal allows at its place. A text has at most one tiling. It has tokens just when it has one, and
then its tokens are what the rows stand for, each at the place of its first character, with the
closing token behind the last character.
-/

namespace Sprig

namespace Text.Position

/-- The place behind some characters from the start: one line more than the line feeds among them,
and one column more than the characters behind the last line feed. -/
def behind (front : List Char) : Position :=
  ⟨front.count '\n' + 1, (front.reverse.takeWhile (· ≠ '\n')).length + 1⟩

theorem next_behind (front : List Char) (c : Char) :
    (behind front).next c = behind (front ++ [c]) := by
  by_cases h : c = '\n'
  · simp [behind, next, h]
  · simp [behind, next, h]

theorem after_behind (front cs : List Char) :
    (behind front).after cs = behind (front ++ cs) := by
  induction cs generalizing front with
  | nil => simp
  | cons c cs ih => rw [after_cons, next_behind, ih, List.append_assoc, List.singleton_append]

end Text.Position

namespace Token

/-- A part of a tiled text. -/
inductive Tile
  | lexeme (terminal : Terminal) (chars : List Char)
  | skipped (c : Char)

/-- Whether a text is made of tiles, from left to right. No terminal has a longer row at the place
of a lexeme. -/
inductive Tiles : List Tile → List Char → Prop
  | nil : Tiles [] []
  | lexeme {terminal cs rest tiles} (isOf : Terminal.Matches terminal cs)
      (longest : ∀ other more, Terminal.Matches other more → more <+: cs ++ rest →
        more.length ≤ cs.length)
      (behind : Tiles tiles rest) : Tiles (.lexeme terminal cs :: tiles) (cs ++ rest)
  | skipped {c rest tiles} (skips : Skips c rest) (behind : Tiles tiles rest) :
      Tiles (.skipped c :: tiles) (c :: rest)

/-- The tokens that the lexemes of a tiled text stand for, each at the place of its first character,
and the closing token behind the last character. The text goes on behind some characters. -/
inductive TokensOf : List Char → List Tile → List Token → Prop
  | nil {front} : TokensOf front [] [⟨.finish, .absent, .behind front⟩]
  | lexeme {front terminal cs tiles kind literal tokens}
      (denotes : Terminal.Denotes terminal cs kind literal)
      (further : TokensOf (front ++ cs) tiles tokens) :
      TokensOf front (.lexeme terminal cs :: tiles) (⟨kind, literal, .behind front⟩ :: tokens)
  | skipped {front c tiles tokens} (further : TokensOf (front ++ [c]) tiles tokens) :
      TokensOf front (.skipped c :: tiles) tokens

section Tilings

variable {cs front : List Char} {tiles others : List Tile} {tokens : List Token}

section Front

variable {c : Char} {lexeme : Lexeme}

theorem Tiles.eq_nil (h : Tiles tiles []) : tiles = [] := by
  generalize hcs : [] = cs at h
  cases h with
  | nil => rfl
  | lexeme hrow => exact absurd (List.append_eq_nil_iff.mp hcs.symm).1 hrow.ne_nil
  | skipped => cases hcs

/-- Where the scanner finds a lexeme, a tiling has it. -/
theorem Tiles.of_lexeme (h : Tiles tiles (c :: cs)) (hpiece : pieceAt c cs = .lexeme lexeme) :
    ∃ rest, tiles = .lexeme lexeme.terminal lexeme.chars :: rest ∧
      Tiles rest (cs.drop (lexeme.chars.length - 1)) := by
  generalize htext : c :: cs = text at h
  cases h with
  | nil => cases htext
  | lexeme hrow hlongest hbehind =>
      obtain ⟨found, hfound, rfl, rfl, rfl⟩ := pieceAt_of_longest hrow htext.symm hlongest
      obtain rfl := Piece.lexeme.inj (hfound.symm.trans hpiece)
      exact ⟨_, rfl, hbehind⟩
  | skipped hskips =>
      obtain ⟨rfl, rfl⟩ := List.cons.inj htext
      rw [pieceAt_of_skips hskips] at hpiece
      cases hpiece

/-- Where the scanner skips a character, a tiling does. -/
theorem Tiles.of_skipped (h : Tiles tiles (c :: cs)) (hpiece : pieceAt c cs = .skipped) :
    ∃ rest, tiles = .skipped c :: rest ∧ Tiles rest cs := by
  generalize htext : c :: cs = text at h
  cases h with
  | nil => cases htext
  | lexeme hrow hlongest hbehind =>
      obtain ⟨found, hfound, -⟩ := pieceAt_of_longest hrow htext.symm hlongest
      rw [hfound] at hpiece
      cases hpiece
  | skipped _ hbehind =>
      obtain ⟨rfl, rfl⟩ := List.cons.inj htext
      exact ⟨_, rfl, hbehind⟩

/-- A lexeme that the scanner finds is a tile in front of the tiles behind it. -/
theorem Tiles.of_pieceAt (hpiece : pieceAt c cs = .lexeme lexeme)
    (h : Tiles tiles (cs.drop (lexeme.chars.length - 1))) :
    Tiles (.lexeme lexeme.terminal lexeme.chars :: tiles) (c :: cs) := by
  rw [← chars_append_drop hpiece]
  refine .lexeme (Token.of_pieceAt hpiece .start).1 (fun other more hmore hfront => ?_) h
  rw [chars_append_drop hpiece] at hfront
  obtain ⟨found, hfound, hlength, -⟩ := exists_lexeme_of_matches hmore hfront
  obtain rfl := Piece.lexeme.inj (hfound.symm.trans hpiece)
  exact hlength

end Front

/-- A text has one tiling at most. -/
theorem Tiles.unique (h : Tiles tiles cs) (hother : Tiles others cs) : tiles = others := by
  -- What the scanner finds at a place is the next tile of each tiling.
  induction h generalizing others with
  | nil => exact hother.eq_nil.symm
  | @lexeme terminal row rest tiles hrow hlongest _ ih =>
      obtain ⟨c, cs, hcs⟩ := List.exists_cons_of_ne_nil
        (List.append_ne_nil_of_left_ne_nil hrow.ne_nil rest)
      obtain ⟨lexeme, hpiece, rfl, rfl, rfl⟩ := pieceAt_of_longest hrow hcs hlongest
      obtain ⟨further, rfl, hfurther⟩ := (hcs ▸ hother).of_lexeme hpiece
      rw [ih hfurther]
  | skipped hskips _ ih =>
      obtain ⟨further, rfl, hfurther⟩ := hother.of_skipped (pieceAt_of_skips hskips)
      rw [ih hfurther]

/-- The tokens of a text are those that its tiles stand for. -/
theorem scanFrom_of_tiles (h : Tiles tiles cs) (htokens : TokensOf front tiles tokens) :
    scanFrom (.behind front) cs = .ok tokens := by
  induction h generalizing front tokens with
  | nil =>
      cases htokens
      rw [scanFrom_nil]
  | @lexeme terminal row rest tiles hrow hlongest _ ih =>
      obtain ⟨c, cs, hcs⟩ := List.exists_cons_of_ne_nil
        (List.append_ne_nil_of_left_ne_nil hrow.ne_nil rest)
      obtain ⟨lexeme, hpiece, rfl, rfl, rfl⟩ := pieceAt_of_longest hrow hcs hlongest
      cases htokens with
      | lexeme hdenotes hfurther =>
          obtain ⟨rfl, rfl⟩ := hdenotes.unique (of_pieceAt hpiece (.behind front)).2
          rw [hcs, scanFrom, hpiece]
          dsimp only
          rw [Text.Position.after_behind, ih hfurther]
          cases lexeme <;> rfl
  | skipped hskips _ ih =>
      cases htokens with
      | skipped hfurther =>
          rw [scanFrom, pieceAt_of_skips hskips, Text.Position.next_behind]
          exact ih hfurther

/-- A text that has tokens is tiled. -/
theorem exists_tiles_of_scanFrom (h : scanFrom (.behind front) cs = .ok tokens) :
    ∃ tiles, Tiles tiles cs ∧ TokensOf front tiles tokens := by
  generalize hplace : Text.Position.behind front = p at h
  induction p, cs using scanFrom.induct generalizing front tokens with
  | case1 p =>
      subst hplace
      rw [scanFrom_nil] at h
      obtain rfl := Except.ok.inj h
      exact ⟨[], .nil, .nil⟩
  | case2 p c cs hpiece =>
      rw [scanFrom, hpiece] at h
      cases h
  | case3 p c cs hpiece ih =>
      subst hplace
      rw [scanFrom, hpiece] at h
      obtain ⟨tiles, htiles, htokens⟩ := ih (Text.Position.next_behind front c).symm h
      exact ⟨_, .skipped (skips_of_pieceAt hpiece) htiles, .skipped htokens⟩
  | case4 p c cs lexeme hpiece fault hrest ih =>
      rw [scanFrom, hpiece] at h
      simp only [hrest] at h
      cases h
  | case5 p c cs lexeme hpiece rest hrest ih =>
      subst hplace
      rw [scanFrom, hpiece] at h
      simp only [hrest] at h
      obtain rfl := Except.ok.inj h
      obtain ⟨tiles, htiles, htokens⟩ :=
        ih (Text.Position.after_behind front lexeme.chars).symm hrest
      have hdenotes := (of_pieceAt hpiece (.behind front)).2
      refine ⟨_, .of_pieceAt hpiece htiles, ?_⟩
      cases lexeme <;> exact .lexeme hdenotes htokens

end Tilings

/-- A text has tokens just when it can be tiled. Then it has one tiling, and its tokens are those
that the tiles stand for. -/
theorem scan_iff_tiling (source : String) (tokens : List Token) : scan source = .ok tokens ↔
    ∃ tiles, (∀ others, Tiles others source.toList ↔ others = tiles) ∧
      TokensOf [] tiles tokens := by
  constructor
  · intro h
    have hscan : scanFrom (.behind []) source.toList = .ok tokens := h
    obtain ⟨tiles, htiles, htokens⟩ := exists_tiles_of_scanFrom hscan
    refine ⟨tiles, fun others => ⟨fun hothers => hothers.unique htiles, ?_⟩, htokens⟩
    rintro rfl
    exact htiles
  · rintro ⟨tiles, hunique, htokens⟩
    exact scanFrom_of_tiles ((hunique tiles).mpr rfl) htokens

end Token

end Sprig
