import Sprig.Proofs.Token.Lexical

/-!
# Texts behind a semicolon

When a text has no open quote, a semicolon behind it ends its last token, and so does every other
character that no lexeme goes on with. So the tokens of the text, the semicolon, and the tokens of
whatever follows are the tokens of the whole. The places of what follows count from behind the
semicolon.
-/

namespace Sprig

namespace Text.Position

/-- The place in a whole text of a place in its part that starts at `start`. -/
def within (start p : Position) : Position :=
  ⟨start.line + (p.line - 1),
    if p.line = 1 then start.column + (p.column - 1) else p.column⟩

/-- Lines and columns count from one. -/
def IsCounted (p : Position) : Prop := 1 ≤ p.line ∧ 1 ≤ p.column

theorem isCounted_start : start.IsCounted := ⟨Nat.le_refl 1, Nat.le_refl 1⟩

theorem IsCounted.next {p : Position} (h : p.IsCounted) (c : Char) : (p.next c).IsCounted := by
  unfold Position.next
  split
  · exact ⟨by simp, by simp⟩
  · exact ⟨h.1, by simp⟩

theorem IsCounted.after {p : Position} (h : p.IsCounted) (cs : List Char) :
    (p.after cs).IsCounted := by
  induction cs generalizing p with
  | nil => exact h
  | cons c cs ih => exact ih (h.next c)

theorem within_start (p : Position) : p.within start = p := by
  simp [within, start]

theorem next_within (start : Position) {p : Position} (hp : p.IsCounted) (c : Char) :
    (start.within p).next c = start.within (p.next c) := by
  obtain ⟨hline, hcolumn⟩ := hp
  unfold next
  split
  · simp only [within, Position.mk.injEq]
    exact ⟨by omega, by rw [if_neg (by omega)]⟩
  · simp only [within, Position.mk.injEq, true_and]
    split
    · omega
    · rfl

theorem after_within (start : Position) {p : Position} (hp : p.IsCounted) (cs : List Char) :
    (start.within p).after cs = start.within (p.after cs) := by
  induction cs generalizing p with
  | nil => rfl
  | cons c cs ih => rw [after_cons, after_cons, next_within start hp, ih (hp.next c)]

end Text.Position

namespace Token

/-- A token of a part of a text that starts at `start`, at its place in the whole text. -/
def within (start : Text.Position) (t : Token) : Token :=
  { t with position := start.within t.position }

/-- An open quote in a part of a text that starts at `start`, at its place in the whole text. -/
def Unclosed.within (start : Text.Position) (fault : Unclosed) : Unclosed :=
  ⟨start.within fault.position⟩

theorem Lexeme.token_within (start p : Text.Position) (lexeme : Lexeme) :
    lexeme.token (start.within p) = (lexeme.token p).within start := by
  cases lexeme <;> rfl

/-- A part of a text has the same tokens as by itself, at their places in the whole text. -/
theorem scanFrom_within (start : Text.Position) (p : Text.Position) (cs : List Char)
    (hp : p.IsCounted) : scanFrom (start.within p) cs = match scanFrom p cs with
      | .ok tokens => .ok (tokens.map (within start))
      | .error fault => .error (fault.within start) := by
  induction p, cs using scanFrom.induct with
  | case1 p =>
      rw [scanFrom, scanFrom]
      rfl
  | case2 p c cs hpiece =>
      rw [scanFrom, scanFrom, hpiece]
      rfl
  | case3 p c cs hpiece ih =>
      rw [scanFrom, scanFrom, hpiece]
      dsimp only
      rw [Text.Position.next_within start hp, ih (hp.next c)]
  | case4 p c cs lexeme hpiece fault hrest ih =>
      rw [scanFrom, scanFrom, hpiece]
      dsimp only
      rw [Text.Position.after_within start hp, ih (hp.after lexeme.chars), hrest]
  | case5 p c cs lexeme hpiece tokens hrest ih =>
      rw [scanFrom, scanFrom, hpiece]
      dsimp only
      rw [Text.Position.after_within start hp, ih (hp.after lexeme.chars), hrest,
        Lexeme.token_within]
      rfl

section Pieces

variable {c : Char} {cs : List Char} {lexeme : Lexeme}

theorem drop_length_takeWhile (p : Char → Bool) (cs : List Char) :
    cs.drop (cs.takeWhile p).length = cs.dropWhile p := by
  induction cs with
  | nil => rfl
  | cons c cs ih =>
      cases hc : p c with
      | false => simp [hc]
      | true => simpa [hc] using ih

section Stops

variable {p : Char → Bool} {stop : Char}

/-- A run of characters of one sort ends in front of a character of another sort. -/
theorem takeWhile_append_of_stop (hstop : p stop = false) (cs bs : List Char) :
    (cs ++ stop :: bs).takeWhile p = cs.takeWhile p := by
  induction cs with
  | nil => simp [hstop]
  | cons c cs ih => cases hc : p c <;> simp [hc, ih]

theorem dropWhile_append_of_stop (hstop : p stop = false) (cs bs : List Char) :
    (cs ++ stop :: bs).dropWhile p = cs.dropWhile p ++ stop :: bs := by
  induction cs with
  | nil => simp [hstop]
  | cons c cs ih => cases hc : p c <;> simp [hc, ih]

end Stops

theorem fractionOf_point (cs : List Char) :
    fractionOf ('.' :: cs) = cs.takeWhile Text.isDigit := rfl

theorem fractionOf_of_ne {d : Char} (h : d ≠ '.') (cs : List Char) : fractionOf (d :: cs) = [] := by
  unfold fractionOf
  split
  · next heq => exact absurd (List.cons.inj heq).1 h
  · rfl

/-- Up to its second quote a text is the content of a string. -/
theorem exists_of_closed (h : (cs.takeWhile (· ≠ quote)).length < cs.length) :
    ∃ rest, cs = cs.takeWhile (· ≠ quote) ++ quote :: rest := by
  have hsplit := List.takeWhile_append_dropWhile (p := (· ≠ quote)) (l := cs)
  have hhead := List.head?_dropWhile_not (· ≠ quote) cs
  cases hrest : cs.dropWhile (· ≠ quote) with
  | nil =>
      rw [hrest, List.append_nil] at hsplit
      rw [hsplit] at h
      exact absurd h (Nat.lt_irrefl _)
  | cons c rest =>
      rw [hrest] at hsplit hhead
      obtain rfl : c = quote := by simpa using hhead
      exact ⟨rest, hsplit.symm⟩

theorem symbol_append_drop (h : symbol? c cs = some lexeme) :
    lexeme.chars ++ cs.drop (lexeme.chars.length - 1) = c :: cs := by
  unfold symbol? at h
  split at h
  · next hpair =>
    obtain rfl := Option.some.inj h
    obtain ⟨rest, rfl⟩ := List.head?_eq_some_iff.mp hpair.1
    rfl
  · obtain ⟨kind, -, rfl⟩ := Option.map_eq_some_iff.mp h
    rfl

/-- A fraction stands behind a point. -/
theorem fraction_append_drop (cs : List Char) (h : fractionOf cs ≠ []) :
    '.' :: fractionOf cs ++ cs.drop ((fractionOf cs).length + 1) = cs := by
  cases cs with
  | nil => exact absurd rfl h
  | cons d cs =>
      by_cases hd : d = '.'
      · subst hd
        rw [fractionOf_point, List.drop_succ_cons, drop_length_takeWhile, List.cons_append,
          List.takeWhile_append_dropWhile]
      · exact absurd (fractionOf_of_ne hd cs) h

theorem number_append_drop (c : Char) (cs : List Char) :
    let lexeme := Lexeme.number (c :: cs.takeWhile Text.isDigit)
      (fractionOf (cs.dropWhile Text.isDigit))
    lexeme.chars ++ cs.drop (lexeme.chars.length - 1) = c :: cs := by
  dsimp only
  cases hfraction : fractionOf (cs.dropWhile Text.isDigit) with
  | nil => simp [Lexeme.chars, drop_length_takeWhile]
  | cons d fraction =>
      have hpoint := fraction_append_drop (cs.dropWhile Text.isDigit) (by simp [hfraction])
      rw [hfraction, ← drop_length_takeWhile, List.drop_drop] at hpoint
      have hlength : (c :: cs.takeWhile Text.isDigit ++ '.' :: d :: fraction).length - 1 =
          (cs.takeWhile Text.isDigit).length + ((d :: fraction).length + 1) := by
        simp [Nat.add_assoc]
      rw [Lexeme.chars, hlength, List.append_assoc, hpoint, drop_length_takeWhile,
        List.cons_append, List.takeWhile_append_dropWhile]
      simp

/-- A lexeme is at the front of its text. -/
theorem chars_append_drop (h : pieceAt c cs = .lexeme lexeme) :
    lexeme.chars ++ cs.drop (lexeme.chars.length - 1) = c :: cs := by
  unfold pieceAt at h
  split at h
  · next hquote =>
    dsimp only at h
    split at h
    · next hclosed =>
      obtain rfl := Piece.lexeme.inj h
      obtain ⟨rest, hcs⟩ := exists_of_closed hclosed
      generalize cs.takeWhile (· ≠ quote) = content at *
      subst hquote hcs
      simp [Lexeme.chars]
    · cases h
  · split at h
    · obtain rfl := Piece.lexeme.inj h
      simp [Lexeme.chars, drop_length_takeWhile]
    · split at h
      · next hsymbol =>
        obtain rfl := Piece.lexeme.inj h
        exact symbol_append_drop hsymbol
      · split at h
        · obtain rfl := Piece.lexeme.inj h
          exact number_append_drop c cs
        · cases h

/-- Whether no lexeme in front of a character goes on with it. -/
structure EndsLexemes (stop : Char) : Prop where
  noComparison : stop ≠ '='
  noFraction : stop ≠ '.'
  noName : isNamePart stop = false
  noDigit : Text.isDigit stop = false

theorem endsLexemes_semicolon : EndsLexemes ';' := by constructor <;> decide

section Ends

variable {stop : Char} (hstop : EndsLexemes stop)
include hstop

theorem symbol_append (bs : List Char) : symbol? c (cs ++ stop :: bs) = symbol? c cs := by
  cases cs with
  | nil => simp [symbol?, hstop.noComparison]
  | cons d cs => rfl

theorem fractionOf_append (bs : List Char) : fractionOf (cs ++ stop :: bs) = fractionOf cs := by
  cases cs with
  | nil => exact fractionOf_of_ne hstop.noFraction bs
  | cons d cs =>
      by_cases hd : d = '.'
      · subst hd
        exact takeWhile_append_of_stop hstop.noDigit cs bs
      · rw [List.cons_append, fractionOf_of_ne hd, fractionOf_of_ne hd]

/-- A character that ends every lexeme does not change the piece in front of it. -/
theorem pieceAt_append (h : pieceAt c cs ≠ .unclosed) (bs : List Char) :
    pieceAt c (cs ++ stop :: bs) = pieceAt c cs := by
  by_cases hquote : c = quote
  · subst hquote
    by_cases hclosed : (cs.takeWhile (· ≠ quote)).length < cs.length
    · have hcontent : (cs ++ stop :: bs).takeWhile (· ≠ quote) = cs.takeWhile (· ≠ quote) := by
        rw [List.takeWhile_append, if_neg (Nat.ne_of_lt hclosed)]
      have hlonger : (cs.takeWhile (· ≠ quote)).length < (cs ++ stop :: bs).length := by
        rw [List.length_append]
        omega
      rw [pieceAt, pieceAt, if_pos rfl, if_pos rfl, hcontent, if_pos hlonger, if_pos hclosed]
    · exact absurd (by rw [pieceAt, if_pos rfl, if_neg hclosed]) h
  · rw [pieceAt, pieceAt, if_neg hquote, if_neg hquote, symbol_append hstop,
      takeWhile_append_of_stop hstop.noName, takeWhile_append_of_stop hstop.noDigit,
      dropWhile_append_of_stop hstop.noDigit, fractionOf_append hstop]

end Ends

end Pieces

theorem pieceAt_semicolon (bs : List Char) :
    pieceAt ';' bs = .lexeme (.symbol .semicolon [';']) := by
  have hsymbol : symbol? ';' bs = some (.symbol .semicolon [';']) := by
    rw [symbol?, if_neg (by simp)]
    rfl
  rw [pieceAt, if_neg (by decide), if_neg (by decide), hsymbol]

/-- A text in front of a character that ends every lexeme has its own tokens, and behind them are
those of what follows. -/
theorem scanFrom_append {stop : Char} (hstop : EndsLexemes stop) (p : Text.Position)
    (cs bs : List Char) {ts : List Token} {closing : Token}
    (h : scanFrom p cs = .ok (ts ++ [closing])) :
    scanFrom p (cs ++ stop :: bs) = match scanFrom (p.after cs) (stop :: bs) with
      | .ok us => .ok (ts ++ us)
      | .error fault => .error fault := by
  induction p, cs using scanFrom.induct generalizing ts closing with
  | case1 p =>
      rw [scanFrom] at h
      obtain rfl : [] = ts := (List.append_inj' (Except.ok.inj h : [] ++ [_] = _) rfl).1
      rw [List.nil_append, Text.Position.after_nil]
      cases scanFrom p (stop :: bs) <;> rfl
  | case2 p c cs hpiece =>
      rw [scanFrom, hpiece] at h
      cases h
  | case3 p c cs hpiece ih =>
      rw [scanFrom, hpiece] at h
      rw [List.cons_append, scanFrom, pieceAt_append hstop (by simp [hpiece]), hpiece]
      exact ih h
  | case4 p c cs lexeme hpiece fault hrest ih =>
      rw [scanFrom, hpiece] at h
      simp only [hrest] at h
      cases h
  | case5 p c cs lexeme hpiece tokens hrest ih =>
      rw [scanFrom, hpiece] at h
      simp only [hrest] at h
      obtain ⟨body, last, rfl, -⟩ := scanFrom_lexical _ _ hrest
      obtain rfl : lexeme.token p :: body = ts :=
        (List.append_inj' (Except.ok.inj h : lexeme.token p :: body ++ [last] = _) rfl).1
      have hsplit := chars_append_drop hpiece
      have hlength := congrArg List.length hsplit
      simp only [List.length_append, List.length_drop, List.length_cons] at hlength
      have hdrop : (cs ++ stop :: bs).drop (lexeme.chars.length - 1) =
          cs.drop (lexeme.chars.length - 1) ++ stop :: bs :=
        List.drop_append_of_le_length (by omega)
      have hafter : (p.after lexeme.chars).after (cs.drop (lexeme.chars.length - 1)) =
          p.after (c :: cs) := by
        rw [← Text.Position.after_append, hsplit]
      rw [List.cons_append, scanFrom, pieceAt_append hstop (by simp [hpiece]), hpiece]
      dsimp only
      rw [hdrop, ih hrest, hafter]
      cases scanFrom (p.after (c :: cs)) (stop :: bs) <;> rfl

/-- The tokens of a text, a semicolon, and the tokens of what follows are those of the whole. -/
theorem scanFrom_semicolon (p : Text.Position) (cs bs : List Char) {ts : List Token}
    {closing : Token} (h : scanFrom p cs = .ok (ts ++ [closing])) :
    scanFrom p (cs ++ ';' :: bs) = match scanFrom ((p.after cs).next ';') bs with
      | .ok us => .ok (ts ++ ⟨.semicolon, .text ";", p.after cs⟩ :: us)
      | .error fault => .error fault := by
  rw [scanFrom_append endsLexemes_semicolon p cs bs h, scanFrom, pieceAt_semicolon]
  simp only [Lexeme.chars, List.length_singleton, Nat.sub_self, List.drop_zero,
    Text.Position.after_cons, Text.Position.after_nil]
  cases scanFrom ((p.after cs).next ';') bs <;> rfl

/-- A text, a semicolon and another text have the tokens of the three, the places of the other text
counted from behind the semicolon. -/
theorem scan_semicolon {a : String} {ts : List Token} {closing : Token}
    (h : scan a = .ok (ts ++ [closing])) (b : String) :
    scan (a ++ ";" ++ b) = match scan b with
      | .ok us => .ok (ts ++ ⟨.semicolon, .text ";", Text.Position.start.after a.toList⟩ ::
          us.map (within (Text.Position.start.after (a ++ ";").toList)))
      | .error fault => .error (fault.within (Text.Position.start.after (a ++ ";").toList)) := by
  have hconcat := scanFrom_semicolon .start a.toList b.toList h
  generalize hplace : Text.Position.start.after (a ++ ";").toList = place
  have hother := scanFrom_within place .start b.toList Text.Position.isCounted_start
  have hnext : (Text.Position.start.after a.toList).next ';' = place := by
    rw [← hplace, String.toList_append, Text.Position.after_append]
    rfl
  rw [Text.Position.within_start] at hother
  rw [hnext, hother] at hconcat
  rw [scan, scan, String.toList_append, String.toList_append, List.append_assoc]
  refine hconcat.trans ?_
  cases scanFrom .start b.toList <;> rfl

end Token

end Sprig
