import Sprig.Token.Basic

/-!
# The cursor of a parser

A parser walks over the tokens of a program from left to right. Its cursor is the token it stands
on together with those behind it, so a cursor never points past the last token. It does not leave a
closing token either.
-/

namespace Sprig

/-- What a parser has not read yet. -/
structure Cursor where
  /-- The token the parser stands on. -/
  current : Token
  /-- The tokens behind it. -/
  later : List Token
deriving DecidableEq, Repr

namespace Cursor

/-- The closing token of a list that lacks one. -/
def closing : Token := ⟨.finish, .absent, ⟨0, 0⟩⟩

/-- A cursor on the first of some tokens, with a closing token behind them if they lack one. -/
def ofTokens : List Token → Cursor
  | [] => ⟨closing, []⟩
  | token :: tokens =>
    if (tokens.getLast?.getD token).kind = .finish then ⟨token, tokens⟩
    else ⟨token, tokens ++ [closing]⟩

/-- The tokens that were not left behind. -/
def tokens (c : Cursor) : List Token := c.current :: c.later

/-- How many tokens stand behind the current one. -/
def remaining (c : Cursor) : Nat := c.later.length

/-- The token some places ahead, or the last one if there are not so many. -/
def peek (c : Cursor) (offset : Nat) : Token :=
  (c.tokens[offset]?).getD (c.later.getLast?.getD c.current)

/-- The cursor one token further, except from a closing token. -/
def advance (c : Cursor) : Cursor :=
  if c.current.kind = .finish then c
  else
    match c.later with
    | [] => c
    | token :: tokens => ⟨token, tokens⟩

/-- No step ahead is the current token. -/
@[simp] theorem peek_zero (c : Cursor) : c.peek 0 = c.current := rfl

/-- The cursor never steps back. -/
theorem remaining_advance_le (c : Cursor) : c.advance.remaining ≤ c.remaining := by
  unfold advance remaining
  split
  · exact Nat.le_refl _
  · split <;> simp_all

/-- From a token that does not close the list, the cursor steps ahead by one. -/
theorem remaining_advance {c : Cursor} (hkind : c.current.kind ≠ .finish) (hlater : c.later ≠ []) :
    c.advance.remaining + 1 = c.remaining := by
  cases hc : c.later with
  | nil => exact absurd hc hlater
  | cons token tokens => simp [advance, remaining, hkind, hc]

end Cursor

end Sprig
