/-!
# Positions in a text

Lines and columns count from one, columns in characters. Only the line feed ends a line.
-/

namespace Sprig.Text

/-- A place in a text. -/
structure Position where
  /-- The line, counted from one. -/
  line : Nat
  /-- The column, counted from one. -/
  column : Nat
deriving DecidableEq, Repr

namespace Position

/-- The place of the first character. -/
def start : Position := ⟨1, 1⟩

/-- The place after one more character. -/
def next (p : Position) (c : Char) : Position :=
  if c = '\n' then ⟨p.line + 1, 1⟩ else ⟨p.line, p.column + 1⟩

/-- The place after a run of characters. -/
def after (p : Position) (cs : List Char) : Position := cs.foldl next p

/-- A place as it is written in messages. -/
def text (p : Position) : String := toString p.line ++ ":" ++ toString p.column

/-- No character, no change of place. -/
@[simp] theorem after_nil (p : Position) : p.after [] = p := rfl

/-- The first character moves the place before the others do. -/
@[simp] theorem after_cons (p : Position) (c : Char) (cs : List Char) :
    p.after (c :: cs) = (p.next c).after cs := rfl

/-- Runs of characters move the place one after the other. -/
theorem after_append (p : Position) (xs ys : List Char) :
    p.after (xs ++ ys) = (p.after xs).after ys := List.foldl_append

end Position

end Sprig.Text
