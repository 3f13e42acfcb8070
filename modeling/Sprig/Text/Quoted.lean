import Sprig.Text.Printable

/-!
# Quoted text

Messages show a piece of program text between quotes, with everything that has no glyph written as
an escape. The quotes are single ones, except around a text that holds a single quote and no double
one.
-/

namespace Sprig.Text

/-- A number in hexadecimal, with leading zeros up to a least width. -/
def hexadecimal (width n : Nat) : List Char :=
  let digits := Nat.toDigits 16 n
  List.replicate (width - digits.length) '0' ++ digits

/-- The quote that goes around a text. -/
def quoteFor (cs : List Char) : Char := if '\x27' ∈ cs ∧ '\x22' ∉ cs then '\x22' else '\x27'

/-- One character between quotes. -/
def escape (quote c : Char) : List Char :=
  if c = quote ∨ c = '\\' then ['\\', c]
  else if c = '\n' then ['\\', 'n']
  else if c = '\r' then ['\\', 'r']
  else if c = '\t' then ['\\', 't']
  else if isPrintable c then [c]
  else if c.toNat < 0x100 then '\\' :: 'x' :: hexadecimal 2 c.toNat
  else if c.toNat < 0x10000 then '\\' :: 'u' :: hexadecimal 4 c.toNat
  else '\\' :: 'U' :: hexadecimal 8 c.toNat

/-- A text between quotes. -/
def quoted (s : String) : String :=
  let cs := s.toList
  let quote := quoteFor cs
  String.ofList (quote :: cs.flatMap (escape quote) ++ [quote])

/-- The quote of a text is one of the two. -/
theorem quoteFor_eq (cs : List Char) : quoteFor cs = '\x22' ∨ quoteFor cs = '\x27' := by
  simp only [quoteFor]
  split <;> simp

end Sprig.Text
