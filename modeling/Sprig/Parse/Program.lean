import Sprig.Parse.Grammar
import Sprig.Token.Scan

/-!
# Programs from text

A program is read in two stages, tokens and then statements. Each stage has its own fault, and the
first one that fails decides.

## Implementation notes

How deeply a program may be nested is counted in parsers, each taken for the same. On a stack they
take unequal numbers of frames. So near the limit there are programs that one of the two ways to
count admits and the other does not, and a fault of the nesting tells the place where the parsers
are counted out.
-/

namespace Sprig

namespace Parse

/-- How many parsers may be nested in one another while a program is read. -/
def nestingLimit : Nat := 10000

/-- The program that some tokens spell. -/
def ofTokens (tokens : List Token) : Except SyntaxFault (List Tree) :=
  (program nestingLimit (Cursor.ofTokens tokens)).toExcept

end Parse

/-- Why a text is no program. -/
inductive SourceFault
  | unclosed (fault : Token.Unclosed)
  | malformed (fault : SyntaxFault)
deriving DecidableEq, Repr

/-- Why a text is no program, in words. -/
def SourceFault.message : SourceFault → String
  | .unclosed fault => fault.message
  | .malformed fault => fault.message

namespace Parse

/-- The tokens of a source text. -/
def tokensOf (source : String) : Except SourceFault (List Token) :=
  (Token.scan source).mapError .unclosed

/-- The program that some tokens spell, where the tokens come from a source text. -/
def treesOf (tokens : List Token) : Except SourceFault (List Tree) :=
  (ofTokens tokens).mapError .malformed

/-- The program that a source text spells. -/
def source (text : String) : Except SourceFault (List Tree) := do
  let tokens ← tokensOf text
  treesOf tokens

/-- No tokens at all spell the empty program. -/
theorem ofTokens_nil : ofTokens [] = .ok [] := rfl

end Parse

end Sprig
