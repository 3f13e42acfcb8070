import Sprig.Numeric.Layout
import Sprig.Text.Position
import Sprig.Text.Quoted

/-!
# Tokens

A program is read as a list of tokens. A token has a kind, a literal and the place of its first
character. The last token of a program has the kind `finish` and no literal.

## Implementation notes

A token list need not come from a text: whoever builds one by hand may invent kinds and pair them
with any literal. Such a kind is `other`, and it is never equal to one that the language has.
-/

namespace Sprig

/-- The kind of a token. -/
inductive Token.Kind
  | number
  | string
  | identifier
  | keyword
  | operator
  | comparison
  | assign
  | leftParen
  | rightParen
  | leftBrace
  | rightBrace
  | leftBracket
  | rightBracket
  | power
  | comma
  | semicolon
  | dot
  | giveBack
  | finish
  | other (label : String)
deriving DecidableEq, Repr

/-- What a token says beyond its kind. -/
inductive Token.Literal
  | absent
  | number (x : Float)
  | text (s : String)
deriving DecidableEq, Repr

/-- A token. -/
structure Token where
  /-- The kind. -/
  kind : Token.Kind
  /-- The literal. -/
  literal : Token.Literal
  /-- The place of the first character. -/
  position : Text.Position
deriving DecidableEq, Repr

namespace Token

/-- The kinds of the language with the labels that messages give them. -/
def Kind.labels : List (Kind × String) := [
  (.number, "NUMBER"), (.string, "STRING"), (.identifier, "IDENTIFIER"), (.keyword, "KEYWORD"),
  (.operator, "OPERATOR"), (.comparison, "EQUALS"), (.assign, "ASSIGN"), (.leftParen, "LPAREN"),
  (.rightParen, "RPAREN"), (.leftBrace, "LBRACE"), (.rightBrace, "RBRACE"),
  (.leftBracket, "LBRACKET"), (.rightBracket, "RBRACKET"), (.power, "POWER"), (.comma, "COMMA"),
  (.semicolon, "SEMICOLON"), (.dot, "DOT"), (.giveBack, "RETURN"), (.finish, "END")]

/-- The label of a kind. -/
def Kind.label : Kind → String
  | .other label => label
  | kind => (Kind.labels.lookup kind).getD ""

/-- The kind with a label. -/
def Kind.ofLabel (label : String) : Kind :=
  ((Kind.labels.find? fun entry => entry.2 = label).map (·.1)).getD (.other label)

/-- Every kind of the language is found by its label. -/
theorem Kind.ofLabel_label : ∀ entry ∈ Kind.labels, Kind.ofLabel entry.1.label = entry.1 := by
  decide

/-- A literal as messages show it. -/
def Literal.shown : Literal → String
  | .absent => "None"
  | .number x => Numeric.exactText x
  | .text s => Text.quoted s

/-- A token as messages show it. -/
def shown (token : Token) : String :=
  if token.kind = .finish then "end of input"
  else token.kind.label ++ " " ++ token.literal.shown

/-- Whether two tokens have the same kind and literal, wherever they stand. -/
def agrees (a b : Token) : Bool := a.kind = b.kind ∧ a.literal = b.literal

/-- Whether two lists of tokens agree token by token. -/
def agreeAll (as bs : List Token) : Bool :=
  as.map (fun t => (t.kind, t.literal)) = bs.map (fun t => (t.kind, t.literal))

/-- A token agrees with itself at every other place. -/
theorem agrees_move (t : Token) (p : Text.Position) : t.agrees { t with position := p } = true := by
  simp [agrees]

end Token

end Sprig
