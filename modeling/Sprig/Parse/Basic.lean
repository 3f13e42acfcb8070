import Sprig.Parse.Cursor
import Sprig.Tree.Basic

/-!
# Parsers

A parser takes a cursor and ends in one of two ways, each with the cursor where it stands then: it
is done with a value, or it refuses. It refuses because it expected something else at the cursor, or
because the program is nested too deeply.
-/

namespace Sprig

/-- What a parser wants to see. -/
inductive Expectation
  | kind (k : Token.Kind)
  | literal (l : Token.Literal)
  | phrase (words : String)
deriving DecidableEq, Repr

/-- What a parser wants to see, in words. -/
def Expectation.text : Expectation → String
  | .kind k => k.label
  | .literal l => l.shown
  | .phrase words => words

/-- Why a parser goes no further. -/
inductive Refusal
  | expected (what : Expectation)
  | nestedTooDeeply
deriving DecidableEq, Repr

/-- How a parser ends. -/
inductive Step (α : Type)
  | done (value : α) (rest : Cursor)
  | refused (why : Refusal) (rest : Cursor)

/-- Where a parser ends. -/
def Step.rest {α : Type} : Step α → Cursor
  | .done _ rest => rest
  | .refused _ rest => rest

/-- A parser. -/
def Parse (α : Type) : Type := Cursor → Step α

namespace Parse

/-- Runs one parser, and on its value and cursor the next one. -/
@[always_inline, inline]
def andThen {α β : Type} (first : Parse α) (next : α → Parse β) : Parse β := fun c =>
  match first c with
  | .done value rest => next value rest
  | .refused why rest => .refused why rest

instance : Monad Parse where
  pure value := fun c => .done value c
  bind := andThen

/-- Refuses at the cursor. -/
def refuse {α : Type} (what : Expectation) : Parse α := fun c => .refused (.expected what) c

/-- Refuses because of the nesting. -/
def tooDeep {α : Type} : Parse α := fun c => .refused .nestedTooDeeply c

/-- The cursor itself. -/
def cursor : Parse Cursor := fun c => .done c c

/-- The token at the cursor. -/
def current : Parse Token := fun c => .done c.current c

/-- Puts the cursor somewhere. -/
def moveTo (target : Cursor) : Parse Unit := fun _ => .done () target

/-- Takes the token at the cursor; a closing token stays. -/
def advance : Parse Token := fun c => .done c.current c.advance

/-- Whether a token has a kind and, if one is given, a literal. -/
def fits (kind : Token.Kind) (literal? : Option Token.Literal) (token : Token) : Bool :=
  token.kind = kind ∧ ∀ literal ∈ literal?, token.literal = literal

/-- Whether the token at the cursor is of a kind. -/
def isAt (kind : Token.Kind) : Parse Bool := fun c => .done (c.current.kind = kind) c

/-- Whether the token at the cursor is of a kind and says a word. -/
def isAtWord (kind : Token.Kind) (word : String) : Parse Bool :=
  fun c => .done (fits kind (some (.text word)) c.current) c

/-- Takes the token at the cursor if it fits, and refuses otherwise. -/
def expect (kind : Token.Kind) (literal? : Option Token.Literal) (what : Expectation) :
    Parse Token := fun c =>
  if fits kind literal? c.current then .done c.current c.advance else .refused (.expected what) c

/-- Takes a token of a kind, which is expected under a phrase. -/
def expectAs (kind : Token.Kind) (words : String) : Parse Token := expect kind none (.phrase words)

/-- Takes a token of a kind. -/
def expectKind (kind : Token.Kind) : Parse Token := expect kind none (.kind kind)

/-- Takes a keyword. -/
def expectKeyword (word : String) : Parse Token :=
  expect .keyword (some (.text word)) (.literal (.text word))

/-- One parser after the other, in the terms of the steps. -/
theorem bind_apply {α β : Type} (first : Parse α) (next : α → Parse β) (c : Cursor) :
    (first >>= next) c =
      match first c with
      | .done value rest => next value rest
      | .refused why rest => .refused why rest := rfl

/-- A value without a parser reads nothing. -/
@[simp] theorem pure_apply {α : Type} (value : α) (c : Cursor) :
    (pure value : Parse α) c = .done value c := rfl

end Parse

/-- A program that is not well formed, and where. -/
structure SyntaxFault where
  /-- Why the parser refused. -/
  why : Refusal
  /-- The token it stood on. -/
  found : Token
deriving DecidableEq, Repr

/-- What is wrong with a program, in words. -/
def SyntaxFault.message (fault : SyntaxFault) : String :=
  match fault.why with
  | .expected what =>
    "ParseError: expected " ++ what.text ++ " at " ++ fault.found.position.text ++ ", got " ++
      fault.found.shown
  | .nestedTooDeeply =>
    "ParseError: program is nested too deeply at " ++ fault.found.position.text

/-- The result of a parser, a refusal told by the token where it stopped. -/
def Step.toExcept {α : Type} : Step α → Except SyntaxFault α
  | .done value _ => .ok value
  | .refused why rest => .error ⟨why, rest.current⟩

end Sprig
