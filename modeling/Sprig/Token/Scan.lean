import Sprig.Numeric.Reading
import Sprig.Text.Blank
import Sprig.Token.Basic

/-!
# From text to tokens

A text is cut from left to right into pieces. A piece is a lexeme, which becomes a token, or a
character that is skipped: white space, and every character that starts no lexeme. A lexeme is as
long as it can be. The only fault is a quote that no second quote closes.
-/

namespace Sprig.Token

/-- A part of a text that becomes a token. -/
inductive Lexeme
  /-- Digits, and after a point more digits; without a point there is no fraction. -/
  | number (whole fraction : List Char)
  /-- Anything between two quotes. -/
  | string (content : List Char)
  /-- A letter or underscore, and letters, digits and underscores after it. -/
  | name (letters : List Char)
  /-- One or two characters of punctuation. -/
  | symbol (kind : Kind) (chars : List Char)
deriving DecidableEq, Repr

/-- The quote around a string. -/
def quote : Char := '\x22'

/-- The characters of a lexeme. -/
def Lexeme.chars : Lexeme → List Char
  | .number whole [] => whole
  | .number whole fraction => whole ++ '.' :: fraction
  | .string content => quote :: content ++ [quote]
  | .name letters => letters
  | .symbol _ chars => chars

/-- The words that are no names. -/
def keywords : List String := [
  "print", "if", "else", "true", "false", "while", "function", "push", "pop", "length", "join"]

/-- The word that ends a function. -/
def returnWord : String := "return"

/-- The kind of a word. -/
def wordKind (word : String) : Kind :=
  if word = returnWord then .giveBack
  else if word ∈ keywords then .keyword
  else .identifier

/-- The token that a lexeme becomes at a place. -/
def Lexeme.token (position : Text.Position) : Lexeme → Token
  | .number whole fraction => ⟨.number, .number (Numeric.ofNumeral whole fraction), position⟩
  | .string content => ⟨.string, .text (String.ofList content), position⟩
  | .name letters =>
    let word := String.ofList letters
    ⟨wordKind word, .text word, position⟩
  | .symbol kind chars => ⟨kind, .text (String.ofList chars), position⟩

/-- A piece of a text. -/
inductive Piece
  | lexeme (lexeme : Lexeme)
  | skipped
  | unclosed
deriving DecidableEq, Repr

/-- Whether a name may start with a character. -/
def isNameStart (c : Char) : Bool := ('a' ≤ c ∧ c ≤ 'z') ∨ ('A' ≤ c ∧ c ≤ 'Z') ∨ c = '_'

/-- Whether a name may go on with a character. -/
def isNamePart (c : Char) : Bool := isNameStart c ∨ ('0' ≤ c ∧ c ≤ '9')

/-- The kinds of the characters that are lexemes by themselves. -/
def singles : List (Char × Kind) := [
  ('=', .assign), ('+', .operator), ('-', .operator), ('*', .operator), ('/', .operator),
  ('<', .operator), ('>', .operator), ('^', .power), ('(', .leftParen), (')', .rightParen),
  ('{', .leftBrace), ('}', .rightBrace), ('[', .leftBracket), (']', .rightBracket),
  (',', .comma), (';', .semicolon), ('.', .dot)]

/-- The punctuation at the front of a text; a comparison of two characters goes before its first
character. -/
def symbol? (c : Char) (cs : List Char) : Option Lexeme :=
  if cs.head? = some '=' ∧ c ∈ ['=', '!', '<', '>'] then some (.symbol .comparison [c, '='])
  else (singles.lookup c).map fun kind => .symbol kind [c]

/-- The digits after a point at the front of a text, if the point has one behind it. -/
def fractionOf : List Char → List Char
  | '.' :: cs => cs.takeWhile Text.isDigit
  | _ => []

/-- The piece at the front of a text that starts with `c`. -/
def pieceAt (c : Char) (cs : List Char) : Piece :=
  if c = quote then
    let content := cs.takeWhile (· ≠ quote)
    if content.length < cs.length then .lexeme (.string content) else .unclosed
  else if isNameStart c then .lexeme (.name (c :: cs.takeWhile isNamePart))
  else
    match symbol? c cs with
    | some lexeme => .lexeme lexeme
    | none =>
      if Text.isDigit c then
        .lexeme (.number (c :: cs.takeWhile Text.isDigit)
          (fractionOf (cs.dropWhile Text.isDigit)))
      else .skipped

/-- A quote that is not closed. -/
structure Unclosed where
  /-- The place of the quote. -/
  position : Text.Position
deriving DecidableEq, Repr

/-- What is wrong with a text whose last quote is not closed. -/
def Unclosed.message (fault : Unclosed) : String :=
  "LexError: unterminated string literal at " ++ fault.position.text

/-- The tokens of a text that starts at a place. -/
def scanFrom (position : Text.Position) : List Char → Except Unclosed (List Token)
  | [] => .ok [⟨.finish, .absent, position⟩]
  | c :: cs =>
    match pieceAt c cs with
    | .unclosed => .error ⟨position⟩
    | .skipped => scanFrom (position.next c) cs
    | .lexeme lexeme =>
      match scanFrom (position.after lexeme.chars) (cs.drop (lexeme.chars.length - 1)) with
      | .error fault => .error fault
      | .ok tokens => .ok (lexeme.token position :: tokens)
  termination_by cs => cs.length
  decreasing_by all_goals simp only [List.length_cons, List.length_drop]; omega

/-- The tokens of a program. -/
def scan (source : String) : Except Unclosed (List Token) :=
  scanFrom .start source.toList

/-- An empty text has the closing token alone. -/
theorem scanFrom_nil (p : Text.Position) : scanFrom p [] = .ok [⟨.finish, .absent, p⟩] := by
  simp [scanFrom]

end Sprig.Token
