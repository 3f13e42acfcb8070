import Sprig.Json.Basic
import Sprig.Numeric.Reading
import Sprig.Text.Position

/-!
# Reading JSON

`parse` reads a whole text as one value. Besides plain JSON it takes the names `NaN`, `Infinity`
and `-Infinity`. A fault tells what was missing and where.

## Implementation notes

The readers pass on what is left of the text, so the place of a fault is the length of what is left
there. Every step from a value to a nested one takes a character, which bounds the nesting by the
length of the text.

Texts are rows of Unicode scalar values, so half of a surrogate pair has no place in one. An escape
of such a half that stands alone is read as the replacement character, and the half itself is lost.
-/

namespace Sprig.Json

/-- What is wrong with a text. -/
inductive Fault.Cause
  | valueExpected
  | nameExpected
  | colonExpected
  | commaExpected
  | extraData
  | controlCharacter
  | unterminatedText
  | invalidEscape
  | invalidCodeUnit
  | byteOrderMark
  | integerTooLong (digits : Nat)
deriving DecidableEq, Repr

/-- What is wrong with a text, and where. -/
structure Fault where
  /-- What is wrong. -/
  cause : Fault.Cause
  /-- The offset in characters. -/
  offset : Nat
  /-- The line and column. -/
  position : Text.Position
deriving DecidableEq, Repr

/-- The cause in words. -/
def Fault.Cause.text : Fault.Cause → String
  | .valueExpected => "Expecting value"
  | .nameExpected => "Expecting property name enclosed in double quotes"
  | .colonExpected => "Expecting ':' delimiter"
  | .commaExpected => "Expecting ',' delimiter"
  | .extraData => "Extra data"
  | .controlCharacter => "Invalid control character at"
  | .unterminatedText => "Unterminated string starting at"
  | .invalidEscape => "Invalid \\escape"
  | .invalidCodeUnit => "Invalid \\uXXXX escape"
  | .byteOrderMark => "Unexpected UTF-8 BOM (decode using utf-8-sig)"
  | .integerTooLong digits =>
    "Exceeds the limit (4300 digits) for integer string conversion: value has " ++
      toString digits ++ " digits; use sys.set_int_max_str_digits() to increase the limit"

/-- The message of a fault. -/
def Fault.message (fault : Fault) : String :=
  match fault.cause with
  | .integerTooLong _ => fault.cause.text
  | _ =>
    fault.cause.text ++ ": line " ++ toString fault.position.line ++ " column " ++
      toString fault.position.column ++ " (char " ++ toString fault.offset ++ ")"

/-- A fault before it is placed: its cause and how many characters were left. -/
abbrev Flaw := Fault.Cause × Nat

/-- A part that was read and what is left of the text. -/
abbrev Reading (α : Type) := Except Flaw (α × List Char)

/-- A flaw at the start of what is left. -/
def flaw {α : Type} (cause : Fault.Cause) (rest : List Char) : Except Flaw α :=
  .error (cause, rest.length)

/-- What is left after white space. -/
def skipSpace (cs : List Char) : List Char :=
  cs.dropWhile fun c => c = ' ' ∨ c = '\t' ∨ c = '\n' ∨ c = '\r'

/-- The value of a hexadecimal digit. -/
def hexValue? (c : Char) : Option Nat :=
  if '0' ≤ c ∧ c ≤ '9' then some (c.toNat - '0'.toNat)
  else if 'a' ≤ c ∧ c ≤ 'f' then some (c.toNat - 'a'.toNat + 10)
  else if 'A' ≤ c ∧ c ≤ 'F' then some (c.toNat - 'A'.toNat + 10)
  else none

/-- The code unit of four hexadecimal digits, if that many and at least one more character are
left. -/
def codeUnit? (cs : List Char) : Option Nat :=
  if (cs.drop 4).isEmpty then none
  else ((cs.take 4).mapM hexValue?).map fun ds => ds.foldl (fun n d => 16 * n + d) 0

/-- The low half of a pair of code units that follows a high one. -/
def lowHalf? (cs : List Char) : Except Flaw (Option Nat) :=
  match cs with
  | '\\' :: 'u' :: rest =>
    if (cs.drop 6).isEmpty then .ok none
    else
      match codeUnit? rest with
      | none => flaw .invalidCodeUnit ('u' :: rest)
      | some low => .ok (if 0xDC00 ≤ low ∧ low ≤ 0xDFFF then some low else none)
  | _ => .ok none

/-- The character of an escape, after its backslash. A half of a pair that stands alone is read as
the replacement character. -/
def readEscape (cs : List Char) : Reading Char :=
  match cs with
  | '"' :: rest => .ok ('"', rest)
  | '\\' :: rest => .ok ('\\', rest)
  | '/' :: rest => .ok ('/', rest)
  | 'b' :: rest => .ok ('\x08', rest)
  | 'f' :: rest => .ok ('\x0C', rest)
  | 'n' :: rest => .ok ('\n', rest)
  | 'r' :: rest => .ok ('\r', rest)
  | 't' :: rest => .ok ('\t', rest)
  | 'u' :: rest =>
    match codeUnit? rest with
    | none => flaw .invalidCodeUnit cs
    | some unit =>
      if 0xD800 ≤ unit ∧ unit ≤ 0xDBFF then
        match lowHalf? (rest.drop 4) with
        | .error e => .error e
        | .ok (some low) =>
          .ok (Char.ofNat (0x10000 + (unit - 0xD800) * 0x400 + (low - 0xDC00)), rest.drop 10)
        | .ok none => .ok ('\uFFFD', rest.drop 4)
      else if 0xDC00 ≤ unit ∧ unit ≤ 0xDFFF then .ok ('\uFFFD', rest.drop 4)
      else .ok (Char.ofNat unit, rest.drop 4)
  | _ => .error (.invalidEscape, cs.length + 1)

/-- Reads the rest of a string. `opening` is what was left at its opening quote, and the characters
so far are given in reverse; each step takes a character, so `fuel` may be their number. -/
def readText (opening : List Char) : (fuel : Nat) → List Char → List Char → Reading String
  | 0, _, _ => flaw .unterminatedText opening
  | fuel + 1, before, cs =>
    match cs with
    | [] => flaw .unterminatedText opening
    | '"' :: rest => .ok (String.ofList before.reverse, rest)
    | ['\\'] => flaw .unterminatedText opening
    | '\\' :: rest =>
      match readEscape rest with
      | .error e => .error e
      | .ok (c, rest) => readText opening fuel (c :: before) rest
    | c :: rest =>
      if c.toNat < 0x20 then flaw .controlCharacter cs else readText opening fuel (c :: before) rest

/-- The digits in front of a text, and what follows them. -/
def splitDigits (cs : List Char) : List Char × List Char :=
  (cs.takeWhile Numeric.isPlainDigit, cs.dropWhile Numeric.isPlainDigit)

/-- The fraction behind a number; a point without a digit is not part of it. -/
def splitFraction (cs : List Char) : List Char × List Char :=
  match cs with
  | '.' :: rest => if (splitDigits rest).1 = [] then ([], cs) else splitDigits rest
  | _ => ([], cs)

/-- The exponent behind a number; a mark without a digit is not part of it. -/
def splitExponent (cs : List Char) : Option Int × List Char :=
  match cs with
  | c :: rest =>
    if c = 'e' ∨ c = 'E' then
      let (negative, unsigned) := Numeric.splitSign rest
      let (ds, rest) := splitDigits unsigned
      if ds = [] then (none, cs)
      else
        let n : Int := Numeric.digitsValue (Numeric.digitValues ds)
        (some (if negative then -n else n), rest)
    else (none, cs)
  | [] => (none, [])

/-- Reads a number that starts at `start`, behind its sign. -/
def readNumber (start : List Char) (negative : Bool) (cs : List Char) : Reading Json :=
  let (whole, rest) := match cs with
    | '0' :: rest => (['0'], rest)
    | _ => splitDigits cs
  if whole = [] then flaw .valueExpected start
  else
    let (fraction, rest) := splitFraction rest
    let (exponent, rest) := splitExponent rest
    let digits := Numeric.digitsValue (Numeric.digitValues (whole ++ fraction))
    if fraction = [] ∧ exponent = none then
      if Numeric.maxIntegerDigits < whole.length then flaw (.integerTooLong whole.length) start
      else .ok (.integer (if negative then -digits else digits), rest)
    else
      .ok (.number (Numeric.ofDecimal negative digits (exponent.getD 0 - fraction.length)), rest)

/-- Reads a value that is no string, list or object. -/
def readScalar (cs : List Char) : Reading Json :=
  match cs with
  | 'n' :: 'u' :: 'l' :: 'l' :: rest => .ok (.null, rest)
  | 't' :: 'r' :: 'u' :: 'e' :: rest => .ok (.boolean true, rest)
  | 'f' :: 'a' :: 'l' :: 's' :: 'e' :: rest => .ok (.boolean false, rest)
  | 'N' :: 'a' :: 'N' :: rest =>
    .ok (.number (Numeric.ofRank false Numeric.nanRank), rest)
  | 'I' :: 'n' :: 'f' :: 'i' :: 'n' :: 'i' :: 't' :: 'y' :: rest =>
    .ok (.number (Numeric.ofRank false Numeric.infiniteRank), rest)
  | '-' :: 'I' :: 'n' :: 'f' :: 'i' :: 'n' :: 'i' :: 't' :: 'y' :: rest =>
    .ok (.number (Numeric.ofRank true Numeric.infiniteRank), rest)
  | '-' :: rest => readNumber cs true rest
  | _ => readNumber cs false cs

mutual

/-- Reads a value. -/
def readValue : (fuel : Nat) → List Char → Reading Json
  | 0, cs => flaw .valueExpected cs
  | fuel + 1, cs =>
    match cs with
    | '"' :: rest =>
      match readText cs fuel [] rest with
      | .error e => .error e
      | .ok (s, rest) => .ok (.text s, rest)
    | '[' :: rest =>
      match skipSpace rest with
      | ']' :: rest => .ok (.list [], rest)
      | rest => readItems fuel [] rest
    | '{' :: rest =>
      match skipSpace rest with
      | '}' :: rest => .ok (.object [], rest)
      | rest => readEntries fuel [] rest
    | _ => readScalar cs

/-- Reads the items of a list from the next one on; those before are given in reverse. -/
def readItems : (fuel : Nat) → List Json → List Char → Reading Json
  | 0, _, cs => flaw .valueExpected cs
  | fuel + 1, before, cs =>
    match readValue fuel cs with
    | .error e => .error e
    | .ok (item, rest) =>
      match skipSpace rest with
      | ']' :: rest => .ok (.list (item :: before).reverse, rest)
      | ',' :: rest => readItems fuel (item :: before) (skipSpace rest)
      | rest => flaw .commaExpected rest

/-- Reads the entries of an object from the next one on; those before are given in reverse. -/
def readEntries : (fuel : Nat) → List (String × Json) → List Char → Reading Json
  | 0, _, cs => flaw .nameExpected cs
  | fuel + 1, before, cs =>
    match cs with
    | '"' :: rest =>
      match readText cs fuel [] rest with
      | .error e => .error e
      | .ok (name, rest) =>
        match skipSpace rest with
        | ':' :: rest =>
          match readValue fuel (skipSpace rest) with
          | .error e => .error e
          | .ok (value, rest) =>
            match skipSpace rest with
            | '}' :: rest => .ok (.object ((name, value) :: before).reverse, rest)
            | ',' :: rest => readEntries fuel ((name, value) :: before) (skipSpace rest)
            | rest => flaw .commaExpected rest
        | rest => flaw .colonExpected rest
    | _ => flaw .nameExpected cs

end

/-- Reads a whole text as one value. -/
def readWhole (cs : List Char) : Except Flaw Json :=
  match cs with
  | '\uFEFF' :: _ => flaw .byteOrderMark cs
  | _ =>
    match readValue (2 * cs.length + 2) (skipSpace cs) with
    | .error e => .error e
    | .ok (value, rest) =>
      match skipSpace rest with
      | [] => .ok value
      | rest => flaw .extraData rest

/-- Reads a whole text as one value. -/
def parse (s : String) : Except Fault Json :=
  let cs := s.toList
  match readWhole cs with
  | .ok value => .ok value
  | .error (cause, left) =>
    let offset := cs.length - left
    .error ⟨cause, offset, Text.Position.start.after (cs.take offset)⟩

end Sprig.Json
