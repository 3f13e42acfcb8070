import Sprig.Json.Basic
import Sprig.Numeric.Layout
import Sprig.Text.Quoted

/-!
# Writing JSON

Text is written with the fewest escapes JSON allows: quotes, backslashes and control characters.
A value is written on one line, or over many with two spaces for each level.
-/

namespace Sprig.Json

/-- One character of a JSON string. -/
def escapeChar (c : Char) : String :=
  if c = '\x22' then "\\\""
  else if c = '\\' then "\\\\"
  else if c = '\n' then "\\n"
  else if c = '\r' then "\\r"
  else if c = '\t' then "\\t"
  else if c = '\x0C' then "\\f"
  else if c = '\x08' then "\\b"
  else if c.toNat < 0x20 then "\\u" ++ String.ofList (Text.hexadecimal 4 c.toNat)
  else String.ofList [c]

/-- A JSON string. -/
def quote (s : String) : String := s.foldl (fun out c => out ++ escapeChar c) "\"" ++ "\""

/-- A binary64 value; infinity and NaN have names of their own. -/
def numberText (x : Float) : String :=
  let text := Numeric.exactText x
  if text = "inf" then "Infinity"
  else if text = "-inf" then "-Infinity"
  else if text = "nan" then "NaN"
  else text

/-- What stands between the parts of a list or an object. -/
structure Spacing where
  /-- The start of a new part at a level. -/
  lineStart : Nat → String
  /-- The separator of a name and its value. -/
  afterName : String

/-- Everything on one line. -/
def Spacing.oneLine : Spacing := ⟨fun _ => "", ":"⟩

/-- A line for each part, two spaces deeper for each level. -/
def Spacing.indented : Spacing :=
  ⟨fun level => String.ofList ('\n' :: List.replicate (2 * level) ' '), ": "⟩

mutual

/-- Writes a value at a level behind what is written already. -/
def write (spacing : Spacing) (level : Nat) (out : String) : Json → String
  | .null => out ++ "null"
  | .boolean b => out ++ if b then "true" else "false"
  | .integer k => out ++ Numeric.integerText k
  | .number x => out ++ numberText x
  | .text s => out ++ quote s
  | .list [] => out ++ "[]"
  | .list (item :: items) =>
    let first := write spacing (level + 1) (out ++ "[" ++ spacing.lineStart (level + 1)) item
    writeItems spacing (level + 1) first items ++ spacing.lineStart level ++ "]"
  | .object [] => out ++ "\x7b\x7d"
  | .object ((name, value) :: entries) =>
    let opened := out ++ "\x7b" ++ spacing.lineStart (level + 1) ++ quote name ++ spacing.afterName
    let first := write spacing (level + 1) opened value
    writeEntries spacing (level + 1) first entries ++ spacing.lineStart level ++ "\x7d"

/-- Writes the later items of a list. -/
def writeItems (spacing : Spacing) (level : Nat) (out : String) : List Json → String
  | [] => out
  | item :: items =>
    writeItems spacing level (write spacing level (out ++ "," ++ spacing.lineStart level) item)
      items

/-- Writes the later entries of an object. -/
def writeEntries (spacing : Spacing) (level : Nat) (out : String) : List (String × Json) → String
  | [] => out
  | (name, value) :: entries =>
    let named := out ++ "," ++ spacing.lineStart level ++ quote name ++ spacing.afterName
    writeEntries spacing level (write spacing level named value) entries

end

/-- A value on one line. -/
def oneLine (value : Json) : String := write .oneLine 0 "" value

/-- A value over many lines. -/
def indented (value : Json) : String := write .indented 0 "" value

end Sprig.Json
