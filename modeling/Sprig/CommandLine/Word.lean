import Sprig.CommandLine.Flag
import Sprig.Text.DecimalDigit
import Sprig.Text.Quoted

/-!
# The words of the command line

Before a word is used it is told apart: a flag, with or without a value attached to it, a word that
only looks like a flag, or plain text. A long flag may be cut short as long as one flag alone starts
that way. The word `--` is a divider, and all words behind it are plain.
-/

namespace Sprig.CommandLine

/-- A wrong use of the command line. -/
inductive Misuse
  | ambiguous (word : String) (spellings : List String)
  | valueExpected (flag : Flag)
  | valueIgnored (flag : Flag) (value : String)
  | notAnInteger (flag : Flag) (value : String)
  | rivals (flag other : Flag)
  | unrecognized (words : List String)
  | programMissing
deriving DecidableEq, Repr

/-- What is wrong about one flag. -/
def aboutFlag (flag : Flag) (text : String) : String := "argument " ++ flag.title ++ ": " ++ text

/-- What is wrong, in words. -/
def Misuse.message : Misuse → String
  | .ambiguous word spellings =>
    "ambiguous option: " ++ word ++ " could match " ++ String.intercalate ", " spellings
  | .valueExpected flag => aboutFlag flag "expected one argument"
  | .valueIgnored flag value =>
    aboutFlag flag ("ignored explicit argument " ++ Text.quoted value)
  | .notAnInteger flag value => aboutFlag flag ("invalid int value: " ++ Text.quoted value)
  | .rivals flag other => aboutFlag flag ("not allowed with argument " ++ other.title)
  | .unrecognized words => "unrecognized arguments: " ++ String.intercalate " " words
  | .programMissing => "missing program file; or use --emit-ast/--ast"

/-- The word that divides flags from plain words. -/
def divider : String := "--"

/-- A word of the command line. -/
inductive Word
  /-- A text that is no flag. -/
  | plain (text : String)
  /-- A flag, whether it is long, and the value written onto it. -/
  | flag (flag : Flag) (long : Bool) (value? : Option String)
  /-- A text that looks like a flag and is none. -/
  | unknown (text : String)
deriving DecidableEq, Repr

/-- Whether some characters start with two dashes. -/
def isLong : List Char → Bool
  | '-' :: '-' :: _ => true
  | _ => false

/-- The word for a flag that is spelled out. -/
def spelled? (spelling : List Char) (value? : Option String) : Option Word :=
  (Flag.ofSpelling? (String.ofList spelling)).map fun flag => .flag flag (isLong spelling) value?

/-- A text cut at its first equals sign, if it has one. -/
def cutAtEquals (cs : List Char) : List Char × Option String :=
  match cs.dropWhile (· ≠ '=') with
  | _ :: value => (cs.takeWhile (· ≠ '='), some (String.ofList value))
  | [] => (cs, none)

/-- Whether a text reads as a negative number: digits behind a dash, or a point with digits behind
it and perhaps before it. A line feed may follow. -/
def isNegativeNumber (cs : List Char) : Bool :=
  match cs with
  | '-' :: rest =>
    let body := if rest.getLast? = some '\n' then rest.dropLast else rest
    match body.dropWhile Text.isDigit with
    | [] => body ≠ []
    | '.' :: places => places ≠ [] ∧ places.all Text.isDigit
    | _ => false
  | _ => false

/-- The flags that a text with two dashes can stand for. -/
def longMatches (cs : List Char) : List (String × Flag) :=
  Flag.all.filter fun entry => (cutAtEquals cs).1.isPrefixOf entry.1.toList

/-- What a text that looks like a flag is when nothing matches it. -/
def unmatched (cs : List Char) : Word :=
  let text := String.ofList cs
  if isNegativeNumber cs ∨ ' ' ∈ cs then .plain text else .unknown text

/-- Tells a word apart that starts with a dash and is longer than that. -/
def classifyDashed (cs : List Char) : Except Misuse Word :=
  let (spelling, value?) := cutAtEquals cs
  match spelled? cs none, value?.bind fun value => spelled? spelling (some value) with
  | some word, _ => .ok word
  | none, some word => .ok word
  | none, none =>
    if isLong cs then
      match longMatches cs with
      | [] => .ok (unmatched cs)
      | [(_, flag)] => .ok (.flag flag true value?)
      | several => .error (.ambiguous (String.ofList cs) (several.map (·.1)))
    else
      .ok ((spelled? (cs.take 2) (some (String.ofList (cs.drop 2)))).getD (unmatched cs))

/-- Tells a word apart that is no divider. -/
def classify (word : String) : Except Misuse Word :=
  match word.toList with
  | '-' :: c :: cs => classifyDashed ('-' :: c :: cs)
  | _ => .ok (.plain word)

/-- The words before the divider, told apart, and the plain words behind it, if there is one. -/
def classifyAll : List String → Except Misuse (List Word × Option (List String))
  | [] => .ok ([], none)
  | word :: words =>
    if word = divider then .ok ([], some words)
    else do
      let first ← classify word
      let (rest, behind) ← classifyAll words
      return (first :: rest, behind)

/-- An empty word is plain. -/
theorem classify_empty : classify "" = .ok (.plain "") := rfl

end Sprig.CommandLine
