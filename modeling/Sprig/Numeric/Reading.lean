import Sprig.Numeric.Rounding
import Sprig.Text.Blank
import Sprig.Text.DecimalDigit

/-!
# Reading numbers

A numeral of a program is digits of any script, with a fraction at most. The fields of a document
and the options of the command line take a wider form: padding around the number, a sign, single
underscores between digits, and for a real number an exponent, infinity and NaN.
-/

namespace Sprig.Numeric

/-- The number that a row of digits stands for. -/
def digitsValue (ds : List Nat) : Nat := ds.foldl (fun n d => 10 * n + d) 0

/-- The values of a row of digits of any script. -/
def digitValues (cs : List Char) : List Nat := cs.filterMap Text.digitValue?

/-- The Number of a program's numeral, given the digits before and after its point. -/
def ofNumeral (whole fraction : List Char) : Float :=
  ofDecimal false (digitsValue (digitValues (whole ++ fraction))) (-fraction.length)

/-- A digit of the Latin script. -/
def isPlainDigit (c : Char) : Bool := '0' ≤ c ∧ c ≤ '9'

/-- A character outside the Latin script as the plain one it stands for in a number. -/
def plain? (c : Char) : Option Char :=
  if c.toNat < 0x7F then some c
  else if Text.isBlank c then some ' '
  else (Text.digitValue? c).map fun d => Char.ofNat (0x30 + d)

/-- The text of a number without the padding around it, in plain characters. -/
def trimmed? (cs : List Char) : Option (List Char) :=
  (cs.mapM plain?).map fun cs =>
    ((cs.dropWhile Text.isPadding).reverse.dropWhile Text.isPadding).reverse

/-- The text without its underscores, each of which must stand between two digits. The argument in
front tells whether the character before was a digit. -/
def joinDigits? : Bool → List Char → Option (List Char)
  | _, [] => some []
  | afterDigit, '_' :: rest =>
    if afterDigit ∧ (rest.head?.any isPlainDigit) then joinDigits? false rest else none
  | _, c :: rest => (joinDigits? (isPlainDigit c) rest).map (c :: ·)

/-- The sign in front of a number, and what follows it. -/
def splitSign : List Char → Bool × List Char
  | '-' :: cs => (true, cs)
  | '+' :: cs => (false, cs)
  | cs => (false, cs)

/-- The exponent of a real number; a text without one has exponent zero. -/
def readExponent? : List Char → Option Int
  | [] => some 0
  | c :: cs =>
    if c = 'e' ∨ c = 'E' then
      let (negative, ds) := splitSign cs
      if ds ≠ [] ∧ ds.all isPlainDigit then
        let n : Int := digitsValue (digitValues ds)
        some (if negative then -n else n)
      else none
    else none

/-- A real number without sign: digits on at least one side of an optional point, and an optional
exponent; or one of the names of infinity and NaN, in any case. -/
def readMagnitude? (negative : Bool) (cs : List Char) : Option Float :=
  let name := cs.map Char.toLower
  if name = "inf".toList ∨ name = "infinity".toList then some (ofRank negative infiniteRank)
  else if name = "nan".toList then some (ofRank false nanRank)
  else
    let whole := cs.takeWhile isPlainDigit
    let rest := cs.dropWhile isPlainDigit
    let afterPoint := match rest with
      | '.' :: tail => tail
      | _ => []
    let fraction := afterPoint.takeWhile isPlainDigit
    let tail := match rest with
      | '.' :: tail => tail.dropWhile isPlainDigit
      | _ => rest
    if whole = [] ∧ fraction = [] then none
    else (readExponent? tail).map fun exponent =>
      ofDecimal negative (digitsValue (digitValues (whole ++ fraction)))
        (exponent - fraction.length)

/-- Reads a real number. -/
def readReal? (s : String) : Option Float :=
  ((trimmed? s.toList).bind (joinDigits? false)).bind fun cs =>
    let (negative, magnitude) := splitSign cs
    readMagnitude? negative magnitude

/-- The most digits that an integer may be written with. -/
def maxIntegerDigits : Nat := 4300

/-- Reads an integer. -/
def readInteger? (s : String) : Option Int :=
  ((trimmed? s.toList).bind (joinDigits? false)).bind fun cs =>
    let (negative, ds) := splitSign cs
    if ds ≠ [] ∧ ds.all isPlainDigit ∧ ds.length ≤ maxIntegerDigits then
      let n : Int := digitsValue (digitValues ds)
      some (if negative then -n else n)
    else none

/-- No digit stands for zero. -/
@[simp] theorem digitsValue_nil : digitsValue [] = 0 := rfl

/-- A further digit shifts the others by one place. -/
theorem digitsValue_concat (ds : List Nat) (d : Nat) :
    digitsValue (ds ++ [d]) = 10 * digitsValue ds + d := by
  simp [digitsValue]

end Sprig.Numeric
