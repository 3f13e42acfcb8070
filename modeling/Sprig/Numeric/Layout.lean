import Sprig.Numeric.Shortest

/-!
# Decimals as text

A decimal is written positionally while its leading digit is close enough to the point, and with
an exponent otherwise. `Layout` holds the bounds; `exactText` writes a Number so that reading the
text gives the Number back, and `displayText` writes it the way programs see it.
-/

namespace Sprig.Numeric

/-- When and how a decimal is written with an exponent. -/
structure Layout where
  /-- The lowest place of a leading digit that is written positionally. -/
  lowestPlace : Int
  /-- The first place of a leading digit that is too high for it. -/
  placeLimit : Int
  /-- The least number of digits of an exponent. -/
  exponentWidth : Nat

/-- A Number has between four zeros after the point and sixteen digits before it, and at least two
digits of exponent. -/
def Layout.exact : Layout := ⟨-4, 16, 2⟩

/-- A natural number in decimal. -/
def digitsText (n : Nat) : List Char := Nat.toDigits 10 n

/-- Digits without the zeros at their end. -/
def dropZeros (ds : List Char) : List Char := (ds.reverse.dropWhile (· = '0')).reverse

/-- Digits around a point, the leading one at a given place; a side without digits has a zero. -/
def positional (place : Int) (ds : List Char) : List Char :=
  if place < 0 then
    '0' :: '.' :: List.replicate (-place - 1).toNat '0' ++ ds
  else
    let width := place.toNat + 1
    let whole := ds.take width ++ List.replicate (width - ds.length) '0'
    whole ++ '.' :: (if ds.length ≤ width then ['0'] else ds.drop width)

/-- One digit before the point, the others after it, and the place of the first as an exponent. -/
def scientific (width : Nat) (place : Int) (ds : List Char) : List Char :=
  let exponent := digitsText place.natAbs
  ds.take 1 ++ (if ds.length ≤ 1 then [] else '.' :: ds.drop 1) ++
    'e' :: (if place < 0 then '-' else '+') ::
      (List.replicate (width - exponent.length) '0' ++ exponent)

/-- A decimal in a layout. -/
def Layout.write (layout : Layout) (d : Decimal) : List Char :=
  let ds := digitsText d.digits
  let place := d.exponent + ds.length - 1
  if layout.lowestPlace ≤ place ∧ place < layout.placeLimit then positional place (dropZeros ds)
  else scientific layout.exponentWidth place (dropZeros ds)

/-- The text of a Number that reads back as the same Number. -/
def exactText (x : Float) : String :=
  let n := rank x
  if infiniteRank < n then "nan"
  else
    let sign := if isNegative x then "-" else ""
    if n = infiniteRank then sign ++ "inf"
    else sign ++ String.ofList (Layout.exact.write (if n = 0 then ⟨0, 0⟩ else shortest n))

/-- The text of an integer. -/
def integerText (k : Int) : String :=
  (if k < 0 then "-" else "") ++ String.ofList (digitsText k.natAbs)

/-- The text of a Number in a program's output: a whole Number of at most 21 digits is written
without a point, any other finite one exactly. -/
def displayText (x : Float) : String :=
  let n := rank x
  if infiniteRank < n then "NaN"
  else if n = infiniteRank then (if isNegative x then "-Infinity" else "Infinity")
  else
    match wholeNumber? x with
    | some k => if k.natAbs < Nat.pow 10 21 then integerText k else exactText x
    | none => exactText x

end Sprig.Numeric
