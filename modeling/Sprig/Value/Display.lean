import Sprig.Numeric.Layout
import Sprig.Text.Quoted
import Sprig.Value.Basic

/-!
# Values as text

`display?` is the text that programs print. The text of an array holds the text of its items, so an
array that is reached from itself has none; nesting is followed up to an allowance, and beyond it
there is no text either. `inspect` is the text that tells values apart; it marks the place where an
array is met again inside itself.
-/

namespace Sprig.Value

/-- How deeply arrays may be nested in one text. -/
def displayAllowance : Nat := 2400

/-- The text of a value, unless its arrays are nested more deeply than allowed. -/
def display? (heap : Heap) : (allowance : Nat) → Value → Option String
  | _, .none => some "none"
  | _, .boolean b => some (if b then "true" else "false")
  | _, .number x => some (Numeric.displayText x)
  | _, .text s => some s
  | _, .integer k => some (Numeric.integerText k)
  | 0, .array _ => Option.none
  | allowance + 1, .array address =>
    ((heap.items address).toList.mapM (display? heap allowance)).map fun parts =>
      "[" ++ String.intercalate ", " parts ++ "]"

/-- The text that tells values apart, inside the arrays that are being written already. Each level
writes a further array of the heap, so `fuel` may be their number. -/
def inspectWithin (heap : Heap) : (fuel : Nat) → (openArrays : List Address) → Value → String
  | _, _, .none => "None"
  | _, _, .boolean b => boolWord b
  | _, _, .number x => Numeric.exactText x
  | _, _, .text s => Text.quoted s
  | _, _, .integer k => Numeric.integerText k
  | 0, _, .array _ => "Array([...])"
  | fuel + 1, openArrays, .array address =>
    if address ∈ openArrays then "Array([...])"
    else
      let parts := (heap.items address).toList.map (inspectWithin heap fuel (address :: openArrays))
      "Array([" ++ String.intercalate ", " parts ++ "])"

/-- The text that tells values apart. -/
def inspect (heap : Heap) (v : Value) : String := inspectWithin heap heap.arrays.size [] v

/-- An empty array has a text as soon as one level is allowed. -/
theorem display?_empty {heap : Heap} {address : Address} (h : heap.items address = #[])
    (allowance : Nat) : display? heap (allowance + 1) (.array address) = some "[]" := by
  simp only [display?, h]
  rfl

end Sprig.Value
