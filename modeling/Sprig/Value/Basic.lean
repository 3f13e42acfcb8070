import Sprig.Numeric.Binary
import Sprig.Tree.Basic

/-!
# Values

A value is a Number, a String, a Boolean, an Array or nothing. An Array is an address in a heap, so
two values can share one; the heap gives each address its items. A tree made by hand can also put a
bare integer into a String or Boolean node, and that is a value of a kind of its own.
-/

namespace Sprig

/-- The place of an array in a heap. -/
abbrev Address := Nat

/-- A value. -/
inductive Value
  | none
  | boolean (b : Bool)
  | number (x : Float)
  | text (s : String)
  | integer (k : Int)
  | array (address : Address)
deriving DecidableEq, Repr, Inhabited

/-- The kinds of values. -/
inductive Value.Kind
  | none
  | boolean
  | number
  | text
  | integer
  | array
deriving DecidableEq, Repr

namespace Value

/-- The name of a kind. -/
def Kind.name : Kind → String
  | .none => "None"
  | .boolean => "Boolean"
  | .number => "Number"
  | .text => "String"
  | .integer => "int"
  | .array => "Array"

/-- The kind of a value. -/
def kind : Value → Kind
  | .none => .none
  | .boolean _ => .boolean
  | .number _ => .number
  | .text _ => .text
  | .integer _ => .integer
  | .array _ => .array

/-- Whether a value is a Number. -/
def isNumber (v : Value) : Bool := v.kind = .number

theorem isNumber_iff {v : Value} : v.isNumber ↔ ∃ x, v = .number x := by
  cases v <;> simp [isNumber, kind]

/-- The value of a literal. -/
def ofScalar : Scalar → Value
  | .none => .none
  | .boolean b => .boolean b
  | .integer k => .integer k
  | .number x => .number x
  | .text s => .text s

/-- Whether a value counts as true in a condition: a Boolean by itself, a Number unless it is zero
or NaN, a String unless it is empty; nothing does not, and all else does. -/
def isTruthy : Value → Bool
  | .none => false
  | .boolean b => b
  | .number x => x != 0.0 && !x.isNaN
  | .text s => s ≠ ""
  | .integer _ => true
  | .array _ => true

/-- Equality without conversion: values of different kinds differ, Numbers are compared as such, and
an Array is equal only to itself. -/
def equals : Value → Value → Bool
  | .number x, .number y => x == y
  | a, b => a = b

/-- Values of different kinds are not equal. -/
theorem equals_of_kind_ne {a b : Value} (h : a.kind ≠ b.kind) : a.equals b = false := by
  cases a <;> cases b <;> simp_all [equals, kind]

end Value

/-- The contents of all arrays, by address. -/
structure Heap where
  /-- The items of each array. -/
  arrays : Array (Array Value)

namespace Heap

/-- The heap without an array. -/
def empty : Heap := ⟨#[]⟩

/-- The items at an address. -/
def items (heap : Heap) (address : Address) : Array Value := (heap.arrays[address]?).getD #[]

/-- The heap with one more array, and its address. -/
def allocate (heap : Heap) (items : Array Value) : Address × Heap :=
  (heap.arrays.size, ⟨heap.arrays.push items⟩)

/-- The heap with the items at one address changed. -/
def update (heap : Heap) (address : Address) (change : Array Value → Array Value) : Heap :=
  ⟨heap.arrays.modify address change⟩

/-- A new array has the items it was made with. -/
theorem items_allocate (heap : Heap) (items : Array Value) :
    (heap.allocate items).2.items (heap.allocate items).1 = items := by
  simp [allocate, Heap.items]

/-- A change at one address leaves every other array alone. -/
theorem items_update_of_ne (heap : Heap) {a b : Address} (h : a ≠ b)
    (change : Array Value → Array Value) : (heap.update a change).items b = heap.items b := by
  simp [update, Heap.items, Array.getElem?_modify, h]

end Heap

end Sprig
