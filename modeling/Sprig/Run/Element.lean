import Sprig.Numeric.Rounding
import Sprig.Run.Basic

/-!
# Elements and methods of arrays

An element is reached by a Number that is whole, not negative and below the length of the array. The
methods of an array append values, take the last one away, or join the texts of all.
-/

namespace Sprig.Run

/-- The length of an array as a Number. -/
def lengthOf (items : Array Value) : Value := .number (Numeric.ofCount items.size)

/-- The place of an array that a value points to. -/
def placeIn (items : Array Value) (index : Value) : Except Fault Nat :=
  match index with
  | .number x =>
    match Numeric.wholeNumber? x with
    | some k => if 0 ≤ k ∧ k < items.size then .ok k.toNat else .error (.indexOutOfBounds x)
    | none => .error (.indexOutOfBounds x)
  | _ => .error (.indexOf index.kind)

/-- The place of an array that a value points to now. -/
def checkIndex (address : Address) (index : Value) : Run Nat := do
  let place ← read fun s => placeIn (s.heap.items address) index
  lift place

/-- The element of an array that a value points to. -/
def elementAt (address : Address) (index : Value) : Run Value := do
  let place ← checkIndex address index
  read fun s => ((s.heap.items address)[place]?).getD .none

/-- Puts a value into the place of an array that another value points to. -/
def setElement (address : Address) (index v : Value) : Run Unit := do
  let place ← checkIndex address index
  updateArray address (·.setIfInBounds place v)

/-- Appends values to an array, and tells its length. -/
def pushAll (address : Address) (args : List Value) : Run Value := do
  updateArray address (· ++ args.toArray)
  return lengthOf (← itemsOf address)

/-- Takes the last value of an array away; an empty array has none to give. -/
def popLast (address : Address) : Run Value := do
  let last ← read fun s => (s.heap.items address).back?
  updateArray address (·.pop)
  return last.getD .none

/-- The texts of all items of an array, joined by a separator. A separator that counts as false
stands for a comma. -/
def joinItems (address : Address) (args : List Value) : Run Value := do
  let given := args.headD .none
  let separator ← if given.isTruthy then display given else pure ","
  let items ← itemsOf address
  let texts ← displayAll items.toList
  return .text (String.intercalate separator texts)

/-- The value of a method of an array. -/
def applyMethod (address : Address) (method : Scalar) (args : List Value) : Run Value :=
  if method = .text "push" then pushAll address args
  else if method = .text "pop" then popLast address
  else if method = .text "join" then joinItems address args
  else fail (.unknownMethod method)

/-- The value of a property of an array. -/
def applyProperty (address : Address) (property : Scalar) : Run Value :=
  if property = .text "length" then do return lengthOf (← itemsOf address)
  else fail (.unknownProperty property)

/-- A place that a value points to is in the array. -/
theorem placeIn_lt {items : Array Value} {index : Value} {place : Nat}
    (h : placeIn items index = .ok place) : place < items.size := by
  unfold placeIn at h
  split at h
  · split at h
    · split at h
      · next hbounds =>
        obtain ⟨hnonneg, hlt⟩ := hbounds
        simp only [Except.ok.injEq] at h
        omega
      · simp at h
    · simp at h
  · simp at h

end Sprig.Run
