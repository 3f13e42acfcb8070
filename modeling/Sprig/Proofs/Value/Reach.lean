import Sprig.Value.Basic

/-!
# Arrays that are reached

An array is reached from some values when one of them is this array, or when it stands in a cell of
an array that is reached.
-/

namespace Sprig

/-- The arrays that are reached from some values. -/
inductive Heap.Reaches (heap : Heap) (roots : Value → Prop) : Address → Prop
  | root {a} (h : roots (.array a)) : heap.Reaches roots a
  | cell {a b} (h : heap.Reaches roots a) (mem : .array b ∈ heap.items a) : heap.Reaches roots b

/-- The arrays that are reached from a value. -/
def Value.Reaches (heap : Heap) (v : Value) (a : Address) : Prop := heap.Reaches (· = v) a

/-- Whether a value is no array but one of some arrays. -/
def Value.Within (known : Address → Prop) (v : Value) : Prop := ∀ a, v = .array a → known a

namespace Heap

variable {heap : Heap} {a b : Address} {items : Array Value}

/-- What is closed under cells and holds the roots holds all that they reach. -/
theorem Reaches.of_closed {roots : Value → Prop} {known : Address → Prop}
    (hroots : ∀ v, roots v → v.Within known)
    (hcell : ∀ a, known a → ∀ v ∈ heap.items a, v.Within known) (h : heap.Reaches roots a) :
    known a := by
  induction h with
  | root h => exact hroots _ h _ rfl
  | cell _ mem ih => exact hcell _ ih _ mem _ rfl

/-- There is nothing at an address that is not in use. -/
theorem items_of_le (h : heap.arrays.size ≤ a) : heap.items a = #[] := by
  simp [Heap.items, h]

theorem items_push (heap : Heap) (items : Array Value) (a : Address) :
    (heap.allocate items).2.items a = if a = heap.arrays.size then items else heap.items a := by
  simp only [allocate, Heap.items, Array.getElem?_push]
  split <;> simp

theorem items_update_self (heap : Heap) (a : Address) (f : Array Value → Array Value) :
    (heap.update a f).items a = if a < heap.arrays.size then f (heap.items a) else #[] := by
  simp only [update, Heap.items, Array.getElem?_modify, if_true]
  split <;> simp [*]

end Heap

end Sprig
