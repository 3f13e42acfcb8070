import Sprig.Proofs.Value.Reach
import Sprig.Run.Element
import Sprig.Run.Operator

/-!
# Values whose arrays are moved

A value is moved when its array is found at another address. When the arrays of one heap are found
in another one, each with its items moved, then nothing that is made of values sees the difference:
texts, places, and operators, which also tell arrays apart if no two are moved to one address.
-/

namespace Sprig

/-- A value with its array at another address. -/
def Value.move (f : Address → Address) : Value → Value
  | .array a => .array (f a)
  | v => v

/-- Whether the arrays of a heap are found in another one, with their items moved. -/
def Heap.Moves (f : Address → Address) (heap other : Heap) : Prop :=
  ∀ a, other.items (f a) = (heap.items a).map (Value.move f)

namespace Value

variable {f : Address → Address} {heap other : Heap} {v w : Value}

@[simp] theorem kind_move (f : Address → Address) (v : Value) : (v.move f).kind = v.kind := by
  cases v <;> rfl

@[simp] theorem isTruthy_move (f : Address → Address) (v : Value) :
    (v.move f).isTruthy = v.isTruthy := by
  cases v <;> rfl

theorem move_eq_self (h : ∀ a, v = .array a → f a = a) : v.move f = v := by
  cases v with
  | array a => rw [move, h a rfl]
  | _ => rfl

theorem move_ofScalar (f : Address → Address) (value : Scalar) :
    (Value.ofScalar value).move f = .ofScalar value := by
  cases value <;> rfl

theorem move_headD (f : Address → Address) (args : List Value) :
    (args.map (move f)).headD .none = (args.headD .none).move f := by
  cases args <;> rfl

/-- Values are told apart as before if no two arrays are moved to one address. -/
theorem equals_move (hf : Function.Injective f) (v w : Value) :
    (v.move f).equals (w.move f) = v.equals w := by
  cases v <;> cases w <;> simp [move, equals, hf.eq_iff]

/-- A moved value has the same text. -/
theorem display?_move (h : heap.Moves f other) (allowance : Nat) (v : Value) :
    (v.move f).display? other allowance = v.display? heap allowance := by
  induction allowance generalizing v with
  | zero => cases v <;> rfl
  | succ allowance ih =>
      cases v with
      | array a =>
          have hmove : (display? other allowance) ∘ move f = display? heap allowance := funext ih
          rw [move, display?, display?, h a, Array.toList_map, List.mapM_map, hmove]
      | _ => rfl

theorem mapM_display?_move (h : heap.Moves f other) (allowance : Nat) (vs : List Value) :
    (vs.map (move f)).mapM (display? other allowance) = vs.mapM (display? heap allowance) := by
  have hmove : (display? other allowance) ∘ move f = display? heap allowance :=
    funext (display?_move h allowance)
  rw [List.mapM_map, hmove]

end Value

namespace Run

variable {f : Address → Address} {v l r : Value}

theorem lengthOf_map (f : Address → Address) (items : Array Value) :
    lengthOf (items.map (Value.move f)) = lengthOf items := by
  simp [lengthOf]

theorem placeIn_move (f : Address → Address) (items : Array Value) (index : Value) :
    placeIn (items.map (Value.move f)) (index.move f) = placeIn items index := by
  cases index <;> simp [placeIn, Value.move, Value.kind]

theorem applyUnary_move (f : Address → Address) (operator : Scalar) (v : Value) :
    applyUnary operator (v.move f) = applyUnary operator v := by
  cases v <;> simp [applyUnary, Value.move, Value.kind]

theorem applyArithmetic_move (f : Address → Address) (operator : Scalar) (l r : Value) :
    applyArithmetic operator (l.move f) (r.move f) = applyArithmetic operator l r := by
  cases l <;> cases r <;> simp [applyArithmetic, Value.move, Value.kind]

theorem joinsTexts_move (f : Address → Address) (operator : Scalar) (l r : Value) :
    joinsTexts operator (l.move f) (r.move f) = joinsTexts operator l r := by
  simp [joinsTexts]

theorem applyOrder_move (f : Address → Address) (operator : Scalar) (l r : Value) :
    applyOrder operator (l.move f) (r.move f) = applyOrder operator l r := by
  cases l <;> cases r <;> simp [applyOrder, Value.move, Value.kind]

theorem applyComparison_move (hf : Function.Injective f) (operator : Scalar) (l r : Value) :
    applyComparison operator (l.move f) (r.move f) = applyComparison operator l r := by
  simp only [applyComparison, Value.equals_move hf, applyOrder_move]

end Run

end Sprig
