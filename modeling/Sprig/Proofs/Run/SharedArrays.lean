import Sprig.Proofs.Run.Contract
import Sprig.Proofs.Run.Coupling
import Sprig.Proofs.Run.Operator

/-!
# Arrays of two runs side by side

Two runs that go side by side may differ in their variables, their functions and their traces, and
still have the same arrays. Then everything that is done to arrays and values goes side by side:
elements, methods and properties, and the operators. Faults of these kinds tell no name of a
variable or a function, so both runs fail with the same one.
-/

namespace Sprig

/-- Whether a fault tells no name of a variable or a function. -/
def Fault.IsNameless : Fault → Prop
  | undefinedVariable _ | undefinedFunction _ | notAnArray _ => False
  | _ => True

/-- A coupling under which both runs have the same arrays, make the same texts of values, and fail
with the same faults where no name is told. -/
structure Coupling.SharesArrays (C : Coupling) : Prop where
  read : ∀ {α : Type} (part : Heap → α),
    Run.Couples C Eq (Run.read fun s => part s.heap) (Run.read fun s => part s.heap)
  change : ∀ f : Heap → Heap,
    let update := Run.change fun s => { s with heap := f s.heap }
    Run.Couples C Eq update update
  display : ∀ v, Run.Couples C Eq (Run.display v) (Run.display v)
  displayAll : ∀ vs, Run.Couples C Eq (Run.displayAll vs) (Run.displayAll vs)
  faults : ∀ fault : Fault, fault.IsNameless → C.faults fault fault

namespace Run

section Nameless

variable {operator : Scalar} {left right v : Value} {fault : Fault}

theorem isNameless_of_placeIn {items : Array Value} {index : Value}
    (h : placeIn items index = .error fault) : fault.IsNameless := by
  rcases fault_of_placeIn h with ⟨-, rfl⟩ | ⟨x, rfl⟩ <;> trivial

theorem isNameless_of_applyUnary (h : applyUnary operator v = .error fault) :
    fault.IsNameless := by
  rcases fault_of_applyUnary h with ⟨-, rfl⟩ | ⟨-, rfl⟩ <;> trivial

theorem isNameless_of_applyArithmetic (h : applyArithmetic operator left right = .error fault) :
    fault.IsNameless := by
  rcases fault_of_applyArithmetic h with ⟨-, rfl⟩ | rfl | ⟨-, rfl⟩ <;> trivial

theorem isNameless_of_applyComparison (h : applyComparison operator left right = .error fault) :
    fault.IsNameless := by
  rcases fault_of_applyComparison h with ⟨-, -, -, rfl⟩ | rfl <;> trivial

end Nameless

end Run

namespace Coupling.SharesArrays

open Run

variable {C : Coupling} (hC : C.SharesArrays)
include hC

theorem itemsOf (address : Address) : Couples C Eq (Run.itemsOf address) (Run.itemsOf address) :=
  hC.read fun heap => heap.items address

theorem updateArray (address : Address) (f : Array Value → Array Value) :
    Couples C Eq (Run.updateArray address f) (Run.updateArray address f) :=
  hC.change fun heap => heap.update address f

theorem newArray (items : Array Value) :
    Couples C Eq (Run.newArray items) (Run.newArray items) :=
  couples_next (hC.read fun heap => (heap.allocate items).1) fun address =>
    couples_next (hC.change fun heap => (heap.allocate items).2) fun _ =>
      couples_pure (v := Value.array address) rfl

theorem fails {α : Type} {fault : Fault} (h : fault.IsNameless) :
    Couples C Eq (fail fault : Run α) (fail fault) :=
  couples_fail (hC.faults fault h)

theorem lifts {α : Type} {result : Except Fault α}
    (h : ∀ fault, result = .error fault → fault.IsNameless) :
    Couples C Eq (lift result) (lift result) :=
  couples_lift fun fault hfault => hC.faults fault (h fault hfault)

theorem checkIndex (address : Address) (index : Value) :
    Couples C Eq (Run.checkIndex address index) (Run.checkIndex address index) := by
  -- What is read is kept together with what its faults are.
  let place (heap : Heap) :
      { place : Except Fault Nat // ∀ fault, place = .error fault → fault.IsNameless } :=
    ⟨placeIn (heap.items address) index, fun _ => isNameless_of_placeIn⟩
  have hboth : Couples C Eq ((Run.read fun s => place s.heap) >>= fun found => lift found.1)
      ((Run.read fun s => place s.heap) >>= fun found => lift found.1) :=
    couples_next (hC.read place) fun found => hC.lifts found.2
  exact hboth

theorem elementAt (address : Address) (index : Value) :
    Couples C Eq (Run.elementAt address index) (Run.elementAt address index) :=
  couples_next (hC.checkIndex address index) fun place =>
    hC.read fun heap => ((heap.items address)[place]?).getD .none

theorem setElement (address : Address) (index v : Value) :
    Couples C Eq (Run.setElement address index v) (Run.setElement address index v) :=
  couples_next (hC.checkIndex address index) fun _ => hC.updateArray address _

theorem pushAll (address : Address) (args : List Value) :
    Couples C Eq (Run.pushAll address args) (Run.pushAll address args) := by
  apply couples_next (hC.updateArray address _)
  exact fun _ => couples_next (hC.itemsOf address) fun items => couples_pure rfl

theorem popLast (address : Address) :
    Couples C Eq (Run.popLast address) (Run.popLast address) := by
  apply couples_next (hC.read fun heap => (heap.items address).back?)
  exact fun last => couples_next (hC.updateArray address _) fun _ => couples_pure rfl

theorem joinItems (address : Address) (args : List Value) :
    Couples C Eq (Run.joinItems address args) (Run.joinItems address args) := by
  have hrest : ∀ separator : String, Couples C Eq
      (do
        let items ← Run.itemsOf address
        let texts ← Run.displayAll items.toList
        return .text (String.intercalate separator texts) : Run Value)
      (do
        let items ← Run.itemsOf address
        let texts ← Run.displayAll items.toList
        return .text (String.intercalate separator texts)) := by
    intro separator
    apply couples_next (hC.itemsOf address)
    exact fun items => couples_next (hC.displayAll _) fun texts => couples_pure rfl
  unfold Run.joinItems
  dsimp only
  split
  · exact couples_next (hC.display _) hrest
  · exact hrest _

theorem applyMethod (address : Address) (method : Scalar) (args : List Value) :
    Couples C Eq (Run.applyMethod address method args) (Run.applyMethod address method args) := by
  unfold Run.applyMethod
  split
  · exact hC.pushAll address args
  · split
    · exact hC.popLast address
    · split
      · exact hC.joinItems address args
      · exact hC.fails trivial

theorem applyProperty (address : Address) (property : Scalar) :
    Couples C Eq (Run.applyProperty address property) (Run.applyProperty address property) := by
  unfold Run.applyProperty
  split
  · exact couples_next (hC.itemsOf address) fun items => couples_pure rfl
  · exact hC.fails trivial

theorem applyBinary (operator : Scalar) (left right : Value) :
    Couples C Eq (Run.applyBinary operator left right) (Run.applyBinary operator left right) := by
  unfold Run.applyBinary
  split
  · apply couples_next (hC.display left)
    exact fun front => couples_next (hC.display right) fun back => couples_pure rfl
  · exact hC.lifts fun _ => isNameless_of_applyArithmetic

end Coupling.SharesArrays

end Sprig
