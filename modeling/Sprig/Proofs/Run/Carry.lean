import Sprig.Proofs.Run.Contract
import Sprig.Proofs.Run.Operator

/-!
# Values that variables and arrays carry

A contract carries a property of values when every value in a variable or in a cell of an array has
it as long as the contract holds. It encloses the property when this is so of the arrays that have
the property themselves. Then the operators and the operations on arrays meet the contract: they
make such values out of such values, and fail with the faults of the language only.
-/

namespace Sprig

namespace Fault

/-- The categories of the faults that a program with the shape of a text can run into. -/
def expectedCategories : List Category :=
  [.undefinedVariable, .undefinedFunction, .typeMismatch, .indexOutOfBounds, .divisionByZero,
    .unknownMethod, .recursionLimit]

/-- Whether a fault is one that a program with the shape of a text can run into. -/
def IsExpected (fault : Fault) : Prop :=
  ∃ category ∈ expectedCategories, fault.category? = some category

/-- The names, operators and methods that a fault tells. -/
def names : Fault → List Scalar
  | undefinedVariable name => [name]
  | undefinedFunction name => [name]
  | notAnArray name => [name]
  | operandsOf operator _ _ => [operator]
  | comparisonOf operator _ _ => [operator]
  | unknownOperator _ operator => [operator]
  | unknownMethod method => [method]
  | unknownProperty property => [property]
  | _ => []

end Fault

/-- A contract under which the variables and the cells of arrays carry values of a property. -/
structure Contract.Carries (C : Contract) (V : Value → Prop) : Prop where
  none : V .none
  boolean : ∀ b, V (.boolean b)
  number : ∀ x, V (.number x)
  text : ∀ s, V (.text s)
  array : ∀ address, V (.array address)
  /-- The faults of the language are allowed. -/
  expected : ∀ fault : Fault, fault.IsExpected → C.allows fault
  bound : ∀ {s name v}, C.holds s → s.bindings.get? name = some v → V v
  item : ∀ {s address v}, C.holds s → v ∈ s.heap.items address → V v
  allocate : ∀ {s items}, C.holds s → (∀ v ∈ items, V v) →
    C.holds { s with heap := (s.heap.allocate items).2 }
  update : ∀ {s address f}, C.holds s → (∀ v ∈ f (s.heap.items address), V v) →
    C.holds { s with heap := s.heap.update address f }

/-- A contract under which nothing leads out of a property: the variables, and the cells of arrays
that have it, hold values of it. The names that faults tell may have a property of their own. -/
structure Contract.Encloses (C : Contract) (V : Value → Prop)
    (N : Scalar → Prop := fun _ => True) : Prop where
  none : V .none
  boolean : ∀ b, V (.boolean b)
  number : ∀ x, V (.number x)
  text : ∀ s, V (.text s)
  /-- The faults of the language are allowed. -/
  expected : ∀ fault : Fault, fault.IsExpected → (∀ name ∈ fault.names, N name) → C.allows fault
  bound : ∀ {s name v}, C.holds s → s.bindings.get? name = some v → V v
  item : ∀ {s address v}, C.holds s → V (.array address) → v ∈ s.heap.items address → V v
  update : ∀ {s address f}, C.holds s → V (.array address) →
    (∀ v ∈ f (s.heap.items address), V v) → C.holds { s with heap := s.heap.update address f }

theorem Contract.Carries.encloses {C : Contract} {V : Value → Prop} (h : C.Carries V) :
    C.Encloses V where
  none := h.none
  boolean := h.boolean
  number := h.number
  text := h.text
  expected fault hfault _ := h.expected fault hfault
  bound := h.bound
  item hs _ := h.item hs
  update hs _ := h.update hs

namespace Run

variable {C : Contract} {V : Value → Prop}

/-- Looking at an array changes nothing. -/
theorem meets_itemsOf (address : Address) : Meets C (fun _ => True) (itemsOf address) :=
  meets_read fun _ _ => trivial

/-- An array is as good as any under a contract that carries a property. -/
theorem meets_newArray (hC : C.Carries V) {items : Array Value} (h : ∀ v ∈ items, V v) :
    Meets C V (newArray items) :=
  fun _ _ hs => ⟨hC.array _, hC.allocate hs h⟩

section Enclosed

variable {N : Scalar → Prop} (hC : C.Encloses V N)
include hC

theorem allows_of_category {fault : Fault} {category : Fault.Category}
    (h : fault.category? = some category) (hmem : category ∈ Fault.expectedCategories)
    (hnames : ∀ name ∈ fault.names, N name := by simp [Fault.names]) : C.allows fault :=
  hC.expected fault ⟨category, hmem, h⟩ hnames

/-- Working on a node may go too deep. -/
theorem meets_node {α : Type} {P : α → Prop} {kind : NodeKind} {work : Run α}
    (h : Meets C P work) : Meets C P (nested kind work) :=
  meets_nested (fun _ => allows_of_category hC rfl (by decide)) h

theorem meets_text (v : Value) : Meets C (fun _ => True) (display v) :=
  meets_display (allows_of_category hC rfl (by decide)) v

theorem meets_texts (vs : List Value) : Meets C (fun _ => True) (displayAll vs) :=
  meets_displayAll (allows_of_category hC rfl (by decide)) vs

/-- Noting an event that shows a value may only fail because the text is too deep. -/
theorem meets_noteText (level : Nat) (v : Value) (event : String → Event) :
    Meets C (fun _ => True) (note level (do return event (← display v))) :=
  meets_note (meets_bind (meets_text hC v) fun _ _ => meets_pure trivial)

theorem meets_noteTexts (level : Nat) (vs : List Value) (event : List String → Event) :
    Meets C (fun _ => True) (note level (do return event (← displayAll vs))) :=
  meets_note (meets_bind (meets_texts hC vs) fun _ _ => meets_pure trivial)

theorem meets_lookup (name : Scalar) (hname : N name := by trivial) :
    Meets C V (lookup name) := by
  refine meets_bind (P := fun v? => ∀ v, v? = some v → V v) ?_ ?_
  · exact meets_read fun s hs v hv => hC.bound hs hv
  · intro v? hv?
    cases v? with
    | none => exact meets_fail (allows_of_category hC rfl (by decide) (by simpa [Fault.names]))
    | some v => exact meets_pure (hv? v rfl)

theorem meets_lookupArray (name : Scalar) (hname : N name := by trivial) :
    Meets C (fun address => V (.array address)) (lookupArray name) := by
  refine meets_bind (meets_lookup hC name hname) ?_
  intro v hv
  cases v with
  | array address => exact meets_pure hv
  | _ => exact meets_fail (allows_of_category hC rfl (by decide) (by simpa [Fault.names]))

theorem meets_checkIndex (address : Address) (index : Value) :
    Meets C (fun _ => True) (checkIndex address index) := by
  refine meets_bind (P := fun place => ∀ fault, place = .error fault → C.allows fault) ?_ ?_
  · refine meets_read fun s _ fault hplace => ?_
    rcases fault_of_placeIn hplace with ⟨-, rfl⟩ | ⟨x, rfl⟩ <;>
      exact allows_of_category hC rfl (by decide)
  · intro place hplace
    exact meets_lift (fun _ _ => trivial) hplace

theorem meets_elementAt {address : Address} (h : V (.array address)) (index : Value) :
    Meets C V (elementAt address index) := by
  refine meets_bind (meets_checkIndex hC address index) ?_
  intro place _
  refine meets_read fun s hs => ?_
  cases hitem : (s.heap.items address)[place]? with
  | none => exact hC.none
  | some v => exact hC.item hs h (Array.mem_of_getElem? hitem)

theorem meets_setElement {address : Address} (h : V (.array address)) (index : Value) {v : Value}
    (hv : V v) : Meets C (fun _ => True) (setElement address index v) := by
  refine meets_bind (meets_checkIndex hC address index) ?_
  intro place _
  refine meets_change fun s hs => hC.update hs h ?_
  intro w hw
  rcases Array.mem_or_eq_of_mem_setIfInBounds hw with hw | rfl
  · exact hC.item hs h hw
  · exact hv

theorem meets_pushAll {address : Address} (h : V (.array address)) {args : List Value}
    (hargs : ∀ v ∈ args, V v) : Meets C V (pushAll address args) := by
  refine meets_bind (P := fun _ => True) ?_ ?_
  · refine meets_change fun s hs => hC.update hs h ?_
    intro w hw
    rcases Array.mem_append.mp hw with hw | hw
    · exact hC.item hs h hw
    · exact hargs w (by simpa using hw)
  · intro _ _
    refine meets_bind (meets_itemsOf address) ?_
    intro items _
    exact meets_pure (hC.number _)

theorem meets_popLast {address : Address} (h : V (.array address)) :
    Meets C V (popLast address) := by
  refine meets_bind (P := fun last => V (last.getD .none)) ?_ ?_
  · refine meets_read fun s hs => ?_
    cases hlast : (s.heap.items address).back? with
    | none => exact hC.none
    | some v => exact hC.item hs h (Array.mem_of_back? hlast)
  · intro last hlast
    refine meets_bind (P := fun _ => True) ?_ (fun _ _ => meets_pure hlast)
    refine meets_change fun s hs => hC.update hs h ?_
    intro w hw
    have hmem : w ∈ (s.heap.items address).toList.dropLast := by
      simpa using Array.mem_def.mp hw
    exact hC.item hs h (Array.mem_def.mpr ((List.dropLast_sublist _).subset hmem))

theorem meets_joinItems (address : Address) (args : List Value) :
    Meets C V (joinItems address args) := by
  have hrest : ∀ separator, Meets C V (do
      let items ← itemsOf address
      let texts ← displayAll items.toList
      return .text (String.intercalate separator texts)) := by
    intro separator
    apply meets_bind (meets_itemsOf address)
    intro items _
    apply meets_bind (meets_texts hC _)
    intro texts _
    exact meets_pure (hC.text _)
  unfold joinItems
  dsimp only
  split
  · exact meets_bind (meets_text hC _) fun separator _ => hrest separator
  · exact hrest ","

/-- The methods of arrays give and store values as the variables and arrays carry them. -/
theorem meets_applyMethod {address : Address} (h : V (.array address)) (method : Scalar)
    {args : List Value} (hargs : ∀ v ∈ args, V v) (hmethod : N method := by trivial) :
    Meets C V (applyMethod address method args) := by
  unfold applyMethod
  split
  · exact meets_pushAll hC h hargs
  · split
    · exact meets_popLast hC h
    · split
      · exact meets_joinItems hC address args
      · exact meets_fail (allows_of_category hC rfl (by decide) (by simpa [Fault.names]))

theorem meets_applyBinary {operator : Scalar} {left right : Value}
    (h : ∀ fault, applyArithmetic operator left right = .error fault → C.allows fault) :
    Meets C V (applyBinary operator left right) := by
  unfold applyBinary
  split
  · apply meets_bind (meets_text hC left)
    intro front _
    apply meets_bind (meets_text hC right)
    intro back _
    exact meets_pure (hC.text _)
  · refine meets_lift (fun v hv => ?_) h
    obtain ⟨z, rfl⟩ := exists_number_of_applyArithmetic hv
    exact hC.number z

end Enclosed

end Run

end Sprig
