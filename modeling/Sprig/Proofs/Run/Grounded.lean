import Sprig.Proofs.Run.Easing
import Sprig.Proofs.Run.Scope
import Sprig.Proofs.Run.Visit
import Sprig.Proofs.Value.Reach
import Sprig.Run.Program

/-!
# Addresses in use

A state is grounded when every array that a variable or a cell holds is there. A run starts that way
and goes on that way: nothing takes an array away, and the only new address is that of an array that
was just made. So every value that a run comes to is grounded too.

## Implementation notes

The arrays that are there become more while a run goes on, so what is known of a value is known for
all larger heaps. A step is given the number of arrays for which its arguments are known, and ends
with one for which its value is.
-/

namespace Sprig

/-- Whether a value is no array but one of the first ones. -/
def Value.Below (size : Nat) (v : Value) : Prop := v.Within (· < size)

theorem Value.Below.mono {v : Value} {size more : Nat} (h : v.Below size) (hle : size ≤ more) :
    v.Below more := fun a ha => Nat.lt_of_lt_of_le (h a ha) hle

/-- Whether the arguments of a job that are still to be bound are no arrays but the first ones. -/
def Job.IsBelow (size : Nat) : Job → Prop
  | .parameters _ args => ∀ v ∈ args, v.Below size
  | _ => True

/-- Whether all arrays that variables and cells hold are there. -/
structure State.Grounded (s : State) : Prop where
  bound : ∀ name v, s.bindings.get? name = some v → v.Below s.heap.arrays.size
  cell : ∀ a, ∀ v ∈ s.heap.items a, v.Below s.heap.arrays.size

namespace State.Grounded

variable {s : State} {a : Address}

theorem start : State.start.Grounded where
  bound name v hv := by cases hv
  cell a v hv := by simp [State.start, Heap.empty, Heap.items] at hv

theorem size_allocate (heap : Heap) (items : Array Value) :
    (heap.allocate items).2.arrays.size = heap.arrays.size + 1 := by
  simp [Heap.allocate]

theorem allocate {items : Array Value} (h : s.Grounded)
    (hitems : ∀ v ∈ items, v.Below s.heap.arrays.size) :
    State.Grounded { s with heap := (s.heap.allocate items).2 } where
  bound name v hv := (h.bound name v hv).mono (by simp [size_allocate])
  cell a v hv := by
    rw [Heap.items_push] at hv
    suffices hbelow : v.Below s.heap.arrays.size from hbelow.mono (by simp [size_allocate])
    split at hv
    · exact hitems v hv
    · exact h.cell a v hv

theorem update {f : Array Value → Array Value} (h : s.Grounded)
    (hf : ∀ v ∈ f (s.heap.items a), v.Below s.heap.arrays.size) :
    State.Grounded { s with heap := s.heap.update a f } where
  bound name v hv := (h.bound name v hv).mono (by simp [Heap.update])
  cell b v hv := by
    suffices hbelow : v.Below s.heap.arrays.size from hbelow.mono (by simp [Heap.update])
    by_cases hab : a = b
    · subst hab
      rw [Heap.items_update_self] at hv
      split at hv
      · exact hf v hv
      · simp at hv
    · rw [Heap.items_update_of_ne _ hab] at hv
      exact h.cell b v hv

theorem bind {table : Table Value} (h : s.Grounded)
    (htable : ∀ name v, table.get? name = some v → v.Below s.heap.arrays.size) :
    State.Grounded { s with bindings := table } where
  bound := htable
  cell := h.cell

end State.Grounded

namespace Run

/-- States with at least some arrays stay grounded. -/
def grounded (size : Nat) : Contract where
  holds s := s.Grounded ∧ size ≤ s.heap.arrays.size
  stops s := s.Grounded ∧ size ≤ s.heap.arrays.size
  allows _ := True
  stops_of_holds h := h
  holds_of_same _ _ hbindings _ hheap h :=
    ⟨⟨hheap ▸ hbindings ▸ h.1.bound, hheap ▸ h.1.cell⟩, hheap ▸ h.2⟩
  stops_of_same _ _ hbindings _ hheap h :=
    ⟨⟨hheap ▸ hbindings ▸ h.1.bound, hheap ▸ h.1.cell⟩, hheap ▸ h.2⟩

variable {α β : Type} {size more : Nat} {P : Nat → α → Prop} {Q : Nat → β → Prop} {v : Value}
  {address : Address}

/-- Whether a step, begun with at least some arrays, keeps states grounded and ends with at least
some arrays for which its value has a property. -/
def Grounds (size : Nat) (P : Nat → α → Prop) (run : Run α) : Prop :=
  ∀ limits s, (grounded size).holds s →
    ∃ more, size ≤ more ∧ (run limits s).Meets (grounded more) (P more)

section Steps

/-- A step whose value is known for the arrays that are there at its start. -/
theorem grounds_of_meets {run : Run α} (h : Meets (grounded size) (P size) run) :
    Grounds size P run :=
  fun limits s hs => ⟨size, Nat.le_refl _, h limits s hs⟩

theorem grounds_pure {a : α} (h : P size a) : Grounds size P (pure a) :=
  grounds_of_meets (meets_pure h)

theorem grounds_fail (fault : Fault) : Grounds size P (fail fault) :=
  grounds_of_meets (meets_fail trivial)

theorem grounds_bind {first : Run α} {next : α → Run β} (h : Grounds size P first)
    (hnext : ∀ more a, size ≤ more → P more a → Grounds more Q (next a)) :
    Grounds size Q (first >>= next) := by
  intro limits s hs
  obtain ⟨more, hle, hfirst⟩ := h limits s hs
  rw [bind_apply]
  cases hout : first limits s with
  | done a mid =>
      rw [hout] at hfirst
      obtain ⟨most, hmost, hrest⟩ := hnext more a hle hfirst.1 limits mid hfirst.2
      exact ⟨most, Nat.le_trans hle hmost, hrest⟩
  | failed fault after =>
      rw [hout] at hfirst
      exact ⟨more, hle, hfirst⟩
  | outOfFuel after =>
      rw [hout] at hfirst
      exact ⟨more, hle, hfirst⟩

/-- A step whose value does not matter comes first. -/
theorem grounds_next {first : Run α} {next : α → Run β}
    (h : Grounds size (fun _ _ => True) first)
    (hnext : ∀ more a, size ≤ more → Grounds more Q (next a)) :
    Grounds size Q (first >>= next) :=
  grounds_bind h fun more a hle _ => hnext more a hle

theorem meets_leave {outcome : Outcome α} {R : α → Prop} (h : outcome.Meets (grounded size) R) :
    (leave outcome).Meets (grounded size) R := by
  have hsame : ∀ {t : State}, (grounded size).holds t →
      (grounded size).holds { t with depth := t.depth - 1 } :=
    fun {t} ht => (grounded size).holds_of_same t rfl rfl rfl ht
  cases outcome with
  | done a after => exact ⟨h.1, hsame h.2⟩
  | failed fault after => exact ⟨h.1, hsame h.2⟩
  | outOfFuel after => exact h

theorem grounds_nested (kind : NodeKind) {work : Run α} (h : Grounds size P work) :
    Grounds size P (nested kind work) := by
  intro limits s hs
  rw [nested_apply]
  split
  · exact ⟨size, Nat.le_refl _, trivial, hs⟩
  · have hinside := (grounded size).holds_of_same s (t := { s with depth := s.depth + 1 })
      rfl rfl rfl hs
    obtain ⟨more, hle, hwork⟩ := h limits _ hinside
    exact ⟨more, hle, meets_leave hwork⟩

/-- A step that looks at the state gives what is known for the arrays that are there. -/
theorem grounds_read {part : State → α} (h : ∀ s, s.Grounded → P s.heap.arrays.size (part s)) :
    Grounds size P (read part) :=
  fun _ s hs => ⟨s.heap.arrays.size, hs.2, h s hs.1, hs.1, Nat.le_refl _⟩

theorem grounds_change {f : State → State}
    (h : ∀ s, (grounded size).holds s → (grounded size).holds (f s)) :
    Grounds size (fun _ _ => True) (change f) :=
  grounds_of_meets (meets_change h)

theorem grounds_note (level : Nat) {event : Run Event}
    (h : Meets (grounded size) (fun _ => True) event) :
    Grounds size (fun _ _ => True) (note level event) :=
  grounds_of_meets (meets_note h)

theorem grounds_noteText (level : Nat) (v : Value) (event : String → Event) :
    Grounds size (fun _ _ => True) (note level (do return event (← display v))) :=
  grounds_note level (meets_bind (meets_display trivial v) fun _ _ => meets_pure trivial)

theorem grounds_scalarPart (tree : Tree) : Grounds size (fun _ _ => True) (scalarPart tree) := by
  cases tree with
  | scalar value => exact grounds_pure trivial
  | _ => exact grounds_fail _

theorem grounds_listPart (tree : Tree) : Grounds size (fun _ _ => True) (listPart tree) := by
  unfold listPart
  split
  · exact grounds_pure trivial
  · exact grounds_fail _

end Steps

section Values

theorem below_number (x : Float) : (Value.number x).Below size := fun _ ha => by cases ha

theorem below_text (s : String) : (Value.text s).Below size := fun _ ha => by cases ha

theorem below_none : Value.none.Below size := fun _ ha => by cases ha

theorem below_ofScalar (value : Scalar) : (Value.ofScalar value).Below size := by
  intro a ha
  cases value <;> cases ha

theorem below_headD {args : List Value} (h : ∀ v ∈ args, v.Below size) :
    (args.headD .none).Below size := by
  cases args with
  | nil => exact below_none
  | cons v args => exact h v (by simp)

theorem grounds_lookup (name : Scalar) : Grounds size Value.Below (lookup name) := by
  refine grounds_bind (P := fun more v? => ∀ v, v? = some v → v.Below more) ?_ ?_
  · exact grounds_read fun s hs v hv => hs.bound name v hv
  · intro more v? _ hv?
    cases v? with
    | none => exact grounds_fail _
    | some v => exact grounds_pure (hv? v rfl)

theorem grounds_lookupArray (name : Scalar) :
    Grounds size (fun _ _ => True) (lookupArray name) := by
  refine grounds_bind (grounds_lookup name) fun more v _ _ => ?_
  cases v with
  | array address => exact grounds_pure trivial
  | _ => exact grounds_fail _

theorem grounds_lift {result : Except Fault α} (h : ∀ a, result = .ok a → P size a) :
    Grounds size P (lift result) := by
  cases result with
  | ok a => exact grounds_pure (h a rfl)
  | error fault => exact grounds_fail fault

theorem grounds_applyBinary (operator : Scalar) (left right : Value) :
    Grounds size Value.Below (applyBinary operator left right) := by
  unfold applyBinary
  split
  · exact grounds_of_meets (meets_bind (meets_display trivial left) fun _ _ =>
      meets_bind (meets_display trivial right) fun _ _ => meets_pure (below_text _))
  · refine grounds_lift fun v hv => ?_
    obtain ⟨x, rfl⟩ := exists_number_of_applyArithmetic hv
    exact below_number x

end Values

section Variables

theorem grounds_assign (name : Scalar) (hv : v.Below size) :
    Grounds size (fun _ _ => True) (assign name v) := by
  refine grounds_change fun s hs => ⟨hs.1.bind fun other w hw => ?_, hs.2⟩
  rw [Table.get?_set] at hw
  split at hw
  · exact Option.some.inj hw ▸ hv.mono hs.2
  · exact hs.1.bound other w hw

theorem grounds_restore {kept : Table Value}
    (h : ∀ name v, kept.get? name = some v → v.Below size) :
    Grounds size (fun _ _ => True) (change fun s => { s with bindings := kept }) :=
  grounds_change fun _ hs => ⟨hs.1.bind fun name v hv => (h name v hv).mono hs.2, hs.2⟩

theorem grounds_declare (name : Scalar) (function : Function) :
    Grounds size (fun _ _ => True)
      (change fun s => { s with functions := s.functions.set name function }) :=
  grounds_change fun _ hs => ⟨⟨hs.1.bound, hs.1.cell⟩, hs.2⟩

theorem grounds_bindAll (params : List Tree) {args : List Value}
    (h : ∀ v ∈ args, v.Below size) :
    Grounds size (fun _ _ => True) (bindAll params args) := by
  induction params generalizing args size with
  | nil => exact grounds_pure trivial
  | cons param params ih =>
      refine grounds_next (grounds_scalarPart param) fun some name hsome => ?_
      refine grounds_next (grounds_assign name ((below_headD h).mono hsome)) fun more _ hmore => ?_
      refine grounds_next (grounds_noteText 2 _ _) fun most _ hmost => ih fun v hv => ?_
      exact (h v (List.mem_of_mem_tail hv)).mono
        (Nat.le_trans hsome (Nat.le_trans hmore hmost))

end Variables

section Arrays

theorem grounds_newArray {items : Array Value} (h : ∀ v ∈ items, v.Below size) :
    Grounds size Value.Below (newArray items) := by
  intro limits s hs
  have hsize := State.Grounded.size_allocate s.heap items
  refine ⟨s.heap.arrays.size + 1, Nat.le_succ_of_le hs.2, ?_, ?_, Nat.le_of_eq hsize.symm⟩
  · intro a ha
    obtain rfl := Value.array.inj ha
    exact Nat.lt_succ_self _
  · exact hs.1.allocate fun v hv => (h v hv).mono hs.2

theorem grounds_updateArray {f : Array Value → Array Value}
    (h : ∀ s : State, (grounded size).holds s → ∀ v ∈ f (s.heap.items address),
      v.Below s.heap.arrays.size) :
    Grounds size (fun _ _ => True) (updateArray address f) :=
  grounds_change fun s hs => ⟨hs.1.update (h s hs), by simpa [Heap.update] using hs.2⟩

theorem meets_place (address : Address) (index : Value) :
    Meets (grounded size) (fun _ => True) (checkIndex address index) :=
  meets_bind (meets_read (P := fun _ => True) fun _ _ => trivial) fun _ _ =>
    meets_lift (fun _ _ => trivial) fun _ _ => trivial

theorem grounds_elementAt (address : Address) (index : Value) :
    Grounds size Value.Below (elementAt address index) := by
  refine grounds_next (grounds_of_meets (meets_place address index)) fun more place _ => ?_
  refine grounds_read fun s hs => ?_
  cases hitem : (s.heap.items address)[place]? with
  | none => exact below_none
  | some v => exact hs.cell address v (Array.mem_of_getElem? hitem)

theorem grounds_setElement (address : Address) (index : Value) (hv : v.Below size) :
    Grounds size (fun _ _ => True) (setElement address index v) := by
  refine grounds_next (grounds_of_meets (meets_place address index)) fun more place hle => ?_
  refine grounds_updateArray fun s hs w hw => ?_
  rcases Array.mem_or_eq_of_mem_setIfInBounds hw with hw | rfl
  · exact hs.1.cell address w hw
  · exact hv.mono (Nat.le_trans hle hs.2)

theorem grounds_pushAll (address : Address) {args : List Value} (h : ∀ v ∈ args, v.Below size) :
    Grounds size Value.Below (pushAll address args) := by
  refine grounds_next (grounds_updateArray fun s hs w hw => ?_) fun more _ _ => ?_
  · rcases Array.mem_append.mp hw with hw | hw
    · exact hs.1.cell address w hw
    · exact (h w (by simpa using hw)).mono hs.2
  · exact grounds_of_meets (meets_bind (meets_read (P := fun _ => True) fun _ _ => trivial)
      fun _ _ => meets_pure (below_number _))

theorem grounds_popLast (address : Address) : Grounds size Value.Below (popLast address) := by
  refine grounds_bind (P := fun more last => (last.getD .none).Below more) ?_ ?_
  · refine grounds_read fun s hs => ?_
    cases hlast : (s.heap.items address).back? with
    | none => exact below_none
    | some v => exact hs.cell address v (Array.mem_of_back? hlast)
  · intro more last _ hlast
    refine grounds_bind (P := fun most _ => (last.getD .none).Below most) ?_
      fun most _ _ hmost => grounds_pure hmost
    intro limits s hs
    have hsize : more ≤ (s.heap.update address (·.pop)).arrays.size := by
      simpa [Heap.update] using hs.2
    refine ⟨more, Nat.le_refl _, hlast, hs.1.update fun w hw => ?_, hsize⟩
    have hmem : w ∈ (s.heap.items address).toList.dropLast := by
      simpa using Array.mem_def.mp hw
    exact hs.1.cell address w (Array.mem_def.mpr ((List.dropLast_sublist _).subset hmem))

theorem grounds_joinItems (address : Address) (args : List Value) :
    Grounds size Value.Below (joinItems address args) := by
  have hrest : ∀ separator, Meets (grounded size) (Value.Below size) (do
      let items ← itemsOf address
      let texts ← displayAll items.toList
      return .text (String.intercalate separator texts)) := fun separator =>
    meets_bind (meets_read (P := fun _ => True) fun _ _ => trivial) fun _ _ =>
      meets_bind (meets_displayAll trivial _) fun _ _ => meets_pure (below_text _)
  unfold joinItems
  dsimp only
  split
  · exact grounds_of_meets (meets_bind (meets_display trivial _) fun _ _ => hrest _)
  · exact grounds_of_meets (hrest ",")

theorem grounds_applyMethod (address : Address) (method : Scalar) {args : List Value}
    (h : ∀ v ∈ args, v.Below size) :
    Grounds size Value.Below (applyMethod address method args) := by
  unfold applyMethod
  split
  · exact grounds_pushAll address h
  · split
    · exact grounds_popLast address
    · split
      · exact grounds_joinItems address args
      · exact grounds_fail _

theorem grounds_applyProperty (address : Address) (property : Scalar) :
    Grounds size Value.Below (applyProperty address property) := by
  unfold applyProperty
  split
  · exact grounds_of_meets (meets_bind (meets_read (P := fun _ => True) fun _ _ => trivial)
      fun _ _ => meets_pure (below_number _))
  · exact grounds_fail _

end Arrays

section Sequences

variable {statement : Tree → Run Completion} {value : Tree → Run Value} {last : Completion}

theorem grounds_values (h : ∀ more tree, Grounds more Value.Below (value tree))
    (trees : List Tree) :
    Grounds size (fun more vs => ∀ v ∈ vs, v.Below more) (values value trees) := by
  induction trees generalizing size with
  | nil => exact grounds_pure (by simp)
  | cons tree trees ih =>
      refine grounds_bind (h size tree) fun more v _ hv => ?_
      refine grounds_bind ih fun most vs hle hvs => grounds_pure ?_
      exact List.forall_mem_cons.mpr ⟨hv.mono hle, hvs⟩

theorem grounds_block
    (h : ∀ more tree, Grounds more (fun most last => last.value.Below most) (statement tree))
    (hlast : last.value.Below size) (trees : List Tree) :
    Grounds size (fun more last => last.value.Below more) (block statement last trees) := by
  induction trees generalizing size last with
  | nil => exact grounds_pure hlast
  | cons tree trees ih =>
      refine grounds_bind (h size tree) fun more last _ hlast => ?_
      split
      · exact grounds_pure hlast
      · exact ih hlast

theorem grounds_repeatWhile {test : Run Bool} {body : Run Completion}
    (htest : ∀ more, Grounds more (fun _ _ => True) test)
    (hbody : ∀ more, Grounds more (fun most last => last.value.Below most) body) (fuel : Nat)
    (hlast : last.value.Below size) :
    Grounds size (fun more last => last.value.Below more) (repeatWhile test body fuel last) := by
  induction fuel generalizing size last with
  | zero => exact grounds_of_meets meets_spent
  | succ fuel ih =>
      refine grounds_next (htest size) fun more again hle => ?_
      split
      · refine grounds_bind (hbody more) fun most last _ hlast => ?_
        split
        · exact grounds_pure hlast
        · exact ih hlast
      · exact grounds_pure (hlast.mono hle)

end Sequences

/-- Whether the interpreter with some fuel keeps states grounded. -/
structure Grounding (fuel : Nat) : Prop where
  evaluate (size : Nat) (tree : Tree) : Grounds size Value.Below (evaluate fuel tree)
  callMethod (size : Nat) (array method args : Tree) :
    Grounds size Value.Below (callMethod fuel array method args)
  execute (size : Nat) (tree : Tree) :
    Grounds size (fun more last => last.value.Below more) (execute fuel tree)

section Step

variable {fuel : Nat}

theorem Grounding.block (h : Grounding fuel) (size : Nat) (body : Tree) :
    Grounds size (fun more last => last.value.Below more)
      (do Run.block (Run.execute fuel) (plain .none) (← listPart body)) :=
  grounds_next (grounds_listPart body) fun _ trees _ => grounds_block h.execute below_none trees

theorem grounds_call (h : Grounding fuel) (size : Nat) (name args : Tree) :
    Grounds size Value.Below (evaluate (fuel + 1) (.call name args)) := by
  simp only [evaluate]
  refine grounds_nested _ (grounds_next (grounds_scalarPart name) fun a name _ => ?_)
  refine grounds_next (grounds_read fun _ _ => trivial) fun b function? _ => ?_
  cases function? with
  | none => exact grounds_fail _
  | some function =>
      refine grounds_next (grounds_listPart args) fun c trees _ => ?_
      refine grounds_bind (grounds_values h.evaluate trees) fun d vs _ hvs => ?_
      refine grounds_next (grounds_note 1 (meets_bind (meets_displayAll trivial vs)
        fun _ _ => meets_pure trivial)) fun e _ hde => ?_
      refine grounds_bind (P := fun more kept => ∀ name v, kept.get? name = some v →
        v.Below more) (grounds_read fun s hs => hs.bound) fun f kept hef hkept => ?_
      refine grounds_next (grounds_listPart function.params) fun g params hfg => ?_
      refine grounds_next (grounds_bindAll params fun v hv => (hvs v hv).mono
        (Nat.le_trans hde (Nat.le_trans hef hfg))) fun i _ hgi => ?_
      refine grounds_next (grounds_listPart function.body) fun j body hij => ?_
      refine grounds_bind (grounds_block h.execute below_none body) fun k last hjk hlast => ?_
      have hfk := Nat.le_trans hfg (Nat.le_trans hgi (Nat.le_trans hij hjk))
      refine grounds_next (grounds_restore fun name v hv => (hkept name v hv).mono hfk)
        fun l _ hkl => ?_
      refine grounds_next (grounds_noteText 1 last.value _) fun m _ hlm => grounds_pure ?_
      exact hlast.mono (Nat.le_trans hkl hlm)

theorem grounds_callMethod (h : Grounding fuel) (size : Nat) (array method args : Tree) :
    Grounds size Value.Below (callMethod (fuel + 1) array method args) := by
  simp only [callMethod]
  refine grounds_next (grounds_scalarPart array) fun a array _ => ?_
  refine grounds_next (grounds_lookupArray array) fun b address _ => ?_
  refine grounds_next (grounds_listPart args) fun c trees _ => ?_
  refine grounds_bind (grounds_values h.evaluate trees) fun d vs _ hvs => ?_
  refine grounds_next (grounds_scalarPart method) fun e method hde => ?_
  refine grounds_bind (grounds_applyMethod address method fun v hv => (hvs v hv).mono hde)
    fun f v _ hv => ?_
  exact grounds_next (grounds_noteText 3 v _) fun g _ hfg => grounds_pure (hv.mono hfg)

theorem grounds_evaluate (h : Grounding fuel) (size : Nat) (tree : Tree) :
    Grounds size Value.Below (evaluate (fuel + 1) tree) := by
  cases tree with
  | number value | string value | boolean value =>
      simp only [evaluate]
      exact grounds_nested _ (grounds_next (grounds_scalarPart value) fun _ value _ =>
        grounds_pure (below_ofScalar value))
  | «variable» name =>
      simp only [evaluate]
      exact grounds_nested _ (grounds_next (grounds_scalarPart name) fun _ name _ =>
        grounds_lookup name)
  | unary operator operand =>
      simp only [evaluate]
      refine grounds_nested _ (grounds_bind (h.evaluate size operand) fun _ v _ _ => ?_)
      refine grounds_next (grounds_scalarPart operator) fun _ operator _ => ?_
      refine grounds_lift fun w hw => ?_
      obtain ⟨x, rfl⟩ := exists_number_of_applyUnary hw
      exact below_number x
  | binary operator left right =>
      simp only [evaluate]
      refine grounds_nested _ (grounds_bind (h.evaluate size left) fun a l _ _ => ?_)
      refine grounds_bind (h.evaluate a right) fun b r _ _ => ?_
      exact grounds_next (grounds_scalarPart operator) fun _ operator _ =>
        grounds_applyBinary operator l r
  | comparison operator left right =>
      simp only [evaluate]
      refine grounds_nested _ (grounds_bind (h.evaluate size left) fun a l _ _ => ?_)
      refine grounds_bind (h.evaluate a right) fun b r _ _ => ?_
      refine grounds_next (grounds_scalarPart operator) fun _ operator _ => ?_
      refine grounds_lift fun w hw => ?_
      obtain ⟨holds, rfl⟩ := exists_boolean_of_applyComparison hw
      exact fun _ ha => by cases ha
  | arrayLiteral elements =>
      simp only [evaluate]
      refine grounds_nested _ (grounds_next (grounds_listPart elements) fun a trees _ => ?_)
      refine grounds_bind (grounds_values h.evaluate trees) fun b vs _ hvs => ?_
      exact grounds_newArray (by simpa using hvs)
  | elementAccess array index =>
      simp only [evaluate]
      refine grounds_nested _ (grounds_next (grounds_scalarPart array) fun a array _ => ?_)
      refine grounds_next (grounds_lookupArray array) fun b address _ => ?_
      exact grounds_bind (h.evaluate b index) fun _ index _ _ => grounds_elementAt address index
  | methodExpression array method args =>
      simp only [evaluate]
      exact grounds_nested _ (h.callMethod size array method args)
  | arrayProperty array property =>
      simp only [evaluate]
      refine grounds_nested _ (grounds_next (grounds_scalarPart array) fun a array _ => ?_)
      refine grounds_next (grounds_lookupArray array) fun b address _ => ?_
      exact grounds_next (grounds_scalarPart property) fun _ property _ =>
        grounds_applyProperty address property
  | call name args => exact grounds_call h size name args
  | _ =>
      simp only [evaluate]
      exact grounds_fail _

theorem grounds_execute (h : Grounding fuel) (size : Nat) (tree : Tree) :
    Grounds size (fun more last => last.value.Below more) (execute (fuel + 1) tree) := by
  cases tree with
  | assignment name value =>
      simp only [execute]
      refine grounds_nested _ (grounds_bind (h.evaluate size value) fun a v _ hv => ?_)
      refine grounds_next (grounds_scalarPart name) fun b name hab => ?_
      refine grounds_next (grounds_assign name (hv.mono hab)) fun c _ hbc => ?_
      refine grounds_next (grounds_noteText 2 v _) fun d _ hcd => grounds_pure ?_
      exact hv.mono (Nat.le_trans hab (Nat.le_trans hbc hcd))
  | print value =>
      simp only [execute]
      refine grounds_nested _ (grounds_bind (h.evaluate size value) fun a v _ hv => ?_)
      refine grounds_next (grounds_of_meets (meets_display trivial v)) fun b text hab => ?_
      refine grounds_next (grounds_of_meets (meets_printLine text)) fun c _ hbc => ?_
      exact grounds_pure (hv.mono (Nat.le_trans hab hbc))
  | expressionStatement expression =>
      simp only [execute]
      exact grounds_nested _ (grounds_bind (h.evaluate size expression) fun _ v _ hv =>
        grounds_pure hv)
  | ifStatement condition ifBlock elseBlock =>
      simp only [execute]
      refine grounds_nested _ (grounds_bind (h.evaluate size condition) fun a v _ _ => ?_)
      refine grounds_next (grounds_noteText 3 v _) fun b _ _ => ?_
      split
      · exact h.block b ifBlock
      · split
        · exact grounds_pure below_none
        · exact h.block b elseBlock
  | whileStatement condition body =>
      simp only [execute]
      refine grounds_nested _ (grounds_repeatWhile (fun more => ?_) (fun more => h.block more body)
        fuel below_none)
      refine grounds_bind (h.evaluate more condition) fun a v _ _ => ?_
      exact grounds_next (grounds_noteText 3 v _) fun _ _ _ => grounds_pure trivial
  | elementAssignment array index value =>
      simp only [execute]
      refine grounds_nested _ (grounds_next (grounds_scalarPart array) fun a array _ => ?_)
      refine grounds_next (grounds_lookupArray array) fun b address _ => ?_
      refine grounds_bind (h.evaluate b index) fun c index _ _ => ?_
      refine grounds_bind (h.evaluate c value) fun d v _ hv => ?_
      refine grounds_next (grounds_setElement address index hv) fun e _ hde => ?_
      refine grounds_next (grounds_note 3 (meets_bind (meets_display trivial index) fun _ _ =>
        meets_bind (meets_display trivial v) fun _ _ => meets_pure trivial)) fun f _ hef => ?_
      exact grounds_pure (hv.mono (Nat.le_trans hde hef))
  | methodCall array method args =>
      simp only [execute]
      exact grounds_nested _ (grounds_bind (h.callMethod size array method args) fun _ v _ hv =>
        grounds_pure hv)
  | functionDeclaration name params body =>
      simp only [execute]
      refine grounds_nested _ (grounds_next (grounds_scalarPart name) fun a name _ => ?_)
      refine grounds_next (grounds_declare name ⟨params, body⟩) fun b _ _ => ?_
      refine grounds_next (grounds_note 2 ?_) fun _ _ _ => grounds_pure below_none
      exact meets_bind (meets_listPart trivial params) fun params _ =>
        meets_bind (meets_textParts trivial params) fun _ _ => meets_pure trivial
  | returnStatement value =>
      simp only [execute]
      refine grounds_nested _ ?_
      split
      · exact grounds_pure below_none
      · exact grounds_bind (h.evaluate size value) fun _ v _ hv => grounds_pure hv
  | _ =>
      simp only [execute]
      exact grounds_fail _

end Step

/-- The interpreter keeps states grounded. -/
theorem grounding_of_fuel (fuel : Nat) : Grounding fuel := by
  induction fuel with
  | zero =>
      constructor
      · intro size tree
        rw [evaluate_zero]
        exact grounds_of_meets meets_spent
      · intro size array method args
        rw [callMethod]
        exact grounds_of_meets meets_spent
      · intro size tree
        rw [execute_zero]
        exact grounds_of_meets meets_spent
  | succ fuel ih =>
      constructor
      · exact grounds_evaluate ih
      · exact grounds_callMethod ih
      · exact grounds_execute ih

theorem grounds_statements (fuel : Nat) (trees : List Tree) :
    Grounds size Value.Below (statements fuel trees) := by
  have hfirst : Value.none.Below size := below_none
  unfold statements
  generalize Value.none = v at hfirst
  induction trees generalizing size v with
  | nil => exact grounds_pure hfirst
  | cons tree trees ih =>
      simp only [List.foldlM_cons]
      refine grounds_bind (P := Value.Below) ?_ fun more v _ hv => ih v hv
      refine grounds_next (grounds_note 1 (meets_pure trivial)) fun more _ _ => ?_
      exact grounds_bind ((grounding_of_fuel fuel).execute more tree) fun _ last _ hlast =>
        grounds_pure hlast

/-- However a step ends that keeps states grounded, the state is grounded then. -/
theorem grounded_after {run : Run α} (h : Grounds 0 P run) {s : State} (hs : s.Grounded)
    (limits : Limits) : (run limits s).after.Grounded := by
  obtain ⟨more, -, hends⟩ := h limits s ⟨hs, Nat.zero_le _⟩
  generalize run limits s = outcome at hends
  cases outcome with
  | done v after => exact hends.2.1
  | failed fault after => exact hends.2.1
  | outOfFuel after => exact hends.1

/-- However a program ends that starts in a grounded state, the state is grounded then. -/
theorem grounded_program {s : State} (hs : s.Grounded) (limits : Limits) (fuel : Nat)
    (trees : List Tree) : (program fuel trees limits s).after.Grounded := by
  unfold program
  split
  · exact hs
  · exact grounded_after (grounds_statements fuel trees) hs limits

section Points

variable {limits : Limits} {s t : State} {piece inner first : Job} {fuel : Nat}

/-- A step that is done from a grounded state ends in one, with a value that is known there. -/
theorem grounded_of_done {run : Run α} {a : α} (h : Grounds s.heap.arrays.size P run)
    (hs : s.Grounded) (hdone : run limits s = .done a t) :
    t.Grounded ∧ ∃ more ≤ t.heap.arrays.size, s.heap.arrays.size ≤ more ∧ P more a := by
  obtain ⟨more, hle, hends⟩ := h limits s ⟨hs, Nat.le_refl _⟩
  rw [hdone] at hends
  exact ⟨hends.2.1, more, hends.2.2, hle, hends.1⟩

theorem grounds_opening (tree : Tree) : Grounds size (fun _ _ => True) (opening tree) := by
  have harray : ∀ array, Grounds size (fun _ _ => True)
      (do let _ ← lookupArray (← scalarPart array)) := fun array =>
    grounds_next (grounds_scalarPart array) fun _ name _ =>
      grounds_next (grounds_lookupArray name) fun _ _ _ => grounds_pure trivial
  cases tree with
  | elementAccess array | elementAssignment array | methodCall array | methodExpression array =>
      exact harray array
  | call name =>
      refine grounds_next (grounds_scalarPart name) fun _ name _ => ?_
      refine grounds_next (grounds_read fun _ _ => trivial) fun _ function? _ => ?_
      cases function? with
      | none => exact grounds_fail _
      | some function => exact grounds_pure trivial
  | _ => exact grounds_pure trivial

theorem grounds_front (fuel : Nat) (tree : Tree) (front : List Tree) :
    Grounds size (fun more vs => ∀ v ∈ vs, v.Below more)
      (do opening tree; values (evaluate fuel) front) :=
  grounds_next (grounds_opening tree) fun _ _ _ =>
    grounds_values (grounding_of_fuel fuel).evaluate front

theorem grounds_plainBlock (fuel : Nat) (trees : List Tree) :
    Grounds size (fun more last => last.value.Below more)
      (block (execute fuel) (plain .none) trees) :=
  grounds_block (grounding_of_fuel fuel).execute below_none trees

theorem grounds_test (fuel : Nat) (event : String → Bool → Event) (condition : Tree) :
    Grounds size (fun _ _ => True) (test fuel event condition) := by
  refine grounds_bind ((grounding_of_fuel fuel).evaluate size condition) fun _ v _ _ => ?_
  exact grounds_next (grounds_noteText 3 v _) fun _ _ _ => grounds_pure trivial

theorem grounds_arguments (fuel : Nat) (name : String) (args : List Tree) :
    Grounds size (fun more vs => ∀ v ∈ vs, v.Below more) (arguments fuel name args) := by
  refine grounds_bind (grounds_values (grounding_of_fuel fuel).evaluate args) fun _ vs _ hvs => ?_
  refine grounds_next (grounds_note 1 (meets_bind (meets_displayAll trivial vs)
    fun _ _ => meets_pure trivial)) fun _ _ hle => grounds_pure ?_
  exact fun v hv => (hvs v hv).mono hle

/-- What is started in a grounded state is started in one. -/
theorem grounded_of_starts (h : Starts limits piece s inner t) (hs : s.Grounded)
    (hargs : piece.IsBelow s.heap.arrays.size) :
    t.Grounded ∧ inner.IsBelow t.heap.arrays.size := by
  have hentered : ∀ {mid : State}, s.Enters limits mid → mid.Grounded := by
    rintro mid ⟨-, rfl⟩
    exact ⟨hs.bound, hs.cell⟩
  cases h with
  | @program fuel front tree rest _ _ before =>
      refine ⟨(grounded_of_done (P := fun _ _ => True) ?_ hs before).1, trivial⟩
      exact grounds_bind (grounds_statements fuel front) fun _ _ _ _ =>
        grounds_note 1 (meets_pure trivial)
  | @block fuel front tree rest last _ _ before goesOn =>
      exact ⟨(grounded_of_done (grounds_plainBlock fuel front) hs before).1, trivial⟩
  | @operand _ fuel tree front e rest vs _ mid _ node split enters before =>
      exact ⟨(grounded_of_done (grounds_front fuel tree front) (hentered enters) before).1, trivial⟩
  | @ifBlock fuel condition body other _ mid _ enters before =>
      exact ⟨(grounded_of_done (grounds_test _ _ _) (hentered enters) before).1, trivial⟩
  | @elseBlock fuel condition body rest _ mid _ enters before =>
      exact ⟨(grounded_of_done (grounds_test _ _ _) (hentered enters) before).1, trivial⟩
  | loop enters => exact ⟨hentered enters, trivial⟩
  | loopTest => exact ⟨hs, trivial⟩
  | loopBody before => exact ⟨(grounded_of_done (grounds_test _ _ _) hs before).1, trivial⟩
  | @loopAgain fuel _ body _ _ mid _ before round goesOn =>
      have hmid := (grounded_of_done (grounds_test _ _ _) hs before).1
      exact ⟨(grounded_of_done (grounds_plainBlock fuel body) hmid round).1, trivial⟩
  | parameters enters function before =>
      obtain ⟨ht, more, hmore, -, hvs⟩ :=
        grounded_of_done (grounds_arguments _ _ _) (hentered enters) before
      exact ⟨ht, fun v hv => (hvs v hv).mono hmore⟩
  | parameter before =>
      obtain ⟨ht, more, hmore, hle, -⟩ := grounded_of_done (grounds_bindAll _ hargs) hs before
      exact ⟨ht, fun v hv => (hargs v (List.mem_of_mem_tail hv)).mono (Nat.le_trans hle hmore)⟩
  | @body _ _ _ params _ _ _ _ _ _ enters function before binding =>
      obtain ⟨hbound, more, hmore, -, hvs⟩ :=
        grounded_of_done (grounds_arguments _ _ _) (hentered enters) before
      have hbinding := grounds_bindAll params fun v hv => (hvs v hv).mono hmore
      exact ⟨(grounded_of_done hbinding hbound binding).1, trivial⟩

/-- Every point of a run that starts in a grounded state is in one. -/
theorem grounded_of_visits (h : Visits limits first s piece t) (hs : s.Grounded)
    (hargs : first.IsBelow s.heap.arrays.size) :
    t.Grounded ∧ piece.IsBelow t.heap.arrays.size := by
  induction h with
  | start => exact ⟨hs, hargs⟩
  | next _ starts ih => exact grounded_of_starts starts ih.1 ih.2

end Points

end Run

end Sprig
