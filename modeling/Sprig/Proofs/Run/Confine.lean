import Sprig.Proofs.Run.Scope
import Sprig.Proofs.Run.Work
import Sprig.Proofs.Value.Reach

/-!
# Arrays that a run can come to

The arrays that a run can come to are those that its variables reach at the start and those that its
array literals make. No step leads out of them: while variables hold only such arrays, and their
cells too, the operations on variables and arrays give, store and change only such arrays, and every
other array keeps its items.
-/

namespace Sprig

/-- The arrays that are reached from the variables. -/
def State.Reaches (s : State) (a : Address) : Prop :=
  s.heap.Reaches (fun v => ∃ name, s.bindings.get? name = some v) a

namespace Run

/-- Whether an array literal that a run comes to makes an array. -/
def Makes (limits : Limits) (first : Task) (s : State) (a : Address) : Prop :=
  ∃ fuel elements t u, Comes limits first s (.expression (.arrayLiteral elements)) t ∧
    evaluate fuel (.arrayLiteral elements) limits t = .done (.array a) u

/-- The arrays that a run can come to: those that are reached at the start, and those that it
makes. -/
def Known (limits : Limits) (first : Task) (s : State) (a : Address) : Prop :=
  s.Reaches a ∨ s.heap.arrays.size ≤ a ∧ Makes limits first s a

/-- What holds between the steps of a run that a task began in a state. -/
structure Confined (limits : Limits) (first : Task) (s t : State) : Prop where
  /-- Variables hold only arrays that the run can come to. -/
  bound : ∀ name v, t.bindings.get? name = some v → v.Within (Known limits first s)
  /-- So do the cells of those. -/
  cell : ∀ a, Known limits first s a → ∀ v ∈ t.heap.items a, v.Within (Known limits first s)
  /-- All other arrays are as they were. -/
  frame : ∀ a, ¬Known limits first s a → t.heap.items a = s.heap.items a
  size_le : s.heap.arrays.size ≤ t.heap.arrays.size
  /-- Whatever is new was made by an array literal. -/
  made : ∀ a, s.heap.arrays.size ≤ a → a < t.heap.arrays.size → Makes limits first s a

/-- Only arrays that the run can come to are given, stored and changed. -/
def confined (limits : Limits) (first : Task) (s : State) : Contract where
  holds := Confined limits first s
  stops := Confined limits first s
  allows _ := True
  stops_of_holds h := h
  holds_of_same _ _ hbindings _ hheap h :=
    ⟨hbindings ▸ h.bound, hheap ▸ h.cell, hheap ▸ h.frame, hheap ▸ h.size_le, hheap ▸ h.made⟩
  stops_of_same _ _ hbindings _ hheap h :=
    ⟨hbindings ▸ h.bound, hheap ▸ h.cell, hheap ▸ h.frame, hheap ▸ h.size_le, hheap ▸ h.made⟩

variable {limits : Limits} {first : Task} {s t : State}

/-- At the start the variables hold what they reach, and nothing is new. -/
theorem Confined.refl : Confined limits first s s where
  bound name v hv a ha := .inl (.root ⟨name, ha ▸ hv⟩)
  cell a ha v hv b hb := by
    rcases ha with ha | ⟨hle, -⟩
    · exact .inl (.cell ha (hb ▸ hv))
    -- Nothing is yet where the run will make its arrays.
    · simp [Heap.items_of_le hle] at hv
  frame _ _ := rfl
  size_le := Nat.le_refl _
  made a hle hlt := absurd hlt (Nat.not_lt_of_ge hle)

/-- A new array that the run makes, of values that it can come to. -/
theorem Confined.allocate {items : Array Value} (h : Confined limits first s t)
    (hmade : Makes limits first s t.heap.arrays.size)
    (hitems : ∀ v ∈ items, v.Within (Known limits first s)) :
    Confined limits first s { t with heap := (t.heap.allocate items).2 } where
  bound := h.bound
  cell a ha := by
    rw [Heap.items_push]
    split
    · exact hitems
    · exact h.cell a ha
  frame a ha := by
    have hne : a ≠ t.heap.arrays.size := by
      rintro rfl
      exact ha (.inr ⟨h.size_le, hmade⟩)
    rw [Heap.items_push, if_neg hne]
    exact h.frame a ha
  size_le := by
    have := h.size_le
    simp only [Heap.allocate, Array.size_push]
    omega
  made a hle hlt := by
    simp only [Heap.allocate, Array.size_push] at hlt
    rcases Nat.lt_succ_iff_lt_or_eq.mp hlt with hlt | rfl
    · exact h.made a hle hlt
    · exact hmade

/-- A change of an array that the run can come to. -/
theorem Confined.update {a : Address} {f : Array Value → Array Value}
    (h : Confined limits first s t) (ha : Known limits first s a)
    (hf : ∀ v ∈ f (t.heap.items a), v.Within (Known limits first s)) :
    Confined limits first s { t with heap := t.heap.update a f } where
  bound := h.bound
  cell b hb := by
    by_cases hab : a = b
    · subst hab
      rw [Heap.items_update_self]
      split
      · exact hf
      · simp
    · rw [Heap.items_update_of_ne _ hab]
      exact h.cell b hb
  frame b hb := by
    have hne : a ≠ b := by
      rintro rfl
      exact hb ha
    rw [Heap.items_update_of_ne _ hne]
    exact h.frame b hb
  size_le := by simpa [Heap.update] using h.size_le
  made b hle hlt := h.made b hle (by simpa [Heap.update] using hlt)

section Operations

/-- Nothing leads out of the arrays that the run can come to. -/
theorem confined_encloses :
    (confined limits first s).Encloses (Value.Within (Known limits first s)) where
  none _ ha := by cases ha
  boolean _ _ ha := by cases ha
  number _ _ ha := by cases ha
  text _ _ ha := by cases ha
  expected _ _ _ := trivial
  bound ht hv := ht.bound _ _ hv
  item ht ha hv := ht.cell _ (ha _ rfl) _ hv
  update ht ha hf := ht.update (ha _ rfl) hf

theorem confined_assign (name : Scalar) {v : Value} (hv : v.Within (Known limits first s)) :
    Meets (confined limits first s) (fun _ => True) (assign name v) := by
  refine meets_change fun t ht => ⟨?_, ht.cell, ht.frame, ht.size_le, ht.made⟩
  intro other w hw
  rw [Table.get?_set] at hw
  split at hw
  · exact Option.some.inj hw ▸ hv
  · exact ht.bound other w hw

theorem confined_restore {kept : Table Value}
    (h : ∀ name v, kept.get? name = some v → v.Within (Known limits first s)) :
    Meets (confined limits first s) (fun _ => True)
      (change fun t => { t with bindings := kept }) :=
  meets_change fun _ ht => ⟨h, ht.cell, ht.frame, ht.size_le, ht.made⟩

theorem confined_declare (name : Scalar) (function : Function) :
    Meets (confined limits first s) (fun _ => True)
      (change fun t => { t with functions := t.functions.set name function }) :=
  meets_change fun _ ht => ⟨ht.bound, ht.cell, ht.frame, ht.size_le, ht.made⟩

theorem confined_bindAll (params : List Tree) {args : List Value}
    (h : ∀ v ∈ args, v.Within (Known limits first s)) :
    Meets (confined limits first s) (fun _ => True) (bindAll params args) := by
  induction params generalizing args with
  | nil => exact meets_pure trivial
  | cons param params ih =>
      have hhead : (args.headD .none).Within (Known limits first s) := by
        cases args with
        | nil => exact confined_encloses.none
        | cons v args => exact h v (by simp)
      apply meets_bind (meets_scalarPart trivial param)
      intro name _
      apply meets_bind (confined_assign name hhead)
      intro _ _
      apply meets_bind (meets_noteText confined_encloses 2 _ _)
      exact fun _ _ => ih fun v hv => h v (List.mem_of_mem_tail hv)

end Operations

end Run

end Sprig
