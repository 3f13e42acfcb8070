import Sprig.Proofs.Numeric.Whole
import Sprig.Proofs.Run.Confine
import Sprig.Proofs.Run.Easing
import Sprig.Proofs.Run.Return

/-!
# Elements as they are found

The array of an element is looked up before its index has a value, and the place in it is looked up
behind. In between the array may have become shorter or longer, under whatever name. An index stands
for a place of the array as it is then, or the step fails with nothing written.
-/

namespace Sprig

/-- Whether a heap differs from another one in one cell at most, which holds a given value. -/
structure Heap.Writes (before : Heap) (a : Address) (k : Nat) (v : Value) (after : Heap) : Prop where
  inside : k < (before.items a).size
  items : after.items a = (before.items a).set k v
  others : ∀ b, b ≠ a → after.items b = before.items b
  count : after.arrays.size = before.arrays.size

theorem Heap.writes_update {heap : Heap} {a : Address} {k : Nat} (h : k < (heap.items a).size)
    (v : Value) : heap.Writes a k v (heap.update a (·.setIfInBounds k v)) where
  inside := h
  items := by
    have ha : a < heap.arrays.size := by
      by_contra hnot
      simp [Heap.items, hnot] at h
    rw [Heap.items_update_self, if_pos ha, Array.setIfInBounds_def, dif_pos h]
  others b hb := heap.items_update_of_ne hb.symm _
  count := Array.size_modify

/-- Whether a step on the element of some items that an index stands for ends as it should. It fails
in a given state if the index is no Number, or one whose value is no place of the items. -/
structure Outcome.FindsPlace {α : Type} (items : Array Value) (index : Value) (stopped : State)
    (found : (k : Nat) → k < items.size → Outcome α → Prop) (outcome : Outcome α) : Prop where
  noNumber : index.kind ≠ .number → outcome = .failed (.indexOf index.kind) stopped
  noPlace : ∀ x, index = .number x → (∀ k < items.size, Numeric.value? x ≠ some (k : ℚ)) →
    outcome = .failed (.indexOutOfBounds x) stopped
  place : ∀ x k (hk : k < items.size), index = .number x → Numeric.value? x = some (k : ℚ) →
    found k hk outcome

theorem Outcome.FindsPlace.imp {α : Type} {items : Array Value} {index : Value} {stopped : State}
    {found other : (k : Nat) → k < items.size → Outcome α → Prop} {outcome : Outcome α}
    (h : outcome.FindsPlace items index stopped found)
    (himp : ∀ k hk outcome, found k hk outcome → other k hk outcome) :
    outcome.FindsPlace items index stopped other where
  noNumber := h.noNumber
  noPlace := h.noPlace
  place x k hk hx hvalue := himp k hk outcome (h.place x k hk hx hvalue)

namespace Run

section Places

variable {items : Array Value} {x : Float}

theorem placeIn_of_kind {index : Value} (h : index.kind ≠ .number) :
    placeIn items index = .error (.indexOf index.kind) := by
  cases index with
  | number x => exact absurd rfl h
  | _ => rfl

theorem placeIn_of_value {k : Nat} (hx : Numeric.value? x = some (k : ℚ)) (hk : k < items.size) :
    placeIn items (.number x) = .ok k := by
  have hwhole : Numeric.wholeNumber? x = some (k : Int) :=
    Numeric.wholeNumber?_eq_some_iff.mpr (by rw [hx, Int.cast_natCast])
  have hbounds : 0 ≤ (k : Int) ∧ (k : Int) < items.size := by omega
  simp [placeIn, hwhole, hbounds]

theorem placeIn_of_outside (h : ∀ k < items.size, Numeric.value? x ≠ some (k : ℚ)) :
    placeIn items (.number x) = .error (.indexOutOfBounds x) := by
  rw [placeIn]
  cases hwhole : Numeric.wholeNumber? x with
  | none => rfl
  | some j =>
      dsimp only
      rw [if_neg]
      rintro ⟨hnonneg, hlt⟩
      have hx := Numeric.wholeNumber?_eq_some_iff.mp hwhole
      rw [← Int.toNat_of_nonneg hnonneg, Int.cast_natCast] at hx
      exact h j.toNat (by omega) hx

end Places

variable {limits : Limits} {s inside mid late : State} {name : Scalar} {a : Address} {fuel : Nat}

theorem nested_eq_leave {α : Type} {kind : NodeKind} {work : Run α}
    (enters : s.Enters limits inside) : nested kind work limits s = leave (work limits inside) := by
  obtain ⟨hle, rfl⟩ := enters
  rw [nested_apply, if_neg (by omega)]

theorem lookupArray_of_bound (h : s.bindings.get? name = some (.array a)) :
    lookupArray name limits s = .done a s := by
  simp [lookupArray, lookup, bind_apply, read, h]

theorem checkIndex_apply (a : Address) (index : Value) (limits : Limits) (s : State) :
    checkIndex a index limits s = lift (placeIn (s.heap.items a) index) limits s := rfl

/-- A node that goes on with the place of an index fails, or goes on with it. -/
theorem findsPlace_leave {α : Type} (a : Address) (index : Value) (next : Nat → Run α)
    (limits : Limits) (s : State) :
    (leave ((checkIndex a index >>= next) limits s)).FindsPlace (s.heap.items a) index (s.outOf 1)
      fun k _ outcome => outcome = leave (next k limits s) := by
  rw [bind_apply, checkIndex_apply]
  refine ⟨fun hkind => ?_, fun x hx hnone => ?_, fun x k hk hx hvalue => ?_⟩
  · rw [placeIn_of_kind hkind]
    rfl
  · rw [hx, placeIn_of_outside hnone]
    rfl
  · rw [hx, placeIn_of_value hvalue hk]
    rfl

theorem evaluate_elementAccess_of {index : Tree} {i : Value}
    (hname : s.bindings.get? name = some (.array a)) (enters : s.Enters limits inside)
    (hindex : evaluate fuel index limits inside = .done i mid) :
    evaluate (fuel + 1) (.elementAccess (.scalar name) index) limits s =
      leave (elementAt a i limits mid) := by
  have hinside : inside.bindings = s.bindings := by rw [enters.2]
  rw [evaluate, nested_eq_leave enters, scalarPart, pure_bind,
    bind_of_done (lookupArray_of_bound (hinside ▸ hname)), bind_of_done hindex]

theorem execute_elementAssignment_of {index value : Tree} {i v : Value}
    (htrace : limits.traceLevel < 3) (hname : s.bindings.get? name = some (.array a))
    (enters : s.Enters limits inside) (hindex : evaluate fuel index limits inside = .done i mid)
    (hvalue : evaluate fuel value limits mid = .done v late) :
    execute (fuel + 1) (.elementAssignment (.scalar name) index value) limits s =
      leave ((do
        let k ← checkIndex a i
        updateArray a (·.setIfInBounds k v)
        return plain v) limits late) := by
  have hinside : inside.bindings = s.bindings := by rw [enters.2]
  rw [execute, nested_eq_leave enters, scalarPart, pure_bind,
    bind_of_done (lookupArray_of_bound (hinside ▸ hname)), bind_of_done hindex,
    bind_of_done hvalue, setElement, bind_assoc, bind_apply, bind_apply, checkIndex_apply]
  cases placeIn (late.heap.items a) i with
  | error fault => rfl
  | ok k =>
      dsimp only [lift, pure_apply]
      rw [bind_of_done (v := ()) rfl, bind_of_done (note_of_lt htrace _ _)]
      rfl

/-- Whatever its index does, an element is one of what the array holds behind it, and so is the cell
that is written once the new value is known too. The index has to be a Number whose value is a place
of the array as it is then, so zero may have a sign. Otherwise the step fails, and everything is
left as the last of the parts left it. -/
theorem element_checked_at_access {index : Tree} {i : Value}
    (hname : s.bindings.get? name = some (.array a)) (enters : s.Enters limits inside)
    (hindex : evaluate fuel index limits inside = .done i mid) :
    mid.bindings = s.bindings ∧
    (evaluate (fuel + 1) (.elementAccess (.scalar name) index) limits s).FindsPlace
      (mid.heap.items a) i (mid.outOf 1)
      (fun k _ outcome => outcome = .done (mid.heap.items a)[k] (mid.outOf 1)) ∧
    ∀ value v late, limits.traceLevel < 3 → evaluate fuel value limits mid = .done v late →
      late.bindings = s.bindings ∧
      (execute (fuel + 1) (.elementAssignment (.scalar name) index value) limits s).FindsPlace
        (late.heap.items a) i (late.outOf 1)
        (fun k _ outcome => ∃ heap, late.heap.Writes a k v heap ∧
          outcome = .done (plain v) { late.outOf 1 with heap }) := by
  have hmid : mid.bindings = s.bindings := by
    rw [(scope fuel index limits inside).1 i mid hindex, enters.2]
  refine ⟨hmid, ?_, fun value v late htrace hvalue => ⟨?_, ?_⟩⟩
  · rw [evaluate_elementAccess_of hname enters hindex]
    refine (findsPlace_leave a i _ limits mid).imp fun k hk outcome houtcome => ?_
    simp [houtcome, read, leave, hk, State.outOf]
  · rw [(scope fuel value limits mid).1 v late hvalue, hmid]
  · rw [execute_elementAssignment_of htrace hname enters hindex hvalue]
    refine (findsPlace_leave a i _ limits late).imp fun k hk outcome houtcome => ?_
    exact ⟨_, Heap.writes_update hk v, houtcome⟩

/-- An index that takes the last item away under another name of the array, and stands for the one
that is left. -/
theorem element_checked_at_access_of_pop :
    let name : Scalar := .text "a"
    let index : Tree := .methodExpression (.text "b") (.text "pop") (.list [])
    let value : Tree := .string (.text "new")
    let holding (items : Array Value) (depth : Nat) : State :=
      { State.start with
        bindings := ⟨[(name, .array 0), (.text "b", .array 0)]⟩
        heap := ⟨#[items]⟩
        depth }
    let s := holding #[.text "old", .number 0] 0
    let mid := holding #[.text "old"] 1
    let limits : Limits := ⟨1500, 0⟩
    s.bindings.get? name = some (.array 0) ∧ s.Enters limits (holding #[.text "old", .number 0] 1) ∧
    evaluate 3 index limits (holding #[.text "old", .number 0] 1) = .done (.number 0) mid ∧
    mid.bindings = s.bindings ∧
    (evaluate 4 (.elementAccess (.scalar name) index) limits s).FindsPlace
      (mid.heap.items 0) (.number 0) (mid.outOf 1)
      (fun k _ outcome => outcome = .done (mid.heap.items 0)[k] (mid.outOf 1)) ∧
    limits.traceLevel < 3 ∧ evaluate 3 value limits mid = .done (.text "new") mid ∧
    (execute 4 (.elementAssignment (.scalar name) index value) limits s).FindsPlace
      (mid.heap.items 0) (.number 0) (mid.outOf 1)
      (fun k _ outcome => ∃ heap, mid.heap.Writes 0 k (.text "new") heap ∧
        outcome = .done (plain (.text "new")) { mid.outOf 1 with heap }) := by
  intro name index value holding s mid limits
  have hname : s.bindings.get? name = some (.array 0) := rfl
  have enters : s.Enters limits (holding #[.text "old", .number 0] 1) := ⟨by decide, rfl⟩
  have hindex : evaluate 3 index limits (holding #[.text "old", .number 0] 1) =
      .done (.number 0) mid := rfl
  have hvalue : evaluate 3 value limits mid = .done (.text "new") mid := rfl
  obtain ⟨hmid, haccess, hassign⟩ := element_checked_at_access hname enters hindex
  exact ⟨hname, enters, hindex, hmid, haccess, by decide, hvalue,
    (hassign value _ _ (by decide) hvalue).2⟩

end Run

end Sprig
