import Sprig.Proofs.Run.Easing
import Sprig.Proofs.Run.Grounded
import Sprig.Proofs.Run.Operator
import Sprig.Proofs.Value.Moved

/-!
# Runs beside more arrays

A run that changes nothing that is there does not notice when there are more arrays than it knows.
Two runs that start with the same variables, the second one with some arrays more, go side by side
as long as they only look at what is there and make new arrays. They fail alike, and their values
are the same but for the addresses of the new arrays, which the second run makes further up.

## Implementation notes

The start has to be grounded. Otherwise a variable could hold an address at which nothing is yet,
and the new array that comes to be there would be another one for the second run.
-/

namespace Sprig

/-- Whether a state came from another one by new arrays alone, whatever nodes are worked on and
whatever events are noted. -/
structure State.Grown (s : State) (fresh : Array (Array Value)) (t : State) : Prop where
  bindings : t.bindings = s.bindings
  functions : t.functions = s.functions
  printed : t.printed = s.printed
  arrays : t.heap.arrays = s.heap.arrays ++ fresh

/-- Two states with the same variables, where the second one has some arrays more. -/
structure Widening where
  /-- What both runs are bound to. -/
  limits : Limits
  /-- The state at the start of the first run. -/
  first : State
  /-- The state at the start of the second run. -/
  second : State
  /-- The arrays that are there for the second run only. -/
  more : Array (Array Value)
  bindings : second.bindings = first.bindings
  arrays : second.heap.arrays = first.heap.arrays ++ more
  grounded : first.Grounded

namespace Widening

open Run

variable (W : Widening)

/-- Where the second run has an array of the first one. -/
def move (a : Nat) : Nat :=
  if a < W.first.heap.arrays.size then a else a + W.more.size

/-- Some arrays as the second run has them. -/
def moveAll (fresh : Array (Array Value)) : Array (Array Value) :=
  fresh.map (Array.map (Value.move W.move))

/-- Whether both runs have made the same new arrays and nothing else. -/
structure Alike (s t : State) : Prop where
  depth : s.depth = t.depth
  grown : ∃ fresh, W.first.Grown fresh s ∧ W.second.Grown (W.moveAll fresh) t

/-- Whether a value of the second run is that of the first one. -/
def Moved (v w : Value) : Prop := v.move W.move = w

/-- The coupling of the two runs. -/
def coupling : Coupling := .lockstep W.limits W.Alike

variable {W}

theorem move_injective : Function.Injective W.move := by
  intro a b h
  simp only [move] at h
  split at h <;> split at h <;> omega

/-- What the first run started with is not moved. -/
theorem move_of_below {v : Value} (h : v.Below W.first.heap.arrays.size) : v.move W.move = v :=
  Value.move_eq_self fun a ha => if_pos (h a ha)

theorem move_new (k : Nat) :
    W.move (W.first.heap.arrays.size + k) = W.second.heap.arrays.size + k := by
  rw [move, if_neg (by omega), W.arrays, Array.size_append]
  omega

theorem forall₂_moved_iff {vs ws : List Value} :
    List.Forall₂ W.Moved vs ws ↔ ws = vs.map (Value.move W.move) := by
  unfold Moved
  rw [← List.forall₂_map_left_iff, List.forall₂_eq_eq_eq, eq_comm]

variable {s t : State} {α β : Type} {P : α → β → Prop}

theorem Alike.start (h : W.first.depth = W.second.depth) : W.Alike W.first W.second where
  depth := h
  grown := ⟨#[], ⟨rfl, rfl, rfl, by simp⟩, ⟨rfl, rfl, rfl, by simp [moveAll]⟩⟩

/-- What both runs have added is moved along with its items, and what was there is not moved. -/
theorem Alike.moves (h : W.Alike s t) : s.heap.Moves W.move t.heap := by
  obtain ⟨fresh, hs, ht⟩ := h.grown
  intro a
  rcases Nat.lt_or_ge a W.first.heap.arrays.size with ha | ha
  · have hitems : s.heap.items a = W.first.heap.items a := by
      rw [Heap.items, hs.arrays, Array.getElem?_append_left ha, Heap.items]
    have hother : t.heap.items a = W.first.heap.items a := by
      rw [Heap.items, ht.arrays, W.arrays, Array.append_assoc, Array.getElem?_append_left ha,
        Heap.items]
    rw [move, if_pos ha, hitems, hother]
    have hsame := Array.map_congr_left fun v hv => move_of_below (W.grounded.cell a v hv)
    rw [hsame, Array.map_id']
  · obtain ⟨k, rfl⟩ := Nat.exists_eq_add_of_le ha
    rw [move_new, Heap.items, Heap.items, hs.arrays, ht.arrays,
      Array.getElem?_append_right (Nat.le_add_right ..),
      Array.getElem?_append_right (Nat.le_add_right ..), Nat.add_sub_cancel_left,
      Nat.add_sub_cancel_left, moveAll, Array.getElem?_map]
    cases fresh[k]? <;> simp

section Steps

theorem couples_read {part : State → α} {other : State → β}
    (h : ∀ {s t}, W.Alike s t → P (part s) (other t)) :
    Couples W.coupling P (read part) (read other) :=
  couples_lockstep fun hs => .done (h hs) hs

theorem couples_scalarPart (tree : Tree) :
    Couples W.coupling Eq (scalarPart tree) (scalarPart tree) := by
  cases tree with
  | scalar value => exact couples_pure rfl
  | _ => exact couples_fail rfl

theorem couples_listPart (tree : Tree) :
    Couples W.coupling (fun trees others => others = trees ∧ tree.items? = some trees)
      (listPart tree) (listPart tree) := by
  unfold listPart
  split
  · next trees htrees => exact couples_pure ⟨rfl, htrees⟩
  · exact couples_fail rfl

theorem moved_self {v : Value} (h : v.kind ≠ .array) : W.Moved v v :=
  Value.move_eq_self fun _ ha => absurd (congrArg Value.kind ha) h

/-- What is computed from values alone is the same on both sides if it is no array. -/
theorem couples_lift {result other : Except Fault Value} (h : other = result)
    (hresult : ∀ v, result = .ok v → v.kind ≠ .array) :
    Couples W.coupling W.Moved (lift result) (lift other) := by
  subst h
  cases other with
  | ok v => exact couples_pure (moved_self (hresult v rfl))
  | error fault => exact couples_fail rfl

theorem couples_lookup (name : Scalar) :
    Couples W.coupling W.Moved (lookup name) (lookup name) := by
  have hread : Couples W.coupling
      (fun v? w? => w? = v? ∧ ∀ v, v? = some v → v.Below W.first.heap.arrays.size)
      (read (·.bindings.get? name)) (read (·.bindings.get? name)) := by
    refine couples_read fun {s t} hs => ?_
    obtain ⟨fresh, hs, ht⟩ := hs.grown
    rw [hs.bindings, ht.bindings, W.bindings]
    exact ⟨rfl, W.grounded.bound name⟩
  apply couples_bind hread
  rintro _ v? ⟨rfl, hv⟩
  cases v? with
  | none => exact couples_fail rfl
  | some v => exact couples_pure (move_of_below (hv v rfl))

theorem couples_lookupArray (name : Scalar) :
    Couples W.coupling (fun a b => b = W.move a) (lookupArray name) (lookupArray name) := by
  apply couples_bind (couples_lookup name)
  rintro v _ rfl
  cases v with
  | array address => exact couples_pure rfl
  | _ => exact couples_fail rfl

/-- The array that a part names. -/
theorem couples_arrayOf {array : Tree} {next : Address → Run α} {others : Address → Run β}
    (h : ∀ address, Couples W.coupling P (next address) (others (W.move address))) :
    Couples W.coupling P (do next (← lookupArray (← scalarPart array)))
      (do others (← lookupArray (← scalarPart array))) := by
  apply couples_next (couples_scalarPart array)
  intro name
  apply couples_bind (couples_lookupArray name)
  rintro address _ rfl
  exact h address

end Steps

section Texts

theorem couples_display (v : Value) :
    Couples W.coupling Eq (display v) (display (v.move W.move)) := by
  refine couples_lockstep fun {s t} hs => ?_
  unfold display
  rw [Value.display?_move hs.moves]
  cases v.display? s.heap W.limits.textAllowance with
  | some text => exact .done rfl hs
  | none => exact .failed rfl hs

theorem couples_displayAll (vs : List Value) :
    Couples W.coupling Eq (displayAll vs) (displayAll (vs.map (Value.move W.move))) := by
  refine couples_lockstep fun {s t} hs => ?_
  unfold displayAll
  rw [Value.mapM_display?_move hs.moves]
  cases vs.mapM (Value.display? s.heap W.limits.textAllowance) with
  | some texts => exact .done rfl hs
  | none => exact .failed rfl hs

theorem Alike.noted (h : W.Alike s t) (events others : Array Event) :
    W.Alike { s with trace := events } { t with trace := others } := by
  obtain ⟨fresh, hs, ht⟩ := h.grown
  exact ⟨h.depth, fresh, { hs with }, { ht with }⟩

/-- An event that shows a value is noted on both sides, and a text that is too deep stops both. -/
theorem couples_noteText (level : Nat) (v : Value) (event : String → Event) :
    Couples W.coupling Eq (note level (do return event (← display v)))
      (note level (do return event (← display (v.move W.move)))) := by
  have hnoted : Couples W.coupling Eq
      (do let e ← (do return event (← display v)); push e)
      (do let e ← (do return event (← display (v.move W.move))); push e) := by
    apply couples_next (couples_next (couples_display v) fun text => couples_pure rfl)
    exact fun e => couples_lockstep fun hs => .done rfl (hs.noted _ _)
  refine couples_lockstep fun {s t} hs => ?_
  unfold note
  split
  · exact .done rfl hs
  · exact hnoted.together hs

theorem Alike.atDepth (h : W.Alike s t) (f : Nat → Nat) :
    W.Alike { s with depth := f s.depth } { t with depth := f t.depth } := by
  obtain ⟨fresh, hs, ht⟩ := h.grown
  exact ⟨congrArg f h.depth, fresh, { hs with }, { ht with }⟩

theorem coupled_leave {outcome : Outcome α} {other : Outcome β}
    (h : outcome.Coupled W.coupling P other) :
    (leave outcome).Coupled W.coupling P (leave other) := by
  cases h with
  | done values states => exact .done values (Alike.atDepth states (· - 1))
  | failed faults states => exact .failed faults (Alike.atDepth states (· - 1))
  | outOfFuel states => exact .outOfFuel states
  | early ends => exact ends.after.elim
  | spare hspare => exact hspare.elim

/-- A node is too deep on both sides or on none. -/
theorem couples_nested (kind : NodeKind) {work : Run α} {other : Run β}
    (h : Couples W.coupling P work other) :
    Couples W.coupling P (nested kind work) (nested kind other) := by
  refine couples_lockstep fun {s t} hs => ?_
  rw [nested_apply, nested_apply, ← hs.depth]
  split
  · exact .failed rfl hs
  · have hinside := coupled_leave (h.together (hs.atDepth (· + 1)))
    rwa [← hs.depth] at hinside

end Texts

section Arrays

/-- The new array of the second run is where the first run's is moved to. -/
theorem couples_newArray (items : Array Value) :
    Couples W.coupling W.Moved (newArray items) (newArray (items.map (Value.move W.move))) := by
  refine couples_lockstep fun {s t} hs => ?_
  obtain ⟨fresh, hgrown, hother⟩ := hs.grown
  have hsize : W.move s.heap.arrays.size = t.heap.arrays.size := by
    rw [hgrown.arrays, hother.arrays, Array.size_append, Array.size_append, move_new, moveAll,
      Array.size_map]
  refine .done (congrArg Value.array hsize) ⟨hs.depth, fresh.push items, ?_, ?_⟩
  · exact { hgrown with arrays := by simp [hgrown.arrays] }
  · exact { hother with arrays := by simp [hother.arrays, moveAll] }

theorem couples_itemsOf (address : Address) :
    Couples W.coupling (fun items others => others = items.map (Value.move W.move))
      (itemsOf address) (itemsOf (W.move address)) :=
  couples_read fun hs => hs.moves address

theorem couples_elementAt (address : Address) (index : Value) :
    Couples W.coupling W.Moved (elementAt address index)
      (elementAt (W.move address) (index.move W.move)) := by
  have hcheck : Couples W.coupling Eq (checkIndex address index)
      (checkIndex (W.move address) (index.move W.move)) := by
    refine couples_next (couples_read fun hs => ?_) fun place => Run.couples_lift fun _ _ => rfl
    rw [hs.moves, placeIn_move]
  refine couples_next hcheck fun place => couples_read fun {s t} hs => ?_
  rw [hs.moves, Array.getElem?_map]
  cases (s.heap.items address)[place]? <;> rfl

theorem couples_joinItems (address : Address) (args : List Value) :
    Couples W.coupling W.Moved (joinItems address args)
      (joinItems (W.move address) (args.map (Value.move W.move))) := by
  have hrest : ∀ separator : String, Couples W.coupling W.Moved
      (do
        let items ← itemsOf address
        let texts ← displayAll items.toList
        return .text (String.intercalate separator texts) : Run Value)
      (do
        let items ← itemsOf (W.move address)
        let texts ← displayAll items.toList
        return .text (String.intercalate separator texts)) := by
    intro separator
    apply couples_bind (couples_itemsOf address)
    rintro items _ rfl
    rw [Array.toList_map]
    exact couples_next (couples_displayAll _) fun texts => couples_pure rfl
  unfold joinItems
  simp only [Value.move_headD, Value.isTruthy_move]
  split
  · exact couples_next (couples_display _) hrest
  · exact hrest _

theorem couples_applyProperty (address : Address) (property : Scalar) :
    Couples W.coupling W.Moved (applyProperty address property)
      (applyProperty (W.move address) property) := by
  unfold applyProperty
  split
  · apply couples_bind (couples_itemsOf address)
    rintro items _ rfl
    rw [lengthOf_map]
    exact couples_pure rfl
  · exact couples_fail rfl

theorem couples_applyBinary (operator : Scalar) (left right : Value) :
    Couples W.coupling W.Moved (applyBinary operator left right)
      (applyBinary operator (left.move W.move) (right.move W.move)) := by
  unfold applyBinary
  rw [joinsTexts_move, applyArithmetic_move]
  split
  · refine couples_next (couples_display left) fun front => ?_
    exact couples_next (couples_display right) fun back => couples_pure rfl
  · refine couples_lift rfl fun v hv => ?_
    obtain ⟨x, rfl⟩ := exists_number_of_applyArithmetic hv
    simp [Value.kind]

end Arrays

end Widening

end Sprig
