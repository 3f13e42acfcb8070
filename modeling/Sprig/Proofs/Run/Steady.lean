import Sprig.Proofs.Run.Operator
import Sprig.Run.Block
import Sprig.Run.Element

/-!
# Steps that stay at their depth

Only nodes change the depth, and only declarations change the functions. What the interpreter does
in between, with variables, arrays, texts and events, leaves both as they are, whether it is done or
fails. None of it fails because a node is too deep.
-/

namespace Sprig

/-- Whether a fault is another one than that a node is too deep. -/
def Fault.IsShallow : Fault → Prop
  | depthExceeded _ _ => False
  | _ => True

/-- Whether a step that started in a state ended without a change of the depth or the functions, or
failed without a change of the depth and because of no node. -/
def Outcome.Steady {α : Type} (s : State) : Outcome α → Prop
  | .done _ after => after.depth = s.depth ∧ after.functions = s.functions
  | .failed fault after => after.depth = s.depth ∧ fault.IsShallow
  | .outOfFuel _ => True

namespace Run

/-- Whether a step leaves the depth and the functions as they are. -/
def Steady {α : Type} (run : Run α) : Prop := ∀ limits s, (run limits s).Steady s

variable {α β : Type}

theorem steady_pure (v : α) : Steady (pure v) := fun _ _ => ⟨rfl, rfl⟩

theorem steady_fail {fault : Fault} (h : fault.IsShallow) : Steady (fail fault : Run α) :=
  fun _ _ => ⟨rfl, h⟩

theorem steady_read (part : State → α) : Steady (read part) := fun _ _ => ⟨rfl, rfl⟩

theorem steady_change {f : State → State} (hdepth : ∀ s, (f s).depth = s.depth)
    (hfunctions : ∀ s, (f s).functions = s.functions) : Steady (change f) :=
  fun _ s => ⟨hdepth s, hfunctions s⟩

/-- One step after the other is steady when both are. -/
theorem steady_bind {first : Run α} {next : α → Run β} (hfirst : Steady first)
    (hnext : ∀ a, Steady (next a)) : Steady (first >>= next) := by
  intro limits s
  have hout := hfirst limits s
  rw [bind_apply]
  cases hrun : first limits s with
  | done a mid =>
      rw [hrun] at hout
      obtain ⟨hdepth, hfunctions⟩ := hout
      have hlater := hnext a limits mid
      dsimp only
      cases hrest : next a limits mid with
      | done b after =>
          rw [hrest] at hlater
          exact ⟨hlater.1.trans hdepth, hlater.2.trans hfunctions⟩
      | failed fault after =>
          rw [hrest] at hlater
          exact ⟨hlater.1.trans hdepth, hlater.2⟩
      | outOfFuel after => trivial
  | failed fault after =>
      rw [hrun] at hout
      exact hout
  | outOfFuel after => trivial

theorem steady_lift {result : Except Fault α}
    (h : ∀ fault, result = .error fault → fault.IsShallow) : Steady (lift result) := by
  cases result with
  | ok v => exact steady_pure v
  | error fault => exact steady_fail (h fault rfl)

section Texts

theorem steady_display (v : Value) : Steady (display v) := by
  intro limits s
  unfold display
  split
  · exact ⟨rfl, rfl⟩
  · exact ⟨rfl, trivial⟩

theorem steady_displayAll (vs : List Value) : Steady (displayAll vs) := by
  intro limits s
  unfold displayAll
  split
  · exact ⟨rfl, rfl⟩
  · exact ⟨rfl, trivial⟩

theorem steady_printLine (text : String) : Steady (printLine text) :=
  steady_change (fun _ => rfl) fun _ => rfl

theorem steady_note (level : Nat) {event : Run Event} (h : Steady event) :
    Steady (note level event) := by
  intro limits s
  unfold note
  split
  · exact ⟨rfl, rfl⟩
  · refine steady_bind h (fun event => ?_) limits s
    exact steady_change (fun _ => rfl) fun _ => rfl

theorem steady_noteText (level : Nat) (v : Value) (event : String → Event) :
    Steady (note level (do return event (← display v))) :=
  steady_note level (steady_bind (steady_display v) fun _ => steady_pure _)

end Texts

section Parts

theorem steady_scalarPart (tree : Tree) : Steady (scalarPart tree) := by
  unfold scalarPart
  split
  · exact steady_pure _
  · exact steady_fail trivial

theorem steady_listPart (tree : Tree) : Steady (listPart tree) := by
  unfold listPart
  split
  · exact steady_pure _
  · exact steady_fail trivial

theorem steady_textParts (trees : List Tree) : Steady (textParts trees) := by
  rcases textParts_cases trees with ⟨names, -, hnames⟩ | ⟨-, hfail⟩
  · rw [hnames]
    exact steady_pure names
  · rw [hfail]
    exact steady_fail trivial

end Parts

section Variables

theorem steady_lookup (name : Scalar) : Steady (lookup name) := by
  apply steady_bind (steady_read _)
  intro v?
  cases v? with
  | none => exact steady_fail trivial
  | some v => exact steady_pure v

theorem steady_lookupArray (name : Scalar) : Steady (lookupArray name) := by
  apply steady_bind (steady_lookup name)
  intro v
  cases v with
  | array address => exact steady_pure address
  | _ => exact steady_fail trivial

theorem steady_assign (name : Scalar) (v : Value) : Steady (assign name v) :=
  steady_change (fun _ => rfl) fun _ => rfl

theorem steady_bindAll (params : List Tree) (args : List Value) : Steady (bindAll params args) := by
  induction params generalizing args with
  | nil => exact steady_pure ()
  | cons param params ih =>
      apply steady_bind (steady_scalarPart param)
      intro name
      apply steady_bind (steady_assign name _)
      intro _
      exact steady_bind (steady_noteText 2 _ _) fun _ => ih args.tail

end Variables

section Operators

theorem steady_applyUnary (operator : Scalar) (v : Value) :
    Steady (lift (applyUnary operator v)) :=
  steady_lift fun _ h => by rcases fault_of_applyUnary h with ⟨-, rfl⟩ | ⟨-, rfl⟩ <;> trivial

theorem steady_applyBinary (operator : Scalar) (left right : Value) :
    Steady (applyBinary operator left right) := by
  unfold applyBinary
  split
  · apply steady_bind (steady_display left)
    intro front
    exact steady_bind (steady_display right) fun back => steady_pure _
  · refine steady_lift fun _ h => ?_
    rcases fault_of_applyArithmetic h with ⟨-, rfl⟩ | rfl | ⟨-, rfl⟩ <;> trivial

theorem steady_applyComparison (operator : Scalar) (left right : Value) :
    Steady (lift (applyComparison operator left right)) :=
  steady_lift fun _ h => by
    rcases fault_of_applyComparison h with ⟨-, -, -, rfl⟩ | rfl <;> trivial

end Operators

section Arrays

theorem steady_updateArray (address : Address) (f : Array Value → Array Value) :
    Steady (updateArray address f) :=
  steady_change (fun _ => rfl) fun _ => rfl

theorem steady_newArray (items : Array Value) : Steady (newArray items) := fun _ _ => ⟨rfl, rfl⟩

theorem steady_checkIndex (address : Address) (index : Value) :
    Steady (checkIndex address index) := by
  intro limits s
  refine steady_lift (fun fault h => ?_) limits s
  rcases fault_of_placeIn h with ⟨-, rfl⟩ | ⟨x, rfl⟩ <;> trivial

theorem steady_elementAt (address : Address) (index : Value) : Steady (elementAt address index) :=
  steady_bind (steady_checkIndex address index) fun _ => steady_read _

theorem steady_setElement (address : Address) (index v : Value) :
    Steady (setElement address index v) :=
  steady_bind (steady_checkIndex address index) fun _ => steady_updateArray address _

theorem steady_joinItems (address : Address) (args : List Value) :
    Steady (joinItems address args) := by
  have hrest : ∀ separator : String, Steady (do
      let items ← itemsOf address
      let texts ← displayAll items.toList
      return Value.text (String.intercalate separator texts)) := by
    intro separator
    apply steady_bind (steady_read _)
    intro items
    exact steady_bind (steady_displayAll _) fun texts => steady_pure _
  unfold joinItems
  dsimp only
  split
  · exact steady_bind (steady_display _) hrest
  · exact hrest ","

theorem steady_applyMethod (address : Address) (method : Scalar) (args : List Value) :
    Steady (applyMethod address method args) := by
  unfold applyMethod
  split
  · apply steady_bind (steady_updateArray address _)
    intro _
    exact steady_bind (steady_read _) fun items => steady_pure _
  split
  · apply steady_bind (steady_read _)
    intro last
    exact steady_bind (steady_updateArray address _) fun _ => steady_pure _
  split
  · exact steady_joinItems address args
  · exact steady_fail trivial

theorem steady_applyProperty (address : Address) (property : Scalar) :
    Steady (applyProperty address property) := by
  unfold applyProperty
  split
  · exact steady_bind (steady_read _) fun items => steady_pure _
  · exact steady_fail trivial

end Arrays

end Run

end Sprig
