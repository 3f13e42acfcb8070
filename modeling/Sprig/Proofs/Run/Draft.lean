import Sprig.Proofs.Tree.Named
import Sprig.Proofs.Value.Display
import Sprig.Proofs.Run.Contract

/-!
# Drafts of events

An event tells texts, and a run makes these texts of values only where it notes the event. The draft
of an event is what the event is made of. Making the event leaves the state alone. It fails only
where a value of the draft has no text, or where a declaration is told whose parameters are no
names.
-/

namespace Sprig

/-- An event before the texts in it are made. -/
inductive Draft
  | executing (label : String)
  | calling (name : Scalar) (args : List Value)
  | returned (name : Scalar) (v : Value)
  | assigned (name : Scalar) (v : Value)
  | bound (param : Scalar) (v : Value)
  | defined (name : Scalar) (params : Tree)
  | branchTested (v : Value)
  | loopTested (v : Value)
  | elementSet (array : Scalar) (index v : Value)
  | methodAnswered (array method : Scalar) (v : Value)

namespace Draft

open Run

/-- The level of detail of the event. -/
def level : Draft → Nat
  | executing _ | calling _ _ | returned _ _ => 1
  | assigned _ _ | bound _ _ | defined _ _ => 2
  | branchTested _ | loopTested _ | elementSet _ _ _ | methodAnswered _ _ _ => 3

/-- The values that the event shows. -/
def values : Draft → List Value
  | executing _ | defined _ _ => []
  | calling _ args => args
  | elementSet _ index v => [index, v]
  | returned _ v | assigned _ v | bound _ v | branchTested v | loopTested v
  | methodAnswered _ _ v => [v]

/-- Makes the event. -/
def event : Draft → Run Event
  | executing label => return .executing label
  | calling name args => do return .calling name (← displayAll args)
  | returned name v => do return .returned name (← display v)
  | assigned name v => do return .assigned name v.kind (← display v)
  | bound param v => do return .bound param (← display v)
  | defined name params => do return .defined name (← textParts (← listPart params))
  | branchTested v => do return .branchTested (← display v) v.isTruthy
  | loopTested v => do return .loopTested (← display v) v.isTruthy
  | elementSet array index v => do return .elementSet array (← display index) (← display v)
  | methodAnswered array method v => do return .methodAnswered array method (← display v)

/-- Whether the event, if it tells a declaration, tells one that names its parameters. -/
def IsNamed : Draft → Prop
  | defined _ params => params.ListsNames
  | _ => True

/-- Whether making the event comes to an end in a state: it is made, or a value in it has no text,
or it tells a declaration whose parameters are no names. -/
inductive Ends (draft : Draft) (limits : Limits) (s : State) : Outcome Event → Prop
  | made {event : Event} (level : event.level = draft.level) : Ends draft limits s (.done event s)
  | noText {v : Value} (mem : v ∈ draft.values)
      (none : v.display? s.heap limits.textAllowance = none) :
      Ends draft limits s (.failed .textTooDeep s)
  | noNames (h : ¬draft.IsNamed) : Ends draft limits s (.failed .misshapen s)

variable {draft : Draft} {limits : Limits} {s : State}

/-- An event that shows a value is made of its text, if there is one. -/
theorem ends_display {v : Value} {next : String → Run Event} (hmem : v ∈ draft.values)
    (h : ∀ text, draft.Ends limits s (next text limits s)) :
    draft.Ends limits s ((display v >>= next) limits s) := by
  rw [bind_apply]
  unfold display
  cases htext : v.display? s.heap limits.textAllowance with
  | some text => exact h text
  | none => exact .noText hmem htext

theorem ends_calling (name : Scalar) (args : List Value) :
    (calling name args).Ends limits s ((calling name args).event limits s) := by
  rw [event, bind_apply]
  unfold displayAll
  cases htexts : args.mapM (Value.display? s.heap limits.textAllowance) with
  | some texts => exact .made rfl
  | none =>
      obtain ⟨v, hmem, hv⟩ := Value.exists_mem_display?_eq_none htexts
      exact .noText hmem hv

/-- Telling a declaration fails only if its parameters are no names. -/
theorem ends_defined (name : Scalar) (params : Tree) :
    (defined name params).Ends limits s ((defined name params).event limits s) := by
  rw [event]
  cases hitems : params.items? with
  | none =>
      have hnames : ¬params.ListsNames := fun ⟨names, hnames⟩ => by simp [hitems] at hnames
      have hfail : listPart params = fail .misshapen := by simp only [listPart, hitems]
      rw [hfail]
      exact .noNames hnames
  | some trees =>
      have hlist : listPart params = pure trees := by simp only [listPart, hitems]
      rw [hlist, pure_bind]
      rcases textParts_cases trees with ⟨names, -, hnames⟩ | ⟨hne, hfail⟩
      · rw [hnames]
        exact .made rfl
      · have hnames : ¬params.ListsNames := fun ⟨names, hnames⟩ =>
          hne names (Option.some.inj (hitems.symm.trans hnames))
        rw [hfail]
        exact .noNames hnames

/-- Making an event leaves the state alone, and fails only for want of a text or of names. -/
theorem ends_event (draft : Draft) (limits : Limits) (s : State) :
    draft.Ends limits s (draft.event limits s) := by
  cases draft with
  | executing label => exact .made rfl
  | calling name args => exact ends_calling name args
  | defined name params => exact ends_defined name params
  | elementSet array index v =>
      exact ends_display (by simp [values]) fun _ =>
        ends_display (by simp [values]) fun _ => .made rfl
  | returned | assigned | bound | branchTested | loopTested | methodAnswered =>
      exact ends_display (by simp [values]) fun _ => .made rfl

end Draft

end Sprig
