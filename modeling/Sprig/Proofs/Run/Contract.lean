import Sprig.Run.Block
import Sprig.Run.Element

/-!
# Contracts of steps

A contract says what holds of the state between the steps of a run, what holds of it when a step
stops early, and with which faults a step may fail. A step meets a contract with a property of
values when it keeps what holds and is done with such a value, or stops as the contract allows.

## Implementation notes

A contract does not speak of the depth, of what was printed or of the trace. So printing, noting an
event and working on a node inside of another meet every contract that their parts meet.
-/

namespace Sprig

/-- What a run keeps and how it may stop. -/
structure Contract where
  /-- What holds of the state between the steps. -/
  holds : State → Prop
  /-- What holds of the state when a step stops early. -/
  stops : State → Prop
  /-- The faults that a step may fail with. -/
  allows : Fault → Prop
  stops_of_holds : ∀ {s}, holds s → stops s
  holds_of_same : ∀ (s : State) {t : State}, t.bindings = s.bindings → t.functions = s.functions →
    t.heap = s.heap → holds s → holds t
  stops_of_same : ∀ (s : State) {t : State}, t.bindings = s.bindings → t.functions = s.functions →
    t.heap = s.heap → stops s → stops t

/-- Whether a step ended as a contract has it, and with a value of a property if it is done. -/
def Outcome.Meets {α : Type} (C : Contract) (P : α → Prop) : Outcome α → Prop
  | .done v after => P v ∧ C.holds after
  | .failed fault after => C.allows fault ∧ C.stops after
  | .outOfFuel after => C.stops after

namespace Run

instance : LawfulMonad Run := by
  refine LawfulMonad.mk' Run ?_ ?_ ?_
  · intro α run
    funext limits s
    change (run >>= fun a => pure a) limits s = run limits s
    rw [bind_apply]
    cases run limits s <;> rfl
  · intro α β a next
    rfl
  · intro α β γ first next last
    funext limits s
    simp only [bind_apply]
    cases first limits s <;> rfl

variable {α β : Type} {C : Contract} {P : α → Prop} {Q : β → Prop}

theorem bind_of_done {first : Run α} {next : α → Run β} {limits : Limits} {s t : State} {v : α}
    (h : first limits s = .done v t) : (first >>= next) limits s = next v limits t := by
  rw [bind_apply, h]

theorem bind_of_failed {first : Run α} {next : α → Run β} {limits : Limits} {s t : State}
    {fault : Fault} (h : first limits s = .failed fault t) :
    (first >>= next) limits s = .failed fault t := by
  rw [bind_apply, h]

/-- What is done after two steps is done by the second one, from where the first one was done. -/
theorem exists_of_bind {first : Run α} {next : α → Run β} {limits : Limits} {s t : State} {v : β}
    (h : (first >>= next) limits s = .done v t) :
    ∃ a mid, first limits s = .done a mid ∧ next a limits mid = .done v t := by
  rw [bind_apply] at h
  cases hfirst : first limits s with
  | done a mid =>
      rw [hfirst] at h
      exact ⟨a, mid, rfl, h⟩
  | failed fault mid =>
      rw [hfirst] at h
      cases h
  | outOfFuel mid =>
      rw [hfirst] at h
      cases h

/-- Whether a step keeps a contract from every state that it holds of. -/
def Meets (C : Contract) (P : α → Prop) (run : Run α) : Prop :=
  ∀ limits s, C.holds s → (run limits s).Meets C P

theorem Meets.of_done {run : Run α} {limits : Limits} {s t : State} {v : α} (h : Meets C P run)
    (hs : C.holds s) (hdone : run limits s = .done v t) : P v ∧ C.holds t := by
  have hrun := h limits s hs
  rw [hdone] at hrun
  exact hrun

theorem meets_pure {v : α} (h : P v) : Meets C P (pure v) := fun _ _ hs => ⟨h, hs⟩

theorem meets_fail {fault : Fault} (h : C.allows fault) : Meets C P (fail fault) :=
  fun _ _ hs => ⟨h, C.stops_of_holds hs⟩

theorem meets_spent : Meets C P spent := fun _ _ hs => C.stops_of_holds hs

/-- One step after the other meets a contract from a state, when the first one does, and the next
one does from where the first one is done. -/
theorem meets_bind_at {first : Run α} {next : α → Run β} {limits : Limits} {s : State}
    (hfirst : (first limits s).Meets C P)
    (hnext : ∀ a t, first limits s = .done a t → P a → C.holds t → (next a limits t).Meets C Q) :
    ((first >>= next) limits s).Meets C Q := by
  rw [bind_apply]
  cases hout : first limits s with
  | done a mid =>
      rw [hout] at hfirst
      exact hnext a mid hout hfirst.1 hfirst.2
  | failed fault after =>
      rw [hout] at hfirst
      exact hfirst
  | outOfFuel after =>
      rw [hout] at hfirst
      exact hfirst

/-- One step after the other meets a contract when both do. -/
theorem meets_bind {first : Run α} {next : α → Run β} (hfirst : Meets C P first)
    (hnext : ∀ a, P a → Meets C Q (next a)) : Meets C Q (first >>= next) :=
  fun limits s hs => meets_bind_at (hfirst limits s hs) fun a t _ ha ht => hnext a ha limits t ht

theorem meets_read {part : State → α} (h : ∀ s, C.holds s → P (part s)) :
    Meets C P (read part) := fun _ s hs => ⟨h s hs, hs⟩

theorem meets_change {f : State → State} (h : ∀ s, C.holds s → C.holds (f s)) :
    Meets C (fun _ => True) (change f) := fun _ s hs => ⟨trivial, h s hs⟩

theorem meets_lift {result : Except Fault α} (hok : ∀ v, result = .ok v → P v)
    (herror : ∀ fault, result = .error fault → C.allows fault) : Meets C P (lift result) := by
  cases result with
  | ok v => exact meets_pure (hok v rfl)
  | error fault => exact meets_fail (herror fault rfl)

theorem meets_display (h : C.allows .textTooDeep) (v : Value) :
    Meets C (fun _ => True) (display v) := by
  intro limits s hs
  unfold display
  split
  · exact ⟨trivial, hs⟩
  · exact ⟨h, C.stops_of_holds hs⟩

theorem meets_displayAll (h : C.allows .textTooDeep) (vs : List Value) :
    Meets C (fun _ => True) (displayAll vs) := by
  intro limits s hs
  unfold displayAll
  split
  · exact ⟨trivial, hs⟩
  · exact ⟨h, C.stops_of_holds hs⟩

theorem meets_printLine (text : String) : Meets C (fun _ => True) (printLine text) :=
  meets_change fun s hs => C.holds_of_same s rfl rfl rfl hs

/-- Noting an event meets every contract that making the event does. -/
theorem meets_note {level : Nat} {event : Run Event} (h : Meets C (fun _ => True) event) :
    Meets C (fun _ => True) (note level event) := by
  intro limits s hs
  unfold note
  split
  · exact ⟨trivial, hs⟩
  · refine meets_bind h (fun e _ => ?_) limits s hs
    exact meets_change fun s hs => C.holds_of_same s rfl rfl rfl hs

/-- Working on a node meets a contract from a state, when working on its parts does from there. -/
theorem meets_nested_at {kind : NodeKind} {work : Run α} {limits : Limits} {s : State}
    (hdepth : ∀ limit, C.allows (.depthExceeded limit kind)) (hs : C.holds s)
    (h : (s.depth : Int) + 1 ≤ limits.depth → C.holds { s with depth := s.depth + 1 } →
      (work limits { s with depth := s.depth + 1 }).Meets C P) :
    (nested kind work limits s).Meets C P := by
  unfold nested
  split
  · exact ⟨hdepth _, C.stops_of_holds hs⟩
  · next hle =>
    have hinner := h (by omega) (C.holds_of_same s rfl rfl rfl hs)
    cases hout : work limits { s with depth := s.depth + 1 } with
    | done v after =>
        rw [hout] at hinner
        exact ⟨hinner.1, C.holds_of_same after rfl rfl rfl hinner.2⟩
    | failed fault after =>
        rw [hout] at hinner
        exact ⟨hinner.1, C.stops_of_same after rfl rfl rfl hinner.2⟩
    | outOfFuel after =>
        rw [hout] at hinner
        exact hinner

/-- Working on a node meets the contract that working on its parts does. -/
theorem meets_nested {kind : NodeKind} {work : Run α}
    (hdepth : ∀ limit, C.allows (.depthExceeded limit kind)) (h : Meets C P work) :
    Meets C P (nested kind work) :=
  fun limits _ hs => meets_nested_at hdepth hs fun _ hinner => h limits _ hinner

section Sequences

variable {statement : Tree → Run Completion} {value : Tree → Run Value} {R : Completion → Prop}
  {V : Value → Prop}

/-- A block meets a contract when its statements do. -/
theorem meets_block {trees : List Tree} (h : ∀ tree ∈ trees, Meets C R (statement tree))
    {last : Completion} (hlast : R last) : Meets C R (block statement last trees) := by
  induction trees generalizing last with
  | nil => exact meets_pure hlast
  | cons tree trees ih =>
      apply meets_bind (h tree (by simp))
      intro completion hcompletion
      split
      · exact meets_pure hcompletion
      · exact ih (fun t ht => h t (by simp [ht])) hcompletion

/-- A loop meets a contract when its test and its body do, however many rounds it makes. -/
theorem meets_repeatWhile {test : Run Bool} {body : Run Completion}
    (htest : Meets C (fun _ => True) test) (hbody : Meets C R body) (fuel : Nat)
    {last : Completion} (hlast : R last) : Meets C R (repeatWhile test body fuel last) := by
  induction fuel generalizing last with
  | zero => exact meets_spent
  | succ fuel ih =>
      apply meets_bind htest
      intro again _
      split
      · apply meets_bind hbody
        intro completion hcompletion
        split
        · exact meets_pure hcompletion
        · exact ih hcompletion
      · exact meets_pure hlast

theorem meets_values {trees : List Tree} (h : ∀ tree ∈ trees, Meets C V (value tree)) :
    Meets C (fun vs => ∀ v ∈ vs, V v) (values value trees) := by
  induction trees with
  | nil => exact meets_pure (by simp)
  | cons tree trees ih =>
      apply meets_bind (h tree (by simp))
      intro first hfirst
      apply meets_bind (ih fun t ht => h t (by simp [ht]))
      intro rest hrest
      apply meets_pure
      intro v hv
      rcases List.mem_cons.mp hv with rfl | hv
      · exact hfirst
      · exact hrest v hv

end Sequences

end Run

end Sprig
