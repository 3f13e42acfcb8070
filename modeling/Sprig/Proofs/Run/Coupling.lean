import Mathlib.Data.List.Forall2
import Sprig.Run.Block

/-!
# Runs side by side

Two runs of the same work go side by side as long as a relation between their states is kept: both
are done, both fail, or both are out of fuel. The first run may also stop early, with a fault that
the second does not have; from there on the second run is on its own, and what is known of it is
what every further step keeps.

## Implementation notes

A coupling fixes the limits of the two runs, since a step takes its limits from outside. Where the
second run is allowed more fuel, nothing is said once the first one is out of it.
-/

namespace Sprig

/-- What two runs that go side by side keep. -/
structure Coupling where
  /-- What the first run is bound to. -/
  first : Limits
  /-- What the second run is bound to. -/
  second : Limits
  /-- What holds of the two states between the steps. -/
  states : State → State → Prop
  /-- The faults with which both runs may fail at one place. -/
  faults : Fault → Fault → Prop
  /-- What holds of the fault and the state with which the first run stopped early, and of the state
  of the second run from then on. -/
  early : Fault → State → State → Prop
  /-- Whether the second run may have more fuel. -/
  spare : Prop
  not_early_of_spare : spare → ∀ {fault s t}, ¬early fault s t

/-- The fuel of two runs that go side by side. -/
inductive Coupling.Fuels (C : Coupling) : Nat → Nat → Prop
  | spent : C.Fuels 0 0
  | spare (h : C.spare) (fuel : Nat) : C.Fuels 0 fuel
  | succ {fuel others} (h : C.Fuels fuel others) : C.Fuels (fuel + 1) (others + 1)

/-- A second run that may have no more fuel needs nothing of a first one that stops early. -/
theorem Coupling.not_early_of_false : False → ∀ {fault : Fault} {s t : State},
    ¬(fun (_ : Fault) (_ _ : State) => False) fault s t := False.elim

/-- Two runs with the same limits, fuel and faults, of which none stops alone. -/
def Coupling.lockstep (limits : Limits) (states : State → State → Prop) : Coupling where
  first := limits
  second := limits
  states := states
  faults := Eq
  early _ _ _ := False
  spare := False
  not_early_of_spare := Coupling.not_early_of_false

namespace Outcome

variable {α β : Type}

/-- Whether a step ends in a state of a property, and with a value of another if it is done. -/
def Ends (P : α → Prop) (E : State → Prop) : Outcome α → Prop
  | .done v after => P v ∧ E after
  | .failed _ after => E after
  | .outOfFuel after => E after

theorem Ends.after {P : α → Prop} {E : State → Prop} {outcome : Outcome α} (h : outcome.Ends P E) :
    E outcome.after := by
  cases outcome with
  | done v mid => exact h.2
  | failed fault mid => exact h
  | outOfFuel mid => exact h

/-- Whether two steps ended as a coupling has it, and with related values if both are done. -/
inductive Coupled (C : Coupling) (P : α → β → Prop) : Outcome α → Outcome β → Prop
  | done {v w s t} (values : P v w) (states : C.states s t) : Coupled C P (.done v s) (.done w t)
  | failed {fault other s t} (faults : C.faults fault other) (states : C.states s t) :
      Coupled C P (.failed fault s) (.failed other t)
  | outOfFuel {s t} (states : C.states s t) : Coupled C P (.outOfFuel s) (.outOfFuel t)
  | early {fault s other} (ends : other.Ends (fun w => ∃ v, P v w) (C.early fault s)) :
      Coupled C P (.failed fault s) other
  | spare {s other} (h : C.spare) : Coupled C P (.outOfFuel s) other

end Outcome

namespace Coupling

variable (C : Coupling)

/-- The same fuel does for both runs. -/
theorem Fuels.same (fuel : Nat) : C.Fuels fuel fuel := by
  induction fuel with
  | zero => exact .spent
  | succ fuel ih => exact .succ ih

/-- More fuel does for the second run if it may have more. -/
theorem Fuels.of_le (h : C.spare) {fuel more : Nat} (hle : fuel ≤ more) : C.Fuels fuel more := by
  induction fuel generalizing more with
  | zero => exact .spare h more
  | succ fuel ih =>
      obtain ⟨more, rfl⟩ := Nat.exists_eq_add_of_le' (Nat.lt_of_lt_of_le fuel.succ_pos hle)
      exact .succ (ih (Nat.le_of_succ_le_succ hle))

end Coupling

namespace Run

variable {α β γ δ : Type} {C : Coupling} {P : α → β → Prop} {Q : γ → δ → Prop}

/-- Whether two steps go side by side. -/
structure Couples (C : Coupling) (P : α → β → Prop) (run : Run α) (other : Run β) : Prop where
  /-- From related states both end as the coupling has it. -/
  together : ∀ {s t}, C.states s t → (run C.first s).Coupled C P (other C.second t)
  /-- When the first run has stopped early, the second keeps what is known of it. -/
  behind : ∀ {fault s t}, C.early fault s t →
    (other C.second t).Ends (fun w => ∃ v, P v w) (C.early fault s)

theorem couples_pure {v : α} {w : β} (h : P v w) : Couples C P (pure v) (pure w) where
  together hs := .done h hs
  behind ht := ⟨⟨v, h⟩, ht⟩

theorem couples_fail {fault other : Fault} (h : C.faults fault other) :
    Couples C P (fail fault) (fail other) where
  together hs := .failed h hs
  behind ht := ht

theorem couples_spent : Couples C P spent spent where
  together hs := .outOfFuel hs
  behind ht := ht

/-- A first run without fuel goes along with any second run that may have more. -/
theorem couples_of_spare (h : C.spare) (other : Run β) : Couples C P spent other where
  together _ := .spare h
  behind ht := absurd ht (C.not_early_of_spare h)

section Lockstep

variable {limits : Limits} {states : State → State → Prop} {s : State} {outcome : Outcome α}
  {other : Outcome β}

/-- Where no run stops alone, nothing is to be said of a second run on its own. -/
theorem couples_lockstep {run : Run α} {other : Run β}
    (h : ∀ {s t}, states s t →
      (run limits s).Coupled (.lockstep limits states) P (other limits t)) :
    Couples (.lockstep limits states) P run other where
  together := h
  behind := False.elim

theorem coupled_after (h : outcome.Coupled (.lockstep limits states) P other) :
    states outcome.after other.after := by
  cases h with
  | done values hstates => exact hstates
  | failed faults hstates => exact hstates
  | outOfFuel hstates => exact hstates
  | early ends => exact ends.after.elim
  | spare hspare => exact hspare.elim

theorem exists_done_of_coupled {v : α}
    (h : (Outcome.done v s).Coupled (.lockstep limits states) P other) :
    ∃ w t, other = .done w t ∧ P v w ∧ states s t := by
  cases h with
  | done values hstates => exact ⟨_, _, rfl, values, hstates⟩

theorem exists_failed_of_coupled {fault : Fault}
    (h : (Outcome.failed (α := α) fault s).Coupled (.lockstep limits states) P other) :
    ∃ t, other = .failed fault t := by
  cases h with
  | failed faults hstates =>
      obtain rfl : fault = _ := faults
      exact ⟨_, rfl⟩
  | early ends => exact ends.after.elim

theorem exists_outOfFuel_of_coupled
    (h : (Outcome.outOfFuel (α := α) s).Coupled (.lockstep limits states) P other) :
    ∃ t, other = .outOfFuel t := by
  cases h with
  | outOfFuel hstates => exact ⟨_, rfl⟩
  | spare hspare => exact hspare.elim

end Lockstep

/-- What is known of a step and of the next one on each of its values is known of both together. -/
theorem ends_bind {E : State → Prop} {P : β → Prop} {Q : δ → Prop} {limits : Limits} {t : State}
    {other : Run β} {others : β → Run δ} (h : (other limits t).Ends P E)
    (hnext : ∀ w t, P w → E t → (others w limits t).Ends Q E) :
    ((other >>= others) limits t).Ends Q E := by
  rw [bind_apply]
  cases hother : other limits t with
  | done w mid =>
      rw [hother] at h
      exact hnext w mid h.1 h.2
  | failed fault mid =>
      rw [hother] at h
      exact h
  | outOfFuel mid =>
      rw [hother] at h
      exact h

/-- One step after the other goes side by side when both do. -/
theorem couples_bind {run : Run α} {other : Run β} {next : α → Run γ} {others : β → Run δ}
    (h : Couples C P run other) (hnext : ∀ v w, P v w → Couples C Q (next v) (others w)) :
    Couples C Q (run >>= next) (other >>= others) where
  together {s t} hs := by
    have hfirst := h.together hs
    rw [bind_apply run next]
    generalize run C.first s = outcome at hfirst
    generalize hother : other C.second t = outcome' at hfirst
    cases hfirst with
    | done values states =>
        rw [bind_apply, hother]
        exact (hnext _ _ values).together states
    | failed faults states =>
        rw [bind_apply, hother]
        exact .failed faults states
    | outOfFuel states =>
        rw [bind_apply, hother]
        exact .outOfFuel states
    | early ends =>
        rw [← hother] at ends
        exact .early (ends_bind ends fun w t ⟨v, hv⟩ ht => (hnext v w hv).behind ht)
    | spare hspare => exact .spare hspare
  behind ht := ends_bind (h.behind ht) fun w t ⟨v, hv⟩ ht => (hnext v w hv).behind ht

/-- One step after the other, when the first of them gives both runs the same value. -/
theorem couples_next {run other : Run α} {next : α → Run γ} {others : α → Run δ}
    (h : Couples C Eq run other) (hnext : ∀ v, Couples C Q (next v) (others v)) :
    Couples C Q (run >>= next) (other >>= others) := by
  apply couples_bind h
  rintro v _ rfl
  exact hnext v

theorem couples_lift {result : Except Fault α}
    (h : ∀ fault, result = .error fault → C.faults fault fault) :
    Couples C Eq (lift result) (lift result) := by
  cases result with
  | ok v => exact couples_pure rfl
  | error fault => exact couples_fail (h fault rfl)

section Sequences

variable {statement statement' : Tree → Run Completion} {value value' : Tree → Run Value}

/-- Blocks go side by side when their statements do. -/
theorem couples_block {trees others : List Tree}
    (h : List.Forall₂ (fun tree other => Couples C Eq (statement tree) (statement' other)) trees
      others) (last : Completion) :
    Couples C Eq (block statement last trees) (block statement' last others) := by
  induction h generalizing last with
  | nil => exact couples_pure rfl
  | cons head _ ih =>
      apply couples_next head
      intro completion
      split
      · exact couples_pure rfl
      · exact ih completion

/-- Loops go side by side when their tests and their bodies do. -/
theorem couples_repeatWhile {test test' : Run Bool} {body body' : Run Completion}
    (htest : Couples C Eq test test') (hbody : Couples C Eq body body') {fuel fuel' : Nat}
    (hfuel : C.Fuels fuel fuel') (last : Completion) :
    Couples C Eq (repeatWhile test body fuel last) (repeatWhile test' body' fuel' last) := by
  induction hfuel generalizing last with
  | spent => exact couples_spent
  | spare h fuel => exact couples_of_spare h _
  | succ _ ih =>
      apply couples_next htest
      intro again
      split
      · apply couples_next hbody
        intro completion
        split
        · exact couples_pure rfl
        · exact ih completion
      · exact couples_pure rfl

/-- Lists of values are made side by side when each of their values is. -/
theorem couples_values_of {R : Value → Value → Prop} {trees others : List Tree}
    (h : List.Forall₂ (fun tree other => Couples C R (value tree) (value' other)) trees others) :
    Couples C (List.Forall₂ R) (values value trees) (values value' others) := by
  induction h with
  | nil => exact couples_pure .nil
  | cons head _ ih =>
      apply couples_bind head
      intro v w hfirst
      apply couples_bind ih
      exact fun vs ws hrest => couples_pure (.cons hfirst hrest)

theorem couples_values {trees others : List Tree}
    (h : List.Forall₂ (fun tree other => Couples C Eq (value tree) (value' other)) trees others) :
    Couples C Eq (values value trees) (values value' others) := by
  simpa only [List.forall₂_eq_eq_eq] using couples_values_of h

end Sequences

end Run

end Sprig
