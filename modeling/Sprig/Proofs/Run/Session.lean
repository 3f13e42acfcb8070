import Mathlib
import Sprig.Proofs.Grammar.Shape
import Sprig.Proofs.Run.Visit

/-!
# Sessions

An interpreter can be given one text after the other. Each text that is parsed runs in the state in
which the one before it stopped, whether that one was done or failed. What a program leaves behind,
functions included, is as the next program needs it. So no text fails in another way than the
language has, and no value in the state is a bare integer.
-/

namespace Sprig.Run

open Contract

/-- The states in which an interpreter can be given the next text. -/
inductive Session (limits : Limits) : State → Prop
  | start : Session limits .start
  | next {text trees s} (session : Session limits s) (parsed : Parse.source text = .ok trees)
      (fuel : Nat) : Session limits (program fuel trees limits s).after

variable {limits : Limits} {s : State} {text : String} {trees : List Tree}

/-- A program that was parsed leaves a well-formed state behind, however it ends. -/
theorem wellFormed_after_program (fuel : Nat) (htrees : Tree.IsProgram trees) (hs : s.WellFormed) :
    (program fuel trees limits s).after.WellFormed := by
  by_cases hlimit : limits.depth ≤ greatestDepth
  · have hrun := meets_program fuel htrees hlimit hs
    cases hout : program fuel trees limits s with
    | done v after =>
        rw [hout] at hrun
        exact hrun.2
    | failed fault after =>
        rw [hout] at hrun
        exact hrun.2
    | outOfFuel after =>
        rw [hout] at hrun
        exact hrun
  · have hout : program fuel trees limits s = .failed .limitTooLarge s := by
      unfold program
      rw [if_pos (by omega)]
    rw [hout]
    exact hs

/-- Between two texts the state is well formed. -/
theorem wellFormed_of_session (h : Session limits s) : s.WellFormed := by
  induction h with
  | start => exact State.wellFormed_start
  | next _ parsed fuel ih =>
      exact wellFormed_after_program fuel (Grammar.isProgram_of_source parsed) ih

/-- A text that is parsed ends with a proper value or one of the seven kinds of faults. At every
point of its run the state is well formed, and whatever the run works on there ends in the same way
as the whole. -/
theorem safe_of_session (hlimit : limits.depth ≤ greatestDepth) (hsession : Session limits s)
    (hparsed : Parse.source text = .ok trees) :
    (∀ fuel v after, program fuel trees limits s = .done v after →
      v.IsProper ∧ after.WellFormed) ∧
    (∀ fuel fault after, program fuel trees limits s = .failed fault after →
      fault.IsExpected ∧ after.WellFormed) ∧
    ∀ piece t, Visits limits (.program trees) s piece t →
      t.WellFormed ∧ ∀ fuel, (job fuel piece limits t).Meets wellFormed Value.IsProper := by
  have hs := wellFormed_of_session hsession
  have htrees := Grammar.isProgram_of_source hparsed
  refine ⟨?_, ?_, ?_⟩
  · intro fuel v after hdone
    have hrun := meets_program fuel htrees hlimit hs
    rw [hdone] at hrun
    exact hrun
  · intro fuel fault after hfailed
    have hrun := meets_program fuel htrees hlimit hs
    rw [hfailed] at hrun
    exact hrun
  · intro piece t hvisits
    obtain ⟨hshape, ht⟩ := isShaped_of_visits hvisits htrees hs
    exact ⟨ht, fun fuel => meets_job fuel hshape limits t ht⟩

/-- A text can call a function that an earlier text declared before it failed. -/
theorem safe_of_later_call :
    let first : List Tree := [
      .functionDeclaration (.text "f") (.list [.text "x"])
        (.list [.returnStatement (.arrayLiteral (.list [.variable (.text "x")]))]),
      .print (.variable (.text "z"))]
    let second : List Tree := [.assignment (.text "y")
      (.call (.text "f") (.list [.boolean (.scalar (.boolean true))]))]
    Parse.source "f(x) { return [x] } print(z)" = .ok first ∧
      Parse.source "y = f(true)" = .ok second ∧
      ∀ v after, program 9 second ⟨1500, 0⟩ (program 9 first ⟨1500, 0⟩ .start).after =
        .done v after → v.IsProper ∧ after.WellFormed := by
  intro first second
  have hfirst : Parse.source "f(x) { return [x] } print(z)" = .ok first := by cbv
  have hsecond : Parse.source "y = f(true)" = .ok second := by cbv
  have hsession : Session ⟨1500, 0⟩ (program 9 first ⟨1500, 0⟩ .start).after :=
    .next .start hfirst 9
  exact ⟨hfirst, hsecond, (safe_of_session (by decide) hsession hsecond).1 9⟩

end Sprig.Run
