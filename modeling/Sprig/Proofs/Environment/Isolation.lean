import Sprig.Environment.History
import Sprig.Run.Fault

/-!
# The isolation of snapshots

An environment is the variables with their snapshots, over the arrays that they hold. Whatever is
done to it, a snapshot keeps what was live when it was taken, until it is restored. From then on it
is a table among others, and differs from what it kept by what is bound while it is the live one.
What is appended to an array stays there, whichever table is restored.

## Implementation notes

Tables alias, since a restored one is live itself. What has to be kept apart is therefore the table
of a snapshot and the index of the live one: they meet when that snapshot is restored, and not
before.
-/

namespace Sprig

/-- A table with some names bound, one after the other. -/
def Table.setAll {α : Type} (table : Table α) (bindings : List (Scalar × α)) : Table α :=
  bindings.foldl (fun table binding => table.set binding.1 binding.2) table

/-- Variables with their snapshots, and the arrays that they hold. -/
structure Environment where
  /-- The tables of variables. -/
  history : History
  /-- The contents of the arrays. -/
  heap : Heap

namespace Environment

/-- What can be done to an environment. -/
inductive Step
  | set (name : Scalar) (v : Value)
  | get (name : Scalar)
  | contains (name : Scalar)
  /-- Appends a value to the array that a variable holds. -/
  | push (name : Scalar) (v : Value)
  | snapshot
  | restore (number : Nat)
deriving DecidableEq

/-- What a step tells. -/
inductive Answer
  | done
  | value (v : Value)
  | truth (b : Bool)
  | number (k : Nat)
  | refused (fault : Fault)
deriving DecidableEq

/-- The environment before anything is bound, over some arrays. -/
def start (heap : Heap) : Environment := ⟨.start, heap⟩

/-- What a step tells, and the environment behind it. -/
def step (env : Environment) : Step → Answer × Environment
  | .set name v => (.done, { env with history := env.history.set name v })
  | .get name =>
    match env.history.current.get? name with
    | some v => (.value v, env)
    | none => (.refused (.undefinedVariable name), env)
  | .contains name => (.truth (env.history.current.contains name), env)
  | .push name v =>
    match env.history.current.get? name with
    | some (.array a) => (.done, { env with heap := env.heap.update a (·.push v) })
    | some _ => (.done, env)
    | none => (.refused (.undefinedVariable name), env)
  | .snapshot => (.number env.history.snapshot.1, { env with history := env.history.snapshot.2 })
  | .restore number => (.done, { env with history := env.history.restore number })

/-- The environment behind some steps. -/
def after (env : Environment) (steps : List Step) : Environment :=
  steps.foldl (fun env step => (env.step step).2) env

/-- What an array holds that is found under a name of a table. -/
def itemsUnder (env : Environment) (table : Table Value) (name : Scalar) : Option (Array Value) :=
  match table.get? name with
  | some (.array a) => some (env.heap.items a)
  | _ => none

/-- What a step binds if the table of a snapshot is the live one. -/
def boundBy (number : Nat) (env : Environment) : Step → List (Scalar × Value)
  | .set name v => if env.history.live = number + 1 then [(name, v)] else []
  | _ => []

/-- What a step appends to an array. -/
def pushedBy (a : Address) (env : Environment) : Step → List Value
  | .push name v => if env.history.current.get? name = some (.array a) then [v] else []
  | _ => []

/-- What some steps do, each taken with the environment in front of it. -/
def gather {α : Type} (of : Environment → Step → List α) : Environment → List Step → List α
  | _, [] => []
  | env, step :: steps => of env step ++ gather of (env.step step).2 steps

/-- What some steps bind while the table of a snapshot is the live one. -/
def boundIn (number : Nat) : Environment → List Step → List (Scalar × Value) :=
  gather (boundBy number)

/-- What some steps append to an array. -/
def pushedOnto (a : Address) : Environment → List Step → List Value := gather (pushedBy a)

theorem after_cons (env : Environment) (step : Step) (steps : List Step) :
    env.after (step :: steps) = (env.step step).2.after steps := rfl

theorem after_append (env : Environment) (front back : List Step) :
    env.after (front ++ back) = (env.after front).after back := List.foldl_append

/-- Whether the live table of an environment is one of those that there are. -/
def WellFormed (env : Environment) : Prop := env.history.live < env.history.tables.size

variable {env : Environment} {number : Nat} {table : Table Value} {a : Address}

theorem wellFormed_start (heap : Heap) : (start heap).WellFormed := Nat.zero_lt_one

theorem WellFormed.step (h : env.WellFormed) (step : Step) : (env.step step).2.WellFormed := by
  unfold WellFormed at h ⊢
  cases step with
  | set name v => simpa [Environment.step, History.set] using h
  | get name =>
      simp only [Environment.step]
      split <;> exact h
  | contains name => exact h
  | push name v =>
      simp only [Environment.step]
      split <;> exact h
  | snapshot =>
      simp only [Environment.step, History.snapshot, Array.size_push]
      omega
  | restore number =>
      simp only [Environment.step, History.restore]
      split
      · assumption
      · exact h

theorem WellFormed.after (h : env.WellFormed) (steps : List Step) :
    (env.after steps).WellFormed := by
  induction steps generalizing env with
  | nil => exact h
  | cons step steps ih => exact ih (h.step step)

section Kept

/-- One step changes a kept table only by what it binds while that table is the live one. -/
theorem kept_step (h : env.history.kept? number = some table) (step : Step) :
    (env.step step).2.history.kept? number = some (table.setAll (boundBy number env step)) := by
  have hlt := (Array.getElem?_eq_some_iff.mp h).1
  unfold History.kept? at h ⊢
  cases step with
  | set name v =>
      simp only [Environment.step, History.set, Array.getElem?_modify, boundBy]
      split <;> simp [h, Table.setAll]
  | get name =>
      simp only [Environment.step]
      split <;> exact h
  | contains name => exact h
  | push name v =>
      simp only [Environment.step]
      split <;> exact h
  | snapshot =>
      simp only [Environment.step, History.snapshot]
      rw [Array.getElem?_push_lt hlt, ← Array.getElem?_eq_getElem hlt]
      exact h
  | restore other =>
      simp only [Environment.step, History.restore]
      split <;> exact h

theorem kept_after (h : env.history.kept? number = some table) (steps : List Step) :
    (env.after steps).history.kept? number = some (table.setAll (boundIn number env steps)) := by
  induction steps generalizing env table with
  | nil => exact h
  | cons step steps ih =>
      rw [after_cons, ih (kept_step h step)]
      simp only [boundIn, gather, Table.setAll, List.foldl_append]

/-- While a snapshot is not restored its table is not the live one, so nothing is bound in it. -/
theorem boundIn_of_not_restored (hlive : env.history.live ≠ number + 1) {steps : List Step}
    (h : .restore number ∉ steps) : boundIn number env steps = [] := by
  induction steps generalizing env with
  | nil => rfl
  | cons step steps ih =>
      simp only [List.mem_cons, not_or] at h
      obtain ⟨hstep, hsteps⟩ := h
      have hbound : boundBy number env step = [] := by
        cases step with
        | set name v => exact if_neg hlive
        | _ => rfl
      have hnext : (env.step step).2.history.live ≠ number + 1 := by
        cases step with
        | get name | push name v =>
            simp only [Environment.step]
            split <;> exact hlive
        | restore other =>
            have hne : other ≠ number := fun heq => hstep (by rw [heq])
            simp only [Environment.step, History.restore]
            split
            · exact fun heq => hne (Nat.succ.inj heq)
            · exact hlive
        | _ => exact hlive
      rw [boundIn, gather, hbound, List.nil_append]
      exact ih hnext hsteps

end Kept

section Arrays

/-- One step changes an array only by what it appends to it. -/
theorem items_step (ha : a < env.heap.arrays.size) (step : Step) :
    (env.step step).2.heap.items a = env.heap.items a ++ (pushedBy a env step).toArray ∧
      a < (env.step step).2.heap.arrays.size := by
  cases step with
  | push name v =>
      simp only [Environment.step, pushedBy]
      split
      · next b hb =>
        refine ⟨?_, by simpa [Heap.update] using ha⟩
        by_cases hab : b = a
        · subst hab
          simp [hb, Heap.update, Heap.items, ha, Array.getElem_modify_self]
        · have hne : env.history.current.get? name ≠ some (.array a) := by simpa [hb] using hab
          simp [hne, Heap.items_update_of_ne _ hab]
      · next v hv hnone =>
        have hne : env.history.current.get? name ≠ some (.array a) := by
          rintro heq
          exact hv a (Option.some.inj (hnone.symm.trans heq))
        simp [hne, ha]
      · next hnone => simp [hnone, ha]
  | get name =>
      simp only [Environment.step]
      split <;> simp [pushedBy, ha]
  | _ => simp [Environment.step, pushedBy, ha]

theorem items_after (ha : a < env.heap.arrays.size) (steps : List Step) :
    (env.after steps).heap.items a = env.heap.items a ++ (pushedOnto a env steps).toArray ∧
      a < (env.after steps).heap.arrays.size := by
  induction steps generalizing env with
  | nil => simp [Environment.after, pushedOnto, gather, ha]
  | cons step steps ih =>
      obtain ⟨hitems, hsize⟩ := items_step ha step
      obtain ⟨hrest, hlast⟩ := ih hsize
      refine ⟨?_, hlast⟩
      rw [after_cons, hrest, hitems]
      simp [pushedOnto, gather]

end Arrays

section Snapshots

/-- Taking a snapshot tells its number, and keeps what is live. -/
theorem kept_snapshot (h : env.WellFormed) :
    (env.step .snapshot).1 = .number (env.history.tables.size - 1) ∧
    (env.step .snapshot).2.history.kept? (env.history.tables.size - 1) =
      some env.history.current ∧
    (env.step .snapshot).2.history.live ≠ env.history.tables.size - 1 + 1 := by
  have hpos : env.history.tables.size - 1 + 1 = env.history.tables.size := by
    have := Nat.lt_of_le_of_lt (Nat.zero_le _) h
    omega
  refine ⟨rfl, ?_, ?_⟩
  · simp [step, History.snapshot, History.kept?, hpos]
  · rw [hpos]
    exact Nat.ne_of_lt h

/-- What an environment tells about its variables depends on its live table only. -/
theorem answers_of_current {other : Environment}
    (h : env.history.current = other.history.current) (name : Scalar) :
    (env.step (.get name)).1 = (other.step (.get name)).1 ∧
      (env.step (.contains name)).1 = (other.step (.contains name)).1 := by
  simp only [step, h, and_true]
  split <;> rfl

/-- A snapshot that was not restored holds exactly what was live when it was taken, whatever is done
in between, and restoring it makes just that live again: names that came later are not bound any
more. In general it differs from then by what is bound while its own table is the live one, and by
nothing else. An array holds what it held and all that is appended to it, under each name of each
table that holds it. -/
theorem snapshot_isolated (heap : Heap) (before steps : List Step) :
    let taken := (start heap).after before
    let kept := (taken.step .snapshot).2
    let now := kept.after steps
    ∃ number, (taken.step .snapshot).1 = .number number ∧
      (.restore number ∉ steps →
        now.history.kept? number = some taken.history.current ∧
        (now.step (.restore number)).2.history.current = taken.history.current ∧
        ∀ name, ((now.step (.restore number)).2.step (.get name)).1 = (taken.step (.get name)).1 ∧
          ((now.step (.restore number)).2.step (.contains name)).1 =
            (taken.step (.contains name)).1) ∧
      now.history.kept? number =
        some (taken.history.current.setAll (boundIn number kept steps)) ∧
      (now.step (.restore number)).2.history.current =
        taken.history.current.setAll (boundIn number kept steps) ∧
      ∀ a, a < heap.arrays.size →
        taken.heap.items a = heap.items a ++ (pushedOnto a (start heap) before).toArray ∧
        ∀ table : Table Value, ∀ name, table.get? name = some (.array a) →
          now.itemsUnder table name =
            some (taken.heap.items a ++ (pushedOnto a kept steps).toArray) := by
  intro taken kept now
  have hstart := wellFormed_start heap
  obtain ⟨hnumber, hkept, hlive⟩ := kept_snapshot (hstart.after before)
  have hnow := kept_after hkept steps
  have hrestored := History.current_restore hnow
  refine ⟨_, hnumber, fun hnot => ?_, hnow, hrestored, fun a ha => ?_⟩
  · have hnone : boundIn _ kept steps = [] := boundIn_of_not_restored hlive hnot
    rw [hnone] at hnow hrestored
    exact ⟨hnow, hrestored, answers_of_current hrestored⟩
  · have hstarted : a < (start heap).heap.arrays.size := ha
    obtain ⟨htaken, hsize⟩ := items_after hstarted before
    refine ⟨htaken, fun table name hname => ?_⟩
    have hsize : a < kept.heap.arrays.size := hsize
    obtain ⟨hitems, -⟩ := items_after hsize steps
    simp only [itemsUnder, hname]
    exact congrArg some hitems

/-- A snapshot between two that share its arrays: the second is restored, and a third is taken while
it is live. The name that came behind the first is gone when that one is restored, and what was
appended in between is there. -/
theorem snapshot_isolated_from_another :
    let x : Scalar := .text "x"
    let y : Scalar := .text "y"
    let before : List Step := [.set x (.array 0)]
    let steps : List Step :=
      [.set y (.text "new"), .snapshot, .push x (.text "more"), .restore 1, .set x .none, .snapshot]
    let taken := (start ⟨#[#[]]⟩).after before
    let now := (taken.step .snapshot).2.after steps
    Step.restore 0 ∉ steps ∧ 0 < (Heap.mk #[#[]]).arrays.size ∧
      taken.history.current.get? x = some (.array 0) ∧
      now.history.kept? 0 = some taken.history.current ∧
      ((now.step (.restore 0)).2.step (.get y)).1 = .refused (.undefinedVariable y) ∧
      now.itemsUnder taken.history.current x = some #[.text "more"] := by
  intro x y before steps taken now
  have hnot : Step.restore 0 ∉ steps := by decide
  have hsize : 0 < (Heap.mk #[#[]]).arrays.size := by decide
  have hx : taken.history.current.get? x = some (.array 0) := rfl
  obtain ⟨number, hnumber, hisolated, -, -, harrays⟩ := snapshot_isolated ⟨#[#[]]⟩ before steps
  obtain rfl : 0 = number := Answer.number.inj hnumber
  obtain ⟨hkept, -, hanswers⟩ := hisolated hnot
  exact ⟨hnot, hsize, hx, hkept, (hanswers y).1, (harrays 0 hsize).2 _ x hx⟩

end Snapshots

end Environment

end Sprig
