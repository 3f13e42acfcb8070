import Sprig.Proofs.Run.Limits
import Sprig.Proofs.Run.Work

/-!
# Steps with more fuel

A step extends another one when it ends in the same way wherever the other one does not run out of
fuel. What is made of steps is extended by what is made of steps that extend them. So everything
that the interpreter does is extended by itself with more fuel.
-/

namespace Sprig.Run

variable {α β : Type} {fuel more : Nat}

/-- Whether another step ends as a step does, unless that one runs out of fuel. -/
def Extends (run other : Run α) : Prop :=
  ∀ limits s, (∀ t, run limits s ≠ .outOfFuel t) → other limits s = run limits s

section Steps

theorem Extends.refl (run : Run α) : Extends run run := fun _ _ _ => rfl

theorem extends_spent (other : Run α) : Extends spent other := fun _ s h => absurd rfl (h s)

theorem extends_bind {run other : Run α} {next others : α → Run β} (h : Extends run other)
    (hnext : ∀ v, Extends (next v) (others v)) : Extends (run >>= next) (other >>= others) := by
  intro limits s hends
  have hrun := h limits s
  rw [bind_apply] at hends ⊢
  rw [bind_apply]
  cases hout : run limits s with
  | done v mid =>
      rw [hout] at hrun hends
      rw [hrun (by simp)]
      exact hnext v limits mid hends
  | failed fault mid =>
      rw [hout] at hrun
      rw [hrun (by simp)]
  | outOfFuel mid =>
      rw [hout] at hends
      exact absurd rfl (hends mid)

theorem extends_values {value value' : Tree → Run Value}
    (h : ∀ tree, Extends (value tree) (value' tree)) (trees : List Tree) :
    Extends (values value trees) (values value' trees) := by
  induction trees with
  | nil => exact .refl _
  | cons tree trees ih =>
      exact extends_bind (h tree) fun _ => extends_bind ih fun _ => .refl _

theorem extends_block {statement statement' : Tree → Run Completion}
    (h : ∀ tree, Extends (statement tree) (statement' tree)) (last : Completion)
    (trees : List Tree) : Extends (block statement last trees) (block statement' last trees) := by
  induction trees generalizing last with
  | nil => exact .refl _
  | cons tree trees ih =>
      refine extends_bind (h tree) fun completion => ?_
      split
      · exact .refl _
      · exact ih completion

theorem extends_repeatWhile {test test' : Run Bool} {body body' : Run Completion}
    (htest : Extends test test') (hbody : Extends body body') {rounds others : Nat}
    (hle : rounds ≤ others) (last : Completion) :
    Extends (repeatWhile test body rounds last) (repeatWhile test' body' others last) := by
  induction rounds generalizing others last with
  | zero => exact extends_spent _
  | succ rounds ih =>
      obtain ⟨others, rfl⟩ := Nat.exists_eq_add_of_le' (Nat.lt_of_lt_of_le rounds.succ_pos hle)
      refine extends_bind htest fun again => ?_
      split
      · refine extends_bind hbody fun completion => ?_
        split
        · exact .refl _
        · exact ih (Nat.le_of_succ_le_succ hle) completion
      · exact .refl _

end Steps

section Interpreter

variable (hle : fuel ≤ more)
include hle

theorem extends_evaluate (tree : Tree) : Extends (evaluate fuel tree) (evaluate more tree) := by
  intro limits s hends
  have hpaired : Paired (refueled limits) s.trace.toList fuel more :=
    paired_of_fuels trivial (.of_le _ trivial hle)
  exact eq_of_coupled ((hpaired.evaluate False.elim).together (.refl False.elim)) hends

theorem extends_execute (tree : Tree) : Extends (execute fuel tree) (execute more tree) := by
  intro limits s hends
  have hpaired : Paired (refueled limits) s.trace.toList fuel more :=
    paired_of_fuels trivial (.of_le _ trivial hle)
  exact eq_of_coupled ((hpaired.execute False.elim).together (.refl False.elim)) hends

theorem extends_test (event : String → Bool → Event) (condition : Tree) :
    Extends (test fuel event condition) (test more event condition) :=
  extends_bind (extends_evaluate hle condition) fun _ => .refl _

theorem extends_blockPart (body : Tree) :
    Extends (do block (execute fuel) (plain .none) (← listPart body))
      (do block (execute more) (plain .none) (← listPart body)) :=
  extends_bind (.refl _) fun trees => extends_block (extends_execute hle) _ trees

theorem extends_branchOf (condition ifBlock elseBlock : Tree) :
    Extends (branchOf fuel condition ifBlock elseBlock)
      (branchOf more condition ifBlock elseBlock) :=
  extends_bind (extends_test hle _ condition) fun _ => .refl _

theorem extends_calleeOf (name args : Tree) :
    Extends (calleeOf fuel name args) (calleeOf more name args) := by
  refine extends_bind (.refl _) fun word => extends_bind (.refl _) fun function? => ?_
  cases function? with
  | none => exact .refl _
  | some function =>
      refine extends_bind (.refl _) fun trees => ?_
      exact extends_bind (extends_values (extends_evaluate hle) trees) fun _ => .refl _

/-- A statement of a program, with the event that it notes. -/
theorem extends_topStatement (tree : Tree) :
    Extends (do
      note 1 (return .executing tree.label)
      return (← execute fuel tree).value) (do
      note 1 (return .executing tree.label)
      return (← execute more tree).value) :=
  extends_bind (.refl _) fun _ => extends_bind (extends_execute hle tree) fun _ => .refl _

theorem extends_statements (trees : List Tree) :
    Extends (statements fuel trees) (statements more trees) := by
  unfold statements
  generalize Value.none = last
  induction trees generalizing last with
  | nil => exact .refl _
  | cons tree trees ih =>
      simp only [List.foldlM_cons]
      exact extends_bind (extends_topStatement hle tree) ih

end Interpreter

/-- The work of a task. -/
def work (fuel : Nat) : Task → Run Unit
  | .program trees => do let _ ← statements fuel trees
  | .block trees => do let _ ← block (execute fuel) (plain .none) trees
  | .statement tree => do let _ ← execute fuel tree
  | .expression tree => do let _ ← evaluate fuel tree
  | .operands trees => do let _ ← values (evaluate fuel) trees
  | .loop condition body => do
    let round : Run Completion := do block (execute fuel) (plain .none) (← listPart body)
    let _ ← repeatWhile (test fuel .loopTested condition) round fuel (plain .none)

theorem extends_work (hle : fuel ≤ more) (task : Task) : Extends (work fuel task) (work more task) := by
  cases task with
  | program trees => exact extends_bind (extends_statements hle trees) fun _ => .refl _
  | block trees => exact extends_bind (extends_block (extends_execute hle) _ trees) fun _ => .refl _
  | statement tree => exact extends_bind (extends_execute hle tree) fun _ => .refl _
  | expression tree => exact extends_bind (extends_evaluate hle tree) fun _ => .refl _
  | operands trees =>
      exact extends_bind (extends_values (extends_evaluate hle) trees) fun _ => .refl _
  | loop condition body =>
      exact extends_bind (extends_repeatWhile (extends_test hle _ condition)
        (extends_blockPart hle body) hle _) fun _ => .refl _

end Sprig.Run
