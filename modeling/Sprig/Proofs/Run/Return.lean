import Sprig.Proofs.Run.Exit
import Sprig.Proofs.Run.Visit

/-!
# Telling that a `return` is under way is leaving by it

Statements tell whether a `return` is under way, and blocks, branches and loops hand it on until a
call or the program drops it. A run in which a `return` is an ending of its own goes the same way:
from every state it ends with the same value or fault, in the same state, or neither ends.

So when the run of a body comes to a `return`, in whatever branches and loops, the body ends there:
nothing that is behind the `return` has a part in how it ends.

## Implementation notes

Both runs spend fuel at the same places, so they are compared for each amount of fuel, and no run
has to be shown to end.
-/

namespace Sprig

namespace Exiting

open Run (plain)

/-- Within an amount of fuel the two ways of running agree on every tree. -/
structure Agrees (fuel : Nat) : Prop where
  evaluate : ∀ tree, evaluate fuel tree = ofRun (Run.evaluate fuel tree)
  callMethod : ∀ array method args,
    callMethod fuel array method args = ofRun (Run.callMethod fuel array method args)
  execute : ∀ tree, execute fuel tree = ofCompletion (Run.execute fuel tree)

namespace Agrees

variable {fuel : Nat}

theorem values (h : Agrees fuel) (trees : List Tree) :
    Exiting.values (Exiting.evaluate fuel) trees =
      ofRun (Run.values (Run.evaluate fuel) trees) := by
  rw [ofRun_values]
  congr 1
  funext tree
  exact h.evaluate tree

theorem block (h : Agrees fuel) (v : Value) (trees : List Tree) :
    Exiting.block (Exiting.execute fuel) v trees =
      ofCompletion (Run.block (Run.execute fuel) (plain v) trees) := by
  rw [ofCompletion_block]
  congr 1
  funext tree
  exact h.execute tree

theorem evaluate_succ (h : Agrees fuel) (tree : Tree) :
    Exiting.evaluate (fuel + 1) tree = ofRun (Run.evaluate (fuel + 1) tree) := by
  cases tree <;>
    simp only [Exiting.evaluate, Run.evaluate, liftM_eq, ofRun_nested, ofRun_bind, ofRun_pure,
      h.values, h.evaluate, h.callMethod, h.block, catchReturn_ofCompletion]
  case call name args =>
    congr 2
    funext name
    congr 1
    funext function?
    cases function? with
    | none => rfl
    | some function => simp only [ofRun_bind, ofRun_pure, bind_assoc, pure_bind]

theorem callMethod_succ (h : Agrees fuel) (array method args : Tree) :
    Exiting.callMethod (fuel + 1) array method args =
      ofRun (Run.callMethod (fuel + 1) array method args) := by
  simp only [Exiting.callMethod, Run.callMethod, liftM_eq, ofRun_bind, ofRun_pure, h.values]

theorem execute_succ (h : Agrees fuel) (tree : Tree) :
    Exiting.execute (fuel + 1) tree = ofCompletion (Run.execute (fuel + 1) tree) := by
  cases tree <;>
    simp only [Exiting.execute, Run.execute, liftM_eq, ofCompletion_nested, ofCompletion_bind,
      ofCompletion_plain, ofCompletion_fail, bind_pure, h.evaluate, h.callMethod, h.block]
  case ifStatement condition ifBlock elseBlock =>
    have hother : ∀ other : Tree, (do
        ofCompletion (Run.block (Run.execute fuel) (plain .none) (← ofRun (Run.listPart other)))) =
        ofCompletion (do
          Run.block (Run.execute fuel) (plain .none) (← Run.listPart other)) :=
      fun other => (ofCompletion_bind _ _).symm
    congr 2
    funext v
    congr 1
    funext _
    split
    · rw [ofCompletion_bind]
    · cases elseBlock with
      | scalar value =>
          cases value with
          | none => rfl
          | _ => exact hother _
      | _ => exact hother _
  case whileStatement condition body =>
    simp only [ofCompletion_repeatWhile, ofCompletion_bind, ofRun_bind, ofRun_pure]
  case returnStatement value =>
    have hvalue : ∀ value : Tree, (do giveBack (← ofRun (Run.evaluate fuel value))) =
        ofCompletion (do return ⟨← Run.evaluate fuel value, true⟩) := by
      intro value
      rw [ofCompletion_bind]
      rfl
    congr 1
    cases value with
    | scalar value =>
        cases value with
        | none => rfl
        | _ => exact hvalue _
    | _ => exact hvalue _

end Agrees

theorem agrees (fuel : Nat) : Agrees fuel := by
  induction fuel with
  | zero =>
      refine ⟨?_, ?_, ?_⟩
      · intro tree
        rw [evaluate, Run.evaluate, ofRun_spent]
      · intro array method args
        rw [callMethod, Run.callMethod, ofRun_spent]
      · intro tree
        rw [execute, Run.execute, ofCompletion_spent]
  | succ fuel ih => exact ⟨ih.evaluate_succ, ih.callMethod_succ, ih.execute_succ⟩

theorem statements_eq (fuel : Nat) (trees : List Tree) :
    statements fuel trees = ofRun (Run.statements fuel trees) := by
  rw [statements, Run.statements, ofRun_foldlM]
  congr 1
  funext _ tree
  simp only [(agrees fuel).execute, catchReturn_ofCompletion, ofRun_bind, liftM_eq]

theorem program_eq (fuel : Nat) (trees : List Tree) :
    program fuel trees = ofRun (Run.program fuel trees) := by
  funext limits s
  rw [program, ofRun, Run.program]
  split
  · rfl
  · rw [statements_eq, ofRun]

end Exiting

/-- A state outside of some of the nodes that are being worked on. -/
def State.outOf (levels : Nat) (s : State) : State := { s with depth := s.depth - levels }

theorem State.outOf_succ (levels : Nat) (s : State) :
    s.outOf (levels + 1) = (s.outOf levels).outOf 1 := rfl

namespace Run

/-- Which rounds a loop makes that do not return, up to the start of one more. -/
inductive Rounds (limits : Limits) (test : Run Bool) (body : Run Completion) :
    (fuel : Nat) → State → State → Prop
  | next {fuel s t} (holds : test limits s = .done true t) : Rounds limits test body (fuel + 1) s t
  | again {fuel v s t u w} (holds : test limits s = .done true t)
      (round : body limits t = .done (plain v) u) (rounds : Rounds limits test body fuel u w) :
      Rounds limits test body (fuel + 1) s w

/-- Which statements the run of a body comes to without a call, how many branches and loops these
are in, and with what fuel and in which states it comes to them. -/
inductive Reaches (limits : Limits) :
    (fuel : Nat) → List Tree → State → (levels inner : Nat) → Tree → State → Prop
  | first {fuel tree rest s} : Reaches limits fuel (tree :: rest) s 0 fuel tree s
  | later {fuel tree rest v s t levels inner target u}
      (before : execute fuel tree limits s = .done (plain v) t)
      (reaches : Reaches limits fuel rest t levels inner target u) :
      Reaches limits fuel (tree :: rest) s levels inner target u
  | ifBlock {fuel condition body other rest s mid t levels inner target u}
      (enters : s.Enters limits mid)
      (tested : test fuel .branchTested condition limits mid = .done true t)
      (reaches : Reaches limits fuel body t levels inner target u) :
      Reaches limits (fuel + 1) (.ifStatement condition (.list body) other :: rest) s
        (levels + 1) inner target u
  | elseBlock {fuel condition body other rest s mid t levels inner target u}
      (enters : s.Enters limits mid)
      (tested : test fuel .branchTested condition limits mid = .done false t)
      (reaches : Reaches limits fuel other t levels inner target u) :
      Reaches limits (fuel + 1) (.ifStatement condition (.list body) (.list other) :: rest) s
        (levels + 1) inner target u
  | loop {fuel condition body rest s mid t levels inner target u}
      (enters : s.Enters limits mid)
      (rounds : Rounds limits (test fuel .loopTested condition)
        (block (execute fuel) (plain .none) body) fuel mid t)
      (reaches : Reaches limits fuel body t levels inner target u) :
      Reaches limits (fuel + 1) (.whileStatement condition (.list body) :: rest) s
        (levels + 1) inner target u

variable {limits : Limits} {fuel : Nat} {s t : State}

theorem nested_of_enters {α : Type} {kind : NodeKind} {work : Run α} {mid : State} {a : α}
    (enters : s.Enters limits mid) (hwork : work limits mid = .done a t) :
    nested kind work limits s = .done a (t.outOf 1) := by
  obtain ⟨hdepth, rfl⟩ := enters
  rw [nested, if_neg (by omega), hwork, State.outOf]

/-- The `else` part of a branch may be missing, and has no part in one that is not taken. -/
theorem execute_branch (fuel : Nat) (condition : Tree) (body : List Tree) (other : Tree) :
    execute (fuel + 1) (.ifStatement condition (.list body) other) = nested .ifStatement (do
      if ← test fuel .branchTested condition then block (execute fuel) (plain .none) body
      else match other with
        | .scalar .none => return plain .none
        | other => block (execute fuel) (plain .none) (← listPart other)) := by
  cases other with
  | scalar value => cases value <;> simp only [execute, test, bind_assoc, pure_bind, listPart_list]
  | _ => simp only [execute, test, bind_assoc, pure_bind, listPart_list]

theorem returning_of_returnStatement {value : Tree} {completion : Completion}
    (h : execute fuel (.returnStatement value) limits s = .done completion t) :
    completion.returning = true := by
  cases fuel with
  | zero => cases h
  | succ fuel =>
      simp only [execute, nested] at h
      split at h
      · cases h
      · split at h <;> cases h
        rename_i hwork
        split at hwork
        · cases hwork
          rfl
        · rw [bind_apply] at hwork
          split at hwork <;> cases hwork
          rfl

theorem block_of_returning {tree : Tree} {completion : Completion} (last : Completion)
    (rest : List Tree) (h : execute fuel tree limits s = .done completion t)
    (hreturning : completion.returning = true) :
    block (execute fuel) last (tree :: rest) limits s = .done completion t := by
  rw [block, bind_apply, h]
  simp only [hreturning, if_true, pure_apply]

theorem repeatWhile_of_rounds {test : Run Bool} {body : Run Completion} {completion : Completion}
    {u : State} (rounds : Rounds limits test body fuel s t)
    (hbody : body limits t = .done completion u) (hreturning : completion.returning = true)
    (last : Completion) : repeatWhile test body fuel last limits s = .done completion u := by
  induction rounds generalizing last with
  | next holds =>
      rw [repeatWhile, bind_apply, holds]
      simp only [if_true, bind_apply, hbody, hreturning, pure_apply]
  | again holds round _ ih =>
      rw [repeatWhile, bind_apply, holds]
      simp only [if_true, bind_apply, round, plain, Bool.false_eq_true, if_false]
      exact ih hbody _

/-- A body that comes to a `return` ends with it, in the state that the `return` leaves, outside of
the branches and loops that it is in. -/
theorem block_of_reaches {trees : List Tree} {levels inner : Nat} {value : Tree} {u : State}
    {completion : Completion} (reaches : Reaches limits fuel trees s levels inner
      (.returnStatement value) u)
    (hreturn : execute inner (.returnStatement value) limits u = .done completion t)
    (last : Completion) :
    block (execute fuel) last trees limits s = .done completion (t.outOf levels) := by
  have hreturning := returning_of_returnStatement hreturn
  generalize htarget : Tree.returnStatement value = target at reaches
  induction reaches generalizing last with
  | first =>
      subst htarget
      exact block_of_returning last _ hreturn hreturning
  | later before _ ih =>
      rw [block, bind_apply, before]
      exact ih hreturn _ htarget
  | ifBlock enters tested _ ih =>
      refine block_of_returning last _ ?_ hreturning
      rw [execute_branch, State.outOf_succ]
      apply nested_of_enters enters
      rw [bind_apply, tested]
      exact ih hreturn _ htarget
  | elseBlock enters tested _ ih =>
      refine block_of_returning last _ ?_ hreturning
      rw [execute_ifStatement, State.outOf_succ]
      apply nested_of_enters enters
      rw [bind_apply, tested]
      exact ih hreturn _ htarget
  | loop enters rounds _ ih =>
      refine block_of_returning last _ ?_ hreturning
      rw [execute_whileStatement, State.outOf_succ]
      apply nested_of_enters enters
      exact repeatWhile_of_rounds rounds (ih hreturn _ htarget) hreturning _

/-- A program ends in the same way, with the same value or fault and in the same state, whether its
statements tell that a `return` is under way or a `return` leaves them by itself. And a body that
comes to a `return`, in whatever branches and loops, ends with it: nothing behind it runs. -/
theorem return_leaves (fuel : Nat) (limits : Limits) (s : State) :
    (∀ trees, Exiting.program fuel trees limits s = .ofOutcome (program fuel trees limits s)) ∧
    ∀ trees levels inner value u completion t,
      Reaches limits fuel trees s levels inner (.returnStatement value) u →
      execute inner (.returnStatement value) limits u = .done completion t →
      block (execute fuel) (plain .none) trees limits s = .done completion (t.outOf levels) := by
  constructor
  · intro trees
    rw [Exiting.program_eq, Exiting.ofRun]
  · intro trees levels inner value u completion t reaches hreturn
    exact block_of_reaches reaches hreturn (plain .none)

/-- A `return` in a loop in a branch, with a statement behind each of the three. -/
theorem return_leaves_loop :
    let holds : Tree := .boolean (.scalar (.boolean true))
    let behind : Tree := .print (.string (.text "behind"))
    let loop : Tree := .whileStatement holds (.list [.returnStatement holds, behind])
    let trees : List Tree := [.ifStatement holds (.list [loop, behind]) .none, behind]
    let limits : Limits := ⟨1500, 0⟩
    let mid : State := { State.start with depth := 2 }
    Reaches limits 9 trees .start 2 7 (.returnStatement holds) mid ∧
    execute 7 (.returnStatement holds) limits mid = .done ⟨.boolean true, true⟩ mid ∧
    block (execute 9) (plain .none) trees limits .start =
      .done ⟨.boolean true, true⟩ .start := by
  intro holds behind loop trees limits mid
  have hreaches : Reaches limits 9 trees .start 2 7 (.returnStatement holds) mid :=
    .ifBlock ⟨by decide, rfl⟩ rfl (.loop ⟨by decide, rfl⟩ (.next rfl) .first)
  have hreturn : execute 7 (.returnStatement holds) limits mid =
    .done ⟨.boolean true, true⟩ mid := rfl
  exact ⟨hreaches, hreturn, (return_leaves 9 limits .start).2 _ _ _ _ _ _ _ hreaches hreturn⟩

end Run

end Sprig
