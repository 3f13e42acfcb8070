import Sprig.Proofs.Run.Extension
import Sprig.Proofs.Run.Frame
import Sprig.Proofs.Run.Return

/-!
# Faults end a run

Nothing in a program takes a fault back. When a task fails that a run comes to, the task that began
it fails with the same fault, and so does the run as a whole. The state stays as the fault left it,
but for the nodes that are left on the way out.
-/

namespace Sprig.Run

variable {limits : Limits} {task inner first : Task} {s t u stopped : State} {fault : Fault}
  {α β : Type}

/-- Whether a step fails with a fault. -/
def FailsWith (run : Run α) (limits : Limits) (fault : Fault) (s : State) : Prop :=
  ∃ t, run limits s = .failed fault t

/-- Whether a step fails with a fault in a given state, but for the nodes that are left by then. -/
def FailsIn (stopped : State) (run : Run α) (limits : Limits) (fault : Fault) (s : State) : Prop :=
  ∃ levels, run limits s = .failed fault (stopped.outOf levels)

theorem failsWith_iff {run : Run α} :
    FailsWith run limits fault s ↔ ∃ stopped, FailsIn stopped run limits fault s :=
  ⟨fun ⟨t, h⟩ => ⟨t, 0, h⟩, fun ⟨_, _, h⟩ => ⟨_, h⟩⟩

/-- Whether a task fails with a fault in a given state, with some fuel. -/
def Fails (stopped : State) (limits : Limits) (fault : Fault) (task : Task) (s : State) : Prop :=
  ∃ fuel, FailsIn stopped (work fuel task) limits fault s

section Steps

theorem FailsIn.bind {run : Run α} (h : FailsIn stopped run limits fault s) (next : α → Run β) :
    FailsIn stopped (run >>= next) limits fault s := by
  obtain ⟨levels, h⟩ := h
  exact ⟨levels, bind_of_failed h⟩

theorem FailsIn.after {run : Run α} {next : α → Run β} {v : α} (hrun : run limits s = .done v t)
    (h : FailsIn stopped (next v) limits fault t) :
    FailsIn stopped (run >>= next) limits fault s := by
  obtain ⟨levels, h⟩ := h
  exact ⟨levels, (bind_of_done hrun).trans h⟩

/-- Two steps fail when the first one does, or the second one where the first one is done. -/
theorem failsIn_bind {run : Run α} {next : α → Run β} :
    FailsIn stopped (run >>= next) limits fault s ↔ FailsIn stopped run limits fault s ∨
      ∃ v t, run limits s = .done v t ∧ FailsIn stopped (next v) limits fault t := by
  constructor
  · rintro ⟨levels, h⟩
    rw [bind_apply] at h
    cases hrun : run limits s with
    | done v mid =>
        rw [hrun] at h
        exact .inr ⟨v, mid, rfl, levels, h⟩
    | failed other mid =>
        rw [hrun] at h
        obtain ⟨rfl, rfl⟩ := Outcome.failed.inj h
        exact .inl ⟨levels, hrun⟩
    | outOfFuel mid =>
        rw [hrun] at h
        cases h
  · rintro (h | ⟨v, t, hrun, h⟩)
    · exact h.bind next
    · exact .after hrun h

theorem not_failsIn_pure {v : α} : ¬FailsIn stopped (pure v) limits fault s := by
  rintro ⟨t, h⟩
  cases h

/-- A step fails when its value is only made another one. -/
theorem failsIn_map {run : Run α} (f : α → β) :
    FailsIn stopped (do return f (← run)) limits fault s ↔ FailsIn stopped run limits fault s := by
  simp only [failsIn_bind, not_failsIn_pure, and_false, exists_false, or_false]

theorem failsWith_map {run : Run α} (f : α → β) :
    FailsWith (do return f (← run)) limits fault s ↔ FailsWith run limits fault s := by
  simp only [failsWith_iff, failsIn_map]

theorem FailsIn.nested {kind : NodeKind} {run : Run α} (enters : s.Enters limits t)
    (h : FailsIn stopped run limits fault t) :
    FailsIn stopped (nested kind run) limits fault s := by
  obtain ⟨hle, rfl⟩ := enters
  obtain ⟨levels, h⟩ := h
  refine ⟨levels + 1, ?_⟩
  rw [Run.nested, if_neg (by omega), h, State.outOf_succ]
  rfl

/-- A step fails still when it is extended. -/
theorem FailsIn.extend {run other : Run α} (h : FailsIn stopped run limits fault s)
    (hextends : Extends run other) : FailsIn stopped other limits fault s := by
  obtain ⟨levels, h⟩ := h
  exact ⟨levels, (hextends limits s (by simp [h])).trans h⟩

theorem done_of_extends {run other : Run α} {v : α} (h : run limits s = .done v t)
    (hextends : Extends run other) : other limits s = .done v t :=
  (hextends limits s (by simp [h])).trans h

end Steps

section Operands

variable {value : Tree → Run Value}

theorem failsIn_values_cons {tree : Tree} {trees : List Tree} :
    FailsIn stopped (values value (tree :: trees)) limits fault s ↔
      FailsIn stopped (value tree) limits fault s ∨
        ∃ v t, value tree limits s = .done v t ∧
          FailsIn stopped (values value trees) limits fault t := by
  simp only [values, failsIn_bind, not_failsIn_pure, and_false, exists_false, or_false]

/-- When one operand is worked on, it is the one that fails. -/
theorem FailsIn.operand {tree : Tree} (h : FailsIn stopped (values value [tree]) limits fault s) :
    FailsIn stopped (value tree) limits fault s := (failsIn_map fun v => [v]).mp h

/-- Whatever is done with two operands fails when one of them does. -/
theorem FailsIn.operandPair {left right : Tree}
    (h : FailsIn stopped (values value [left, right]) limits fault s)
    (next : Value → Value → Run β) :
    FailsIn stopped (do next (← value left) (← value right)) limits fault s := by
  rcases failsIn_values_cons.mp h with h | ⟨l, t, hleft, h⟩
  · exact h.bind _
  · exact .after hleft (h.operand.bind _)

end Operands

section Nodes

variable {tree : Tree} {trees : List Tree} {mid : State} {fuel : Nat}

/-- A method that cannot take the values of its arguments fails. -/
theorem failsIn_callMethod {array args : Tree} (method : Tree)
    (hfound : argumentsOf array args limits s = .done trees t)
    (h : FailsIn stopped (values (evaluate fuel) trees) limits fault t) :
    FailsIn stopped (callMethod (fuel + 1) array method args) limits fault s := by
  obtain ⟨word, u, hword, hfound⟩ := exists_of_bind hfound
  obtain ⟨address, w, haddress, hargs⟩ := exists_of_bind hfound
  rw [callMethod]
  exact .after hword (.after haddress (.after hargs (h.bind _)))

/-- An expression fails when one of its operands does. -/
theorem exists_failsIn_evaluate (enters : s.Enters limits mid)
    (hfound : expressionOperands tree limits mid = .done trees t)
    (h : FailsIn stopped (values (evaluate fuel) trees) limits fault t) :
    ∃ more, FailsIn stopped (evaluate more tree) limits fault s := by
  have hnone : (pure [] : Run (List Tree)) limits mid ≠ .done trees t := by
    intro hdone
    obtain ⟨rfl, -⟩ := Outcome.done.inj hdone
    exact not_failsIn_pure h
  cases tree with
  | number | string | boolean | «variable» | arrayProperty => exact absurd hfound hnone
  | unary operator operand =>
      obtain ⟨rfl, rfl⟩ := Outcome.done.inj hfound
      refine ⟨fuel + 1, ?_⟩
      rw [evaluate]
      exact .nested enters (h.operand.bind _)
  | binary operator left right | comparison operator left right =>
      obtain ⟨rfl, rfl⟩ := Outcome.done.inj hfound
      refine ⟨fuel + 1, ?_⟩
      rw [evaluate]
      exact .nested enters (h.operandPair _)
  | arrayLiteral elements =>
      refine ⟨fuel + 1, ?_⟩
      rw [evaluate]
      exact .nested enters (.after hfound (h.bind _))
  | elementAccess array index =>
      obtain ⟨word, u, hword, hfound⟩ := exists_of_bind hfound
      obtain ⟨address, w, haddress, hfound⟩ := exists_of_bind hfound
      obtain ⟨rfl, rfl⟩ := Outcome.done.inj hfound
      refine ⟨fuel + 1, ?_⟩
      rw [evaluate]
      exact .nested enters (.after hword (.after haddress (h.operand.bind _)))
  | methodExpression array method args =>
      refine ⟨fuel + 2, ?_⟩
      rw [evaluate]
      exact .nested enters (failsIn_callMethod method hfound h)
  | call name args =>
      obtain ⟨word, u, hword, hfound⟩ := exists_of_bind hfound
      obtain ⟨function?, w, hread, hfound⟩ := exists_of_bind hfound
      cases function? with
      | none => cases hfound
      | some function =>
          refine ⟨fuel + 1, ?_⟩
          rw [evaluate]
          exact .nested enters (.after hword (.after hread (.after hfound (h.bind _))))
  | _ => cases hfound

/-- A statement fails when one of its operands does. -/
theorem exists_failsIn_execute (enters : s.Enters limits mid)
    (hfound : statementOperands tree limits mid = .done trees t)
    (h : FailsIn stopped (values (evaluate fuel) trees) limits fault t) :
    ∃ more, FailsIn stopped (execute more tree) limits fault s := by
  have hnone : (pure [] : Run (List Tree)) limits mid ≠ .done trees t := by
    intro hdone
    obtain ⟨rfl, -⟩ := Outcome.done.inj hdone
    exact not_failsIn_pure h
  cases tree with
  | whileStatement | functionDeclaration => exact absurd hfound hnone
  | assignment name value | print value | expressionStatement value =>
      obtain ⟨rfl, rfl⟩ := Outcome.done.inj hfound
      refine ⟨fuel + 1, ?_⟩
      rw [execute]
      exact .nested enters (h.operand.bind _)
  | ifStatement condition ifBlock elseBlock =>
      obtain ⟨rfl, rfl⟩ := Outcome.done.inj hfound
      refine ⟨fuel + 1, ?_⟩
      simp only [execute]
      exact .nested enters (h.operand.bind _)
  | elementAssignment array index value =>
      obtain ⟨word, u, hword, hfound⟩ := exists_of_bind hfound
      obtain ⟨address, w, haddress, hfound⟩ := exists_of_bind hfound
      obtain ⟨rfl, rfl⟩ := Outcome.done.inj hfound
      refine ⟨fuel + 1, ?_⟩
      rw [execute]
      exact .nested enters (.after hword (.after haddress (h.operandPair _)))
  | methodCall array method args =>
      refine ⟨fuel + 2, ?_⟩
      rw [execute]
      exact .nested enters ((failsIn_callMethod method hfound h).bind _)
  | returnStatement value =>
      by_cases hvalue : value = .scalar .none
      · subst hvalue
        exact absurd hfound hnone
      · rw [statementOperands.eq_def] at hfound
        simp only at hfound
        obtain ⟨rfl, rfl⟩ := Outcome.done.inj hfound
        refine ⟨fuel + 1, ?_⟩
        simp only [execute]
        exact .nested enters (h.operand.bind _)
  | _ => cases hfound

/-- A call fails when the body of its function does. -/
theorem failsIn_call {name args : Tree} (enters : s.Enters limits mid)
    (hcallee : calleeOf fuel name args limits mid = .done trees t)
    (h : FailsIn stopped (block (execute fuel) (plain .none) trees) limits fault t) :
    FailsIn stopped (evaluate (fuel + 1) (.call name args)) limits fault s := by
  obtain ⟨word, u, hword, hcallee⟩ := exists_of_bind hcallee
  obtain ⟨function?, w, hread, hcallee⟩ := exists_of_bind hcallee
  cases function? with
  | none => cases hcallee
  | some function =>
      obtain ⟨items, x, hitems, hcallee⟩ := exists_of_bind hcallee
      obtain ⟨vs, y, hvs, hcallee⟩ := exists_of_bind hcallee
      obtain ⟨_, z, hnote, hcallee⟩ := exists_of_bind hcallee
      obtain ⟨params, a, hparams, hcallee⟩ := exists_of_bind hcallee
      obtain ⟨_, b, hbind, hbody⟩ := exists_of_bind hcallee
      have hkept : read (·.bindings) limits z = .done z.bindings z := rfl
      rw [evaluate]
      exact .nested enters (.after hword (.after hread (.after hitems (.after hvs
        (.after hnote (.after hkept (.after hparams (.after hbind (.after hbody
          (h.bind _))))))))))

/-- A branch fails when the block that it takes does. -/
theorem failsIn_branch {condition ifBlock elseBlock : Tree} (enters : s.Enters limits mid)
    (hbranch : branchOf fuel condition ifBlock elseBlock limits mid = .done trees t)
    (h : FailsIn stopped (block (execute fuel) (plain .none) trees) limits fault t) :
    FailsIn stopped (execute (fuel + 1) (.ifStatement condition ifBlock elseBlock)) limits fault
      s := by
  obtain ⟨holds, u, htest, hbranch⟩ := exists_of_bind hbranch
  obtain ⟨v, w, hv, htest⟩ := exists_of_bind htest
  obtain ⟨_, x, hnote, htest⟩ := exists_of_bind htest
  obtain ⟨rfl, rfl⟩ := Outcome.done.inj htest
  simp only [execute]
  refine .nested enters (.after hv (.after hnote ?_))
  split
  · next htruthy =>
    rw [htruthy] at hbranch
    exact .after hbranch h
  · next hfalsy =>
    rw [if_neg hfalsy] at hbranch
    cases elseBlock with
    | scalar value =>
        cases value with
        | none =>
            obtain ⟨rfl, rfl⟩ := Outcome.done.inj hbranch
            exact absurd h not_failsIn_pure
        | _ => exact .after hbranch h
    | _ => exact .after hbranch h

end Nodes

section Sequences

variable {tree condition body : Tree} {trees rest : List Tree} {fuel : Nat}

theorem failsIn_block_cons {last : Completion} :
    FailsIn stopped (block (execute fuel) last (tree :: trees)) limits fault s ↔
      FailsIn stopped (execute fuel tree) limits fault s ∨
        ∃ next t, execute fuel tree limits s = .done next t ∧ next.returning = false ∧
          FailsIn stopped (block (execute fuel) next trees) limits fault t := by
  rw [block, failsIn_bind]
  refine or_congr_right (exists_congr fun next => exists_congr fun t => and_congr_right fun _ => ?_)
  cases next.returning with
  | false => simp
  | true => simp [not_failsIn_pure]

/-- Whether a block fails does not depend on how the statement in front of it ended. -/
theorem failsIn_block_of {last other : Completion}
    (h : FailsIn stopped (block (execute fuel) last trees) limits fault s) :
    FailsIn stopped (block (execute fuel) other trees) limits fault s := by
  cases trees with
  | nil => exact absurd h not_failsIn_pure
  | cons tree trees => exact h

theorem failsIn_repeatWhile_of {test : Run Bool} {round : Run Completion} {rounds : Nat}
    {last other : Completion}
    (h : FailsIn stopped (repeatWhile test round rounds last) limits fault s) :
    FailsIn stopped (repeatWhile test round rounds other) limits fault s := by
  cases rounds with
  | zero =>
      obtain ⟨t, h⟩ := h
      cases h
  | succ rounds =>
      rcases failsIn_bind.mp h with h | ⟨again, t, htest, h⟩
      · exact h.bind _
      · cases again with
        | false => exact absurd h not_failsIn_pure
        | true => exact .after htest h

theorem statements_cons (fuel : Nat) (tree : Tree) (trees : List Tree) :
    statements fuel (tree :: trees) = (do
      note 1 (return .executing tree.label)
      return (← execute fuel tree).value) >>= fun v => trees.foldlM (fun _ tree => do
        note 1 (return .executing tree.label)
        return (← execute fuel tree).value) v := by
  simp only [statements, List.foldlM_cons]

theorem failsIn_foldlM_of_statements {v : Value}
    (h : FailsIn stopped (statements fuel trees) limits fault s) :
    FailsIn stopped (trees.foldlM (fun _ tree => do
      note 1 (return .executing tree.label)
      return (← execute fuel tree).value) v) limits fault s := by
  cases trees with
  | nil => exact absurd h not_failsIn_pure
  | cons tree trees =>
      rw [statements_cons] at h
      rw [List.foldlM_cons]
      exact h

end Sequences

/-- A task that fails does so with more fuel than another step needs. -/
theorem Fails.exists_of_ge (h : Fails stopped limits fault task s) (least : Nat) :
    ∃ fuel, least ≤ fuel ∧ FailsIn stopped (work fuel task) limits fault s := by
  obtain ⟨fuel, h⟩ := h
  exact ⟨max least fuel, Nat.le_max_left .., h.extend (extends_work (Nat.le_max_right ..) task)⟩

/-- A task fails when one does that it begins. -/
theorem Fails.of_begins (begins : Begins limits task s inner t)
    (h : Fails stopped limits fault inner t) :
    Fails stopped limits fault task s := by
  cases begins with
  | program before =>
      obtain ⟨fuel, h⟩ := h
      refine ⟨fuel, (failsIn_map _).mpr ?_⟩
      rw [statements_cons]
      exact .bind (.after before (((failsIn_map _).mp h).bind _)) _
  | @programRest least tree rest v _ _ before =>
      obtain ⟨fuel, hle, h⟩ := h.exists_of_ge least
      refine ⟨fuel, (failsIn_map _).mpr ?_⟩
      rw [statements_cons]
      exact .after (done_of_extends before (extends_topStatement hle tree))
        (failsIn_foldlM_of_statements ((failsIn_map _).mp h))
  | block =>
      obtain ⟨fuel, h⟩ := h
      exact ⟨fuel, (failsIn_map _).mpr (((failsIn_map _).mp h).bind _)⟩
  | @blockRest least tree rest last _ _ before goesOn =>
      obtain ⟨fuel, hle, h⟩ := h.exists_of_ge least
      refine ⟨fuel, (failsIn_map _).mpr (failsIn_block_cons.mpr (.inr ⟨last, t, ?_, goesOn, ?_⟩))⟩
      · exact done_of_extends before (extends_execute hle tree)
      · exact failsIn_block_of ((failsIn_map _).mp h)
  | operand =>
      obtain ⟨fuel, h⟩ := h
      exact ⟨fuel, (failsIn_map _).mpr (((failsIn_map _).mp h).bind _)⟩
  | @operandRest least tree rest v _ _ before =>
      obtain ⟨fuel, hle, h⟩ := h.exists_of_ge least
      refine ⟨fuel, (failsIn_map _).mpr (failsIn_values_cons.mpr (.inr ⟨v, t, ?_, ?_⟩))⟩
      · exact done_of_extends before (extends_evaluate hle tree)
      · exact (failsIn_map _).mp h
  | expression enters before =>
      obtain ⟨fuel, h⟩ := h
      obtain ⟨more, h⟩ := exists_failsIn_evaluate enters before ((failsIn_map _).mp h)
      exact ⟨more, (failsIn_map _).mpr h⟩
  | @callee least name args trees _ _ _ enters before =>
      obtain ⟨fuel, hle, h⟩ := h.exists_of_ge least
      have hcallee := done_of_extends before (extends_calleeOf hle name args)
      exact ⟨fuel + 1, (failsIn_map _).mpr (failsIn_call enters hcallee ((failsIn_map _).mp h))⟩
  | statement enters before =>
      obtain ⟨fuel, h⟩ := h
      obtain ⟨more, h⟩ := exists_failsIn_execute enters before ((failsIn_map _).mp h)
      exact ⟨more, (failsIn_map _).mpr h⟩
  | @branch least condition ifBlock elseBlock trees _ _ _ enters before =>
      obtain ⟨fuel, hle, h⟩ := h.exists_of_ge least
      have hbranch := done_of_extends before (extends_branchOf hle condition ifBlock elseBlock)
      exact ⟨fuel + 1,
        (failsIn_map _).mpr (failsIn_branch enters hbranch ((failsIn_map _).mp h))⟩
  | loop enters =>
      obtain ⟨fuel, h⟩ := h
      refine ⟨fuel + 1, (failsIn_map _).mpr ?_⟩
      rw [execute]
      exact .nested enters ((failsIn_map _).mp h)
  | @loopTest condition body _ =>
      obtain ⟨fuel, hle, h⟩ := h.exists_of_ge 1
      obtain ⟨fuel, rfl⟩ := Nat.exists_eq_add_of_le' hle
      refine ⟨fuel + 1, (failsIn_map _).mpr ?_⟩
      rw [repeatWhile]
      exact .bind (.bind ((failsIn_map _).mp h) _) _
  | @loopBody least condition body trees _ mid _ before items =>
      obtain ⟨fuel, hle, h⟩ := h.exists_of_ge (least + 1)
      obtain ⟨fuel, rfl⟩ := Nat.exists_eq_add_of_le' (Nat.le_of_add_left_le hle)
      have htest := done_of_extends before (extends_test (Nat.le_of_succ_le hle) _ condition)
      refine ⟨fuel + 1, (failsIn_map _).mpr ?_⟩
      rw [repeatWhile]
      refine .after htest ?_
      rw [if_pos rfl]
      exact .bind (.after items ((failsIn_map _).mp h)) _
  | @loopAgain least condition body last _ mid _ before round goesOn =>
      obtain ⟨fuel, hle, h⟩ := h.exists_of_ge least
      have htest := done_of_extends before (extends_test (Nat.le_succ_of_le hle) _ condition)
      have hround := done_of_extends round (extends_blockPart (Nat.le_succ_of_le hle) body)
      -- The rounds that are left have one less unit of fuel for themselves, but not for their parts.
      have hrest := ((failsIn_map _).mp h).extend (extends_repeatWhile
        (extends_test fuel.le_succ _ condition) (extends_blockPart fuel.le_succ body)
        (Nat.le_refl fuel) (plain .none))
      refine ⟨fuel + 1, (failsIn_map _).mpr ?_⟩
      rw [repeatWhile]
      refine .after htest ?_
      rw [if_pos rfl]
      refine .after hround ?_
      rw [if_neg (by simp [goesOn])]
      exact failsIn_repeatWhile_of hrest

/-- A run fails when a task does that it comes to. -/
theorem Fails.of_comes (comes : Comes limits first s task t)
    (h : Fails stopped limits fault task t) :
    Fails stopped limits fault first s := by
  induction comes with
  | start => exact h
  | next _ begins ih => exact ih (h.of_begins begins)

/-- A program ends when a task that it comes to fails. -/
theorem Fails.program_fails {trees : List Tree} (h : Fails stopped limits fault task t)
    (comes : Comes limits (.program trees) s task t) (hkept : limits.depth ≤ greatestDepth) :
    ∃ least levels, ∀ fuel, least ≤ fuel →
      program fuel trees limits s = .failed fault (stopped.outOf levels) := by
  obtain ⟨least, hfails⟩ := h.of_comes comes
  obtain ⟨levels, hstatements⟩ := (failsIn_map _).mp hfails
  refine ⟨least, levels, fun fuel hle => ?_⟩
  rw [program, if_neg (by omega), extends_statements hle trees limits s (by simp [hstatements]),
    hstatements]

end Sprig.Run
