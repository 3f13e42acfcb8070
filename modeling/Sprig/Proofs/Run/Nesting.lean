import Sprig.Proofs.Run.Depth
import Sprig.Proofs.Run.Outward

/-!
# How deeply a run is nested

The depth at a point of a run is the depth at its start and one more for each node that the point is
inside of. A node is refused just where it would be one more than the limit allows, and nothing else
fails because of the depth. So the depth is accounted for exactly, however a run ends.
-/

namespace Sprig

namespace Outcome

variable {α : Type}

/-- Whether a step ended at a depth, if it did not run out of fuel. -/
def EndsAt (depth : Nat) : Outcome α → Prop
  | .done _ after => after.depth = depth
  | .failed _ after => after.depth = depth
  | .outOfFuel _ => True

theorem Accounted.endsAt {limits : Limits} {first : Task} {s t : State} {outcome : Outcome α}
    (h : outcome.Accounted limits first s t) : outcome.EndsAt t.depth := by
  cases outcome with
  | done v after => exact h.1
  | failed fault after => exact h.1
  | outOfFuel after => trivial

end Outcome

namespace Run

/-- Which tasks a run comes to from one, inside of how many nodes and calls, and in which states. -/
inductive Stands (limits : Limits) (first : Task) (s : State) :
    (nodes calls : Nat) → Task → State → Prop
  | start : Stands limits first s 0 0 first s
  | next {nodes calls task inner t u} (stands : Stands limits first s nodes calls task t)
      (begins : Begins limits task t inner u) :
      Stands limits first s (nodes + task.nodes) (calls + task.callsTo inner) inner u

variable {limits : Limits} {task inner first : Task} {s t u : State} {nodes calls : Nat}

theorem Comes.exists_stands (h : Comes limits first s task t) :
    ∃ nodes calls, Stands limits first s nodes calls task t := by
  induction h with
  | start => exact ⟨0, 0, .start⟩
  | next _ begins ih =>
      obtain ⟨nodes, calls, ih⟩ := ih
      exact ⟨_, _, .next ih begins⟩

section Points

variable {fuel : Nat}

theorem steady_argumentsOf (array args : Tree) : Steady (argumentsOf array args) := by
  apply steady_bind (steady_scalarPart array)
  intro word
  exact steady_bind (steady_lookupArray word) fun _ => steady_listPart args

theorem steady_expressionOperands (tree : Tree) : Steady (expressionOperands tree) := by
  cases tree with
  | number | string | boolean | «variable» | arrayProperty | unary | binary | comparison =>
      exact steady_pure _
  | arrayLiteral elements => exact steady_listPart elements
  | elementAccess array index =>
      apply steady_bind (steady_scalarPart array)
      intro word
      exact steady_bind (steady_lookupArray word) fun _ => steady_pure _
  | methodExpression array method args => exact steady_argumentsOf array args
  | call name args =>
      apply steady_bind (steady_scalarPart name)
      intro word
      apply steady_bind (steady_read _)
      intro function?
      cases function? with
      | none => exact steady_fail trivial
      | some function => exact steady_listPart args
  | _ => exact steady_fail trivial

theorem steady_statementOperands (tree : Tree) : Steady (statementOperands tree) := by
  cases tree with
  | assignment | print | expressionStatement | ifStatement | whileStatement
  | functionDeclaration => exact steady_pure _
  | elementAssignment array index value =>
      apply steady_bind (steady_scalarPart array)
      intro word
      exact steady_bind (steady_lookupArray word) fun _ => steady_pure _
  | methodCall array method args => exact steady_argumentsOf array args
  | returnStatement value =>
      by_cases hvalue : value = .scalar .none
      · subst hvalue
        exact steady_pure _
      · rw [statementOperands.eq_def]
        simp only
        exact steady_pure _
  | _ => exact steady_fail trivial

theorem Declared.inside {mid : State} (ht : Declared first s t) (enters : t.Enters limits mid) :
    Declared first s mid := by
  obtain ⟨-, rfl⟩ := enters
  exact ht

theorem accounted_calleeOf {name args : Tree} {mid : State}
    (h : Arrives limits first s (.expression (.call name args)) t) (ht : Declared first s t)
    (enters : t.Enters limits mid) :
    (calleeOf fuel name args limits mid).Accounted limits first s mid := by
  have hmid := ht.inside enters
  refine accounted_next (steady_scalarPart name) hmid fun word u hname hu => ?_
  refine accounted_next (steady_read _) hu fun function? u hread hu => ?_
  cases function? with
  | none => exact accounted_fail trivial
  | some function =>
      refine accounted_next (steady_listPart args) hu fun trees w hargs hw => ?_
      have hfound : expressionOperands (.call name args) limits mid = .done trees w := by
        simp only [expressionOperands, bind_apply, hname, hread, hargs]
      have hoperands : Arrives limits first s (.operands trees) w :=
        h.next ht (.expression enters hfound)
      refine accounted_bind ((accounts_of_fuel limits first s fuel).values hoperands hw)
        fun vs x _ hx => ?_
      have hcalling : Steady (note 1 (do return .calling word (← displayAll vs))) :=
        steady_note 1 (steady_bind (steady_displayAll vs) fun _ => steady_pure _)
      exact (steady_bind hcalling fun _ => steady_bind (steady_listPart function.params)
        fun params => steady_bind (steady_bindAll params vs) fun _ =>
          steady_listPart function.body).accounted hx

theorem accounted_branchOf {condition ifBlock elseBlock : Tree} {mid : State}
    (h : Arrives limits first s (.statement (.ifStatement condition ifBlock elseBlock)) t)
    (ht : Declared first s t) (enters : t.Enters limits mid) :
    (branchOf fuel condition ifBlock elseBlock limits mid).Accounted limits first s mid := by
  have hmid := ht.inside enters
  have hcondition := (h.next ht (.statement enters rfl)).next hmid .operand
  refine accounted_bind ((accounts_of_fuel limits first s fuel).test _ hcondition hmid)
    fun holds u _ hu => ?_
  split
  · exact (steady_listPart ifBlock).accounted hu
  · split
    · exact (steady_pure _).accounted hu
    · exact (steady_listPart elseBlock).accounted hu

/-- What is said of a point that a run comes to from another one, inside of some more nodes. -/
structure Deepens (limits : Limits) (first : Task) (s : State) (nodes : Nat) (t u : State) :
    Prop where
  depth : u.depth = t.depth + nodes
  declared : Declared first s u
  within : 0 < nodes → (u.depth : Int) ≤ limits.depth

theorem deepens_beside {α : Type} {run : Run α} {v : α}
    (h : (run limits t).Accounted limits first s t) (hdone : run limits t = .done v u) :
    Deepens limits first s 0 t u :=
  ⟨(of_accounted h hdone).1, (of_accounted h hdone).2, fun hlt => absurd hlt (Nat.lt_irrefl 0)⟩

theorem Deepens.trans {mid : State} (h : Deepens limits first s 0 t mid)
    (hnext : Deepens limits first s 0 mid u) : Deepens limits first s 0 t u :=
  ⟨hnext.depth.trans h.depth, hnext.declared, fun hlt => absurd hlt (Nat.lt_irrefl 0)⟩

theorem deepens_inside {α : Type} {run : Run α} {v : α} {mid : State}
    (enters : t.Enters limits mid) (h : (run limits mid).Accounted limits first s mid)
    (hdone : run limits mid = .done v u) : Deepens limits first s 1 t u := by
  obtain ⟨hdepth, hu⟩ := of_accounted h hdone
  obtain ⟨hle, rfl⟩ := enters
  exact ⟨hdepth, hu, fun _ => by rw [hdepth]; exact_mod_cast hle⟩

/-- A task is begun inside of the nodes that the task before it works on. -/
theorem Begins.deepens (begins : Begins limits task t inner u)
    (arrives : Arrives limits first s task t) (ht : Declared first s t) :
    Deepens limits first s task.nodes t u := by
  have hc := accounts_of_fuel limits first s
  have hsame : Deepens limits first s 0 t t := ⟨rfl, ht, fun hlt => absurd hlt (Nat.lt_irrefl 0)⟩
  cases begins with
  | program before => exact deepens_beside ((steady_note 1 (steady_pure _)).accounted ht) before
  | @programRest least tree rest v _ _ before =>
      refine deepens_beside ?_ before
      refine accounted_next (steady_note 1 (steady_pure _)) ht fun _ w hnote hw => ?_
      refine accounted_bind ((hc least).execute (arrives.next ht (.program hnote)) hw) fun _ x _ hx => ?_
      exact ⟨rfl, hx⟩
  | block | operand | loopTest => exact hsame
  | @blockRest least tree rest last _ _ before goesOn =>
      exact deepens_beside ((hc least).execute (arrives.next ht .block) ht) before
  | @operandRest least tree rest v _ _ before =>
      exact deepens_beside ((hc least).evaluate (arrives.next ht .operand) ht) before
  | @expression tree _ _ _ _ enters before =>
      exact deepens_inside enters ((steady_expressionOperands tree).accounted (ht.inside enters)) before
  | callee enters before =>
      exact deepens_inside enters (accounted_calleeOf arrives ht enters) before
  | @statement tree _ _ _ _ enters before =>
      exact deepens_inside enters ((steady_statementOperands tree).accounted (ht.inside enters)) before
  | branch enters before =>
      exact deepens_inside enters (accounted_branchOf arrives ht enters) before
  | loop enters =>
      exact deepens_inside enters ((steady_pure ()).accounted (ht.inside enters)) rfl
  | @loopBody least condition body trees _ mid _ before items =>
      have htest := deepens_beside ((hc least).test _ (arrives.next ht .loopTest) ht) before
      exact htest.trans (deepens_beside ((steady_listPart body).accounted htest.declared) items)
  | @loopAgain least condition body last _ mid _ before round goesOn =>
      obtain ⟨trees, w, items, hblock⟩ := exists_of_bind round
      have htest := deepens_beside ((hc least).test _ (arrives.next ht .loopTest) ht) before
      have hlist := deepens_beside ((steady_listPart body).accounted htest.declared) items
      refine htest.trans (hlist.trans (deepens_beside ?_ hblock))
      exact (hc least).block (arrives.next ht (.loopBody before items)) hlist.declared _

theorem Stands.arrives_deepens (h : Stands limits first s nodes calls task t) :
    Arrives limits first s task t ∧ Deepens limits first s nodes s t := by
  induction h with
  | start => exact ⟨.start, rfl, declared_refl, fun hlt => absurd hlt (Nat.lt_irrefl 0)⟩
  | @next nodes calls task inner t u stands begins ih =>
      obtain ⟨arrives, hdeepens⟩ := ih
      have hstep := begins.deepens arrives hdeepens.declared
      refine ⟨arrives.next hdeepens.declared begins, ?_, hstep.declared, fun hlt => ?_⟩
      · rw [hstep.depth, hdeepens.depth, Nat.add_assoc]
      rcases Nat.eq_zero_or_pos task.nodes with hnone | hsome
      · have hsame : u.depth = t.depth := by rw [hstep.depth, hnone, Nat.add_zero]
        rw [hsame]
        exact hdeepens.within (by omega)
      · exact hstep.within hsome

/-- The depth at a point is that of the start and one more for each node that the point is inside
of. Inside of nodes it is within the limit. -/
theorem Stands.deepens (h : Stands limits first s nodes calls task t) :
    Deepens limits first s nodes s t := h.arrives_deepens.2

end Points

section Entries

variable {fuel : Nat} {tree : Tree} {trees : List Tree} {kind : NodeKind}

/-- A node of a kind of expressions is worked on by the step for its kind, if it is entered. -/
theorem evaluate_of_kind (h : (Task.expression tree).kind? = some kind) (fuel : Nat) :
    ∃ handler, evaluate (fuel + 1) tree = nested kind handler := by
  cases tree with
  | scalar | list => cases h
  | number | string | boolean | «variable» | unary | binary | comparison | arrayLiteral
  | elementAccess | methodExpression | arrayProperty | call =>
      obtain rfl := Option.some.inj h
      simp only [evaluate]
      exact ⟨_, rfl⟩
  | _ => cases h

theorem evaluate_of_no_kind (h : (Task.expression tree).kind? = none) (fuel : Nat) :
    evaluate (fuel + 1) tree = fail (.unexpectedTree .expression tree.label) := by
  cases tree with
  | number | string | boolean | «variable» | unary | binary | comparison | arrayLiteral
  | elementAccess | methodExpression | arrayProperty | call => cases h
  | _ => simp only [evaluate]

/-- A node of a kind of statements is worked on by the step for its kind, if it is entered. -/
theorem execute_of_kind (h : (Task.statement tree).kind? = some kind) (fuel : Nat) :
    ∃ handler, execute (fuel + 1) tree = nested kind handler := by
  cases tree with
  | assignment | print | expressionStatement | ifStatement | whileStatement | elementAssignment
  | methodCall | functionDeclaration | returnStatement =>
      obtain rfl := Option.some.inj h
      simp only [execute]
      exact ⟨_, rfl⟩
  | _ => cases h

theorem execute_of_no_kind (h : (Task.statement tree).kind? = none) (fuel : Nat) :
    execute (fuel + 1) tree = fail (.unexpectedTree .statement tree.label) := by
  cases tree with
  | assignment | print | expressionStatement | ifStatement | whileStatement | elementAssignment
  | methodCall | functionDeclaration | returnStatement => cases h
  | _ => simp only [execute]

/-- A node that is one too many fails, and its kind is told. -/
theorem fails_of_kind (h : task.kind? = some kind) (hlt : limits.depth < (t.depth : Int) + 1) :
    Fails t limits (.depthExceeded limits.depth kind) task t := by
  have hnested : ∀ {α : Type} (handler : Run α),
      FailsIn t (nested kind handler) limits (.depthExceeded limits.depth kind) t :=
    fun handler => ⟨0, if_pos hlt⟩
  cases task with
  | statement tree =>
      obtain ⟨handler, hexecute⟩ := execute_of_kind h 0
      exact ⟨1, (failsIn_map _).mpr (hexecute ▸ hnested handler)⟩
  | expression tree =>
      obtain ⟨handler, hevaluate⟩ := evaluate_of_kind h 0
      exact ⟨1, (failsIn_map _).mpr (hevaluate ▸ hnested handler)⟩
  | _ => cases h

/-- A run that refuses a node fails because of it. -/
theorem Refuses.fails (h : Refuses limits first s kind) :
    ∃ stopped, Fails stopped limits (.depthExceeded limits.depth kind) first s := by
  obtain ⟨task, t, comes, hkind, hlt⟩ := h
  exact ⟨t, (fails_of_kind hkind hlt).of_comes comes⟩

theorem accounted_statements (fuel : Nat) (h : Arrives limits first s (.program trees) t)
    (ht : Declared first s t) :
    (statements fuel trees limits t).Accounted limits first s t := by
  unfold statements
  generalize Value.none = last
  induction trees generalizing t last with
  | nil => exact ⟨rfl, ht⟩
  | cons tree trees ih =>
      simp only [List.foldlM_cons]
      refine accounted_bind ?_ fun v u hv hu => ih (h.next ht (.programRest hv)) hu v
      refine accounted_next (steady_note 1 (steady_pure _)) ht fun _ u hstart hu => ?_
      refine accounted_bind ((accounts_of_fuel limits first s fuel).execute
        (h.next ht (.program hstart)) hu) fun last w _ hw => ?_
      exact ⟨rfl, hw⟩

theorem accounted_program (limits : Limits) (fuel : Nat) (trees : List Tree) (s : State) :
    (program fuel trees limits s).Accounted limits (.program trees) s s := by
  unfold program
  split
  · exact ⟨rfl, by simp⟩
  · exact accounted_statements fuel .start declared_refl

end Entries

/-- The states in which an interpreter can be after some programs, each of which was done or
failed. -/
inductive Interpreted : State → Prop
  | start : Interpreted .start
  | done {limits fuel trees v s t} (before : Interpreted s)
      (ended : program fuel trees limits s = .done v t) : Interpreted t
  | failed {limits fuel trees fault s t} (before : Interpreted s)
      (ended : program fuel trees limits s = .failed fault t) : Interpreted t

theorem Interpreted.depth_eq (h : Interpreted s) : s.depth = 0 := by
  induction h with
  | start => rfl
  | @done limits fuel trees v s t _ ended ih =>
      have hprogram := accounted_program limits fuel trees s
      rw [ended] at hprogram
      exact hprogram.1.trans ih
  | @failed limits fuel trees fault s t _ ended ih =>
      have hprogram := accounted_program limits fuel trees s
      rw [ended] at hprogram
      exact hprogram.1.trans ih

section Account

variable {tree : Tree} {trees : List Tree} {kind : NodeKind} {α : Type}

/-- A step that is accounted for fails because of the depth only where the run refuses a node. -/
theorem refuses_of_accounted {run : Run α} {limit : Int}
    (h : (run limits s).Accounted limits first s s)
    (hfailed : FailsWith run limits (.depthExceeded limit kind) s) :
    limit = limits.depth ∧ Refuses limits first s kind := by
  obtain ⟨t, hfailed⟩ := hfailed
  rw [hfailed] at h
  exact h.2 limit kind rfl

theorem evaluate_accounted (limits : Limits) (fuel : Nat) (tree : Tree) (s : State) :
    (evaluate fuel tree limits s).Accounted limits (.expression tree) s s :=
  (accounts_of_fuel limits _ s fuel).evaluate .start declared_refl

theorem execute_accounted (limits : Limits) (fuel : Nat) (tree : Tree) (s : State) :
    (execute fuel tree limits s).Accounted limits (.statement tree) s s :=
  (accounts_of_fuel limits _ s fuel).execute .start declared_refl

/-- What the work on a task amounts to fails because of the depth exactly if the run refuses a
node. -/
theorem refuses_iff {run : Nat → Run α} {limit : Int}
    (haccounted : ∀ fuel, (run fuel limits s).Accounted limits first s s)
    (hwork : ∀ fuel fault, FailsWith (work fuel first) limits fault s →
      FailsWith (run fuel) limits fault s) :
    (∃ fuel, FailsWith (run fuel) limits (.depthExceeded limit kind) s) ↔
      limit = limits.depth ∧ Refuses limits first s kind := by
  constructor
  · rintro ⟨fuel, hfails⟩
    exact refuses_of_accounted (haccounted fuel) hfails
  · rintro ⟨rfl, hrefuses⟩
    obtain ⟨stopped, fuel, hfails⟩ := hrefuses.fails
    exact ⟨fuel, hwork fuel _ (failsWith_iff.mpr ⟨stopped, hfails⟩)⟩

theorem evaluate_refuses_iff {limit : Int} :
    (∃ fuel, FailsWith (evaluate fuel tree) limits (.depthExceeded limit kind) s) ↔
      limit = limits.depth ∧ Refuses limits (.expression tree) s kind :=
  refuses_iff (fun fuel => evaluate_accounted limits fuel tree s)
    fun _ _ hfails => (failsWith_map _).mp hfails

theorem execute_refuses_iff {limit : Int} :
    (∃ fuel, FailsWith (execute fuel tree) limits (.depthExceeded limit kind) s) ↔
      limit = limits.depth ∧ Refuses limits (.statement tree) s kind :=
  refuses_iff (fun fuel => execute_accounted limits fuel tree s)
    fun _ _ hfails => (failsWith_map _).mp hfails

/-- A program does so as far as its limit can be kept at all. -/
theorem program_refuses_iff {limit : Int} (hkept : limits.depth ≤ greatestDepth) :
    (∃ fuel, FailsWith (program fuel trees) limits (.depthExceeded limit kind) s) ↔
      limit = limits.depth ∧ Refuses limits (.program trees) s kind := by
  refine refuses_iff (fun fuel => accounted_program limits fuel trees s) fun fuel fault hfails => ?_
  obtain ⟨after, hfailed⟩ := (failsWith_map _).mp hfails
  exact ⟨after, (if_neg (by omega)).trans hfailed⟩

/-- The depth is accounted for exactly. Every expression and every statement, known or not, ends at
the depth at which it started. A node of a known kind is refused where it would be one more than the
limit allows, and is else worked on one level deeper; any other tree fails beside the account. The
depth at a point of a run is that of the start and one more for each node around it, and is inside
of a node never above the limit. A run fails because of the depth exactly if it comes to a node that
it refuses, and tells the kind of that one. So between programs the depth is zero. -/
theorem depth_accounted (limits : Limits) :
    (∀ fuel tree s, (evaluate fuel tree limits s).EndsAt s.depth ∧
      (execute fuel tree limits s).EndsAt s.depth) ∧
    (∀ fuel tree kind, (Task.expression tree).kind? = some kind → ∃ handler : Run Value, ∀ s,
      evaluate (fuel + 1) tree limits s =
        if limits.depth < (s.depth : Int) + 1 then .failed (.depthExceeded limits.depth kind) s
        else leave (handler limits { s with depth := s.depth + 1 })) ∧
    (∀ fuel tree kind, (Task.statement tree).kind? = some kind → ∃ handler : Run Completion, ∀ s,
      execute (fuel + 1) tree limits s =
        if limits.depth < (s.depth : Int) + 1 then .failed (.depthExceeded limits.depth kind) s
        else leave (handler limits { s with depth := s.depth + 1 })) ∧
    (∀ fuel tree s, (Task.expression tree).kind? = none →
      evaluate (fuel + 1) tree limits s = .failed (.unexpectedTree .expression tree.label) s) ∧
    (∀ fuel tree s, (Task.statement tree).kind? = none →
      execute (fuel + 1) tree limits s = .failed (.unexpectedTree .statement tree.label) s) ∧
    (∀ first s nodes calls task t, Stands limits first s nodes calls task t →
      t.depth = s.depth + nodes ∧ (0 < nodes → (t.depth : Int) ≤ limits.depth)) ∧
    (∀ tree s limit kind,
      (∃ fuel, FailsWith (evaluate fuel tree) limits (.depthExceeded limit kind) s) ↔
        limit = limits.depth ∧ Refuses limits (.expression tree) s kind) ∧
    (∀ tree s limit kind,
      (∃ fuel, FailsWith (execute fuel tree) limits (.depthExceeded limit kind) s) ↔
        limit = limits.depth ∧ Refuses limits (.statement tree) s kind) ∧
    (limits.depth ≤ greatestDepth → ∀ trees s limit kind,
      (∃ fuel, FailsWith (program fuel trees) limits (.depthExceeded limit kind) s) ↔
        limit = limits.depth ∧ Refuses limits (.program trees) s kind) ∧
    ∀ s, Interpreted s → s.depth = 0 := by
  refine ⟨fun fuel tree s => ⟨?_, ?_⟩, ?_, ?_, ?_, ?_, ?_, ?_, ?_, ?_, ?_⟩
  · exact (evaluate_accounted limits fuel tree s).endsAt
  · exact (execute_accounted limits fuel tree s).endsAt
  · intro fuel tree kind hkind
    obtain ⟨handler, hevaluate⟩ := evaluate_of_kind hkind fuel
    exact ⟨handler, fun s => by rw [hevaluate, nested_apply]⟩
  · intro fuel tree kind hkind
    obtain ⟨handler, hexecute⟩ := execute_of_kind hkind fuel
    exact ⟨handler, fun s => by rw [hexecute, nested_apply]⟩
  · intro fuel tree s hkind
    rw [evaluate_of_no_kind hkind, fail]
  · intro fuel tree s hkind
    rw [execute_of_no_kind hkind, fail]
  · intro first s nodes calls task t hstands
    exact ⟨hstands.deepens.depth, hstands.deepens.within⟩
  · exact fun tree s limit kind => evaluate_refuses_iff
  · exact fun tree s limit kind => execute_refuses_iff
  · exact fun hkept trees s limit kind => program_refuses_iff hkept
  · exact fun s hs => hs.depth_eq

/-- Two nodes inside of each other are one too many for a limit of one, and the inner one is told. -/
theorem depth_accounted_of_negation :
    let negation : Tree := .print (.unary (.text "-") (.boolean (.scalar (.boolean true))))
    (∃ fuel, FailsWith (program fuel [negation]) ⟨1, 0⟩ (.depthExceeded 1 .unary) .start) ∧
      Refuses ⟨1, 0⟩ (.program [negation]) .start .unary := by
  intro negation
  have hfails : ∃ fuel, FailsWith (program fuel [negation]) ⟨1, 0⟩ (.depthExceeded 1 .unary) .start :=
    ⟨2, .start, by rfl⟩
  obtain ⟨-, -, -, -, -, -, -, -, hprogram, -⟩ := depth_accounted ⟨1, 0⟩
  exact ⟨hfails, ((hprogram (by decide) [negation] .start 1 .unary).mp hfails).2⟩

end Account

end Run

end Sprig
