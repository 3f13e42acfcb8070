import Sprig.Proofs.Run.Safety

/-!
# The points of a run

A job is a piece of the work of a run: a program, a statement, an expression, a block, what is left
of a loop, or the parameters that are still to be bound. While it works on a job, a run starts other
jobs, each in a state of its own. The jobs that are started in this way are the points of the run,
in the middle of arguments, blocks, loops and calls, also when the run fails later or never ends.

## Implementation notes

The work that leads from the start of a job to the start of the next one is a run itself, with some
fuel. What a job starts does not depend on how the run goes on from there.
-/

namespace Sprig

/-- The state inside of one more node, if the limit allows it. -/
def State.Enters (limits : Limits) (s t : State) : Prop :=
  (s.depth : Int) + 1 ≤ limits.depth ∧ t = { s with depth := s.depth + 1 }

/-- The expressions that a node takes the values of before it does anything with them. -/
def Tree.operands : Tree → List Tree
  | .assignment _ value | .print value | .expressionStatement value => [value]
  | .ifStatement condition _ _ => [condition]
  | .elementAssignment _ index value => [index, value]
  | .returnStatement (.scalar .none) => []
  | .returnStatement value => [value]
  | .unary _ operand => [operand]
  | .binary _ left right | .comparison _ left right => [left, right]
  | .arrayLiteral (.list elements) => elements
  | .elementAccess _ index => [index]
  | .methodCall _ _ (.list args) | .methodExpression _ _ (.list args) | .call _ (.list args) => args
  | _ => []

/-- A piece of the work of a run. -/
inductive Job
  /-- The statements of a program. -/
  | program (trees : List Tree)
  /-- A statement. -/
  | statement (tree : Tree)
  /-- An expression. -/
  | expression (tree : Tree)
  /-- The statements of a block. -/
  | block (trees : List Tree)
  /-- The rounds of a loop, from a test on. -/
  | loop (condition : Tree) (body : List Tree)
  /-- The parameters that are still to be bound, and their arguments. -/
  | parameters (params : List Tree) (args : List Value)

/-- Whether a job is of the shape that programs from texts give it. -/
def Job.IsShaped : Job → Prop
  | program trees => Tree.IsProgram trees
  | statement tree => tree.IsStatement
  | expression tree => tree.IsExpression
  | block trees => Tree.IsProgram trees
  | loop condition body => condition.IsExpression ∧ Tree.IsProgram body
  | parameters params args =>
      (∃ words : List String, params = words.map .text) ∧ ∀ v ∈ args, v.IsProper

namespace Run

open Contract

/-- What a node does before it comes to its operands: it finds its array or its function. -/
def opening : Tree → Run Unit
  | .elementAccess array _ | .elementAssignment array _ _ | .methodCall array _ _
  | .methodExpression array _ _ => do let _ ← lookupArray (← scalarPart array)
  | .call name _ => do
    let name ← scalarPart name
    match ← read (·.functions.get? name) with
    | some _ => return ()
    | none => fail (.undefinedFunction name)
  | _ => pure ()

/-- The test of a branch or a loop, with the event that it notes. -/
def test (fuel : Nat) (event : String → Bool → Event) (condition : Tree) : Run Bool := do
  let v ← evaluate fuel condition
  note 3 (do return event (← display v) v.isTruthy)
  return v.isTruthy

/-- What a call does before it binds the parameters: it takes the values of the arguments. -/
def arguments (fuel : Nat) (name : String) (args : List Tree) : Run (List Value) := do
  let vs ← values (evaluate fuel) args
  note 1 (do return .calling (.text name) (← displayAll vs))
  return vs

theorem execute_ifStatement (fuel : Nat) (condition : Tree) (body rest : List Tree) :
    execute (fuel + 1) (.ifStatement condition (.list body) (.list rest)) = nested .ifStatement (do
      if ← test fuel .branchTested condition then block (execute fuel) (plain .none) body
      else block (execute fuel) (plain .none) rest) := by
  simp only [execute, test, bind_assoc, pure_bind, listPart_list]

theorem execute_whileStatement (fuel : Nat) (condition : Tree) (body : List Tree) :
    execute (fuel + 1) (.whileStatement condition (.list body)) = nested .whileStatement
      (repeatWhile (test fuel .loopTested condition) (block (execute fuel) (plain .none) body) fuel
        (plain .none)) := by
  simp only [execute, test, listPart_list, pure_bind]

/-- The work of a job. -/
def job (fuel : Nat) : Job → Run Value
  | .program trees => statements fuel trees
  | .statement tree => do return (← execute fuel tree).value
  | .expression tree => evaluate fuel tree
  | .block trees => do return (← block (execute fuel) (plain .none) trees).value
  | .loop condition body => do
    let round := block (execute fuel) (plain .none) body
    return (← repeatWhile (test fuel .loopTested condition) round fuel (plain .none)).value
  | .parameters params args => do
    bindAll params args
    return .none

/-- Which jobs a run starts while it works on one, and in which states. -/
inductive Starts (limits : Limits) : Job → State → Job → State → Prop
  | program {fuel front tree rest s t}
      (before : (do let _ ← statements fuel front; note 1 (return .executing tree.label))
        limits s = .done () t) :
      Starts limits (.program (front ++ tree :: rest)) s (.statement tree) t
  | block {fuel front tree rest last s t}
      (before : Run.block (execute fuel) (plain .none) front limits s = .done last t)
      (goesOn : last.returning = false) :
      Starts limits (.block (front ++ tree :: rest)) s (.statement tree) t
  | operand {job fuel tree front e rest vs s mid t}
      (node : job = .expression tree ∨ job = .statement tree)
      (split : tree.operands = front ++ e :: rest) (enters : s.Enters limits mid)
      (before : (do opening tree; values (evaluate fuel) front) limits mid = .done vs t) :
      Starts limits job s (.expression e) t
  | ifBlock {fuel condition body other s mid t} (enters : s.Enters limits mid)
      (before : test fuel .branchTested condition limits mid = .done true t) :
      Starts limits (.statement (.ifStatement condition (.list body) other)) s (.block body) t
  | elseBlock {fuel condition body rest s mid t} (enters : s.Enters limits mid)
      (before : test fuel .branchTested condition limits mid = .done false t) :
      Starts limits (.statement (.ifStatement condition body (.list rest))) s (.block rest) t
  | loop {condition body s t} (enters : s.Enters limits t) :
      Starts limits (.statement (.whileStatement condition (.list body))) s (.loop condition body) t
  | loopTest {condition body s} : Starts limits (.loop condition body) s (.expression condition) s
  | loopBody {fuel condition body s t}
      (before : test fuel .loopTested condition limits s = .done true t) :
      Starts limits (.loop condition body) s (.block body) t
  | loopAgain {fuel condition body last s mid t}
      (before : test fuel .loopTested condition limits s = .done true mid)
      (round : Run.block (execute fuel) (plain .none) body limits mid = .done last t)
      (goesOn : last.returning = false) :
      Starts limits (.loop condition body) s (.loop condition body) t
  | parameters {fuel name args params body vs s mid t} (enters : s.Enters limits mid)
      (function : s.functions.get? (.text name) = some ⟨.list params, body⟩)
      (before : arguments fuel name args limits mid = .done vs t) :
      Starts limits (.expression (.call (.text name) (.list args))) s (.parameters params vs) t
  | parameter {param params args s t} (before : bindAll [param] args limits s = .done () t) :
      Starts limits (.parameters (param :: params) args) s (.parameters params args.tail) t
  | body {fuel name args params trees vs s mid bound t} (enters : s.Enters limits mid)
      (function : s.functions.get? (.text name) = some ⟨.list params, .list trees⟩)
      (before : arguments fuel name args limits mid = .done vs bound)
      (binding : bindAll params vs limits bound = .done () t) :
      Starts limits (.expression (.call (.text name) (.list args))) s (.block trees) t

/-- Which jobs a run comes to from one, and in which states. -/
inductive Visits (limits : Limits) (first : Job) (s : State) : Job → State → Prop
  | start : Visits limits first s first s
  | next {job inner t u} (visits : Visits limits first s job t)
      (starts : Starts limits job t inner u) : Visits limits first s inner u

variable {limits : Limits} {s t : State}

theorem isExpression_of_mem_operands {tree : Tree} (h : tree.IsExpression ∨ tree.IsStatement) :
    ∀ e ∈ tree.operands, e.IsExpression := by
  rcases h with h | h
  · cases h <;> simp_all [Tree.operands]
  · cases h with
    | emptyReturn => simp [Tree.operands, Tree.none]
    | valueReturn hvalue =>
        have hinner := hvalue
        cases hvalue <;> simpa [Tree.operands] using hinner
    | _ => simp_all [Tree.operands]

theorem meets_opening {tree : Tree} (h : tree.IsExpression ∨ tree.IsStatement) :
    Meets wellFormed (fun _ => True) (opening tree) := by
  have hC := wellFormed_carries.encloses
  have harray : ∀ array : String, Meets wellFormed (fun _ => True)
      (do let _ ← lookupArray (← scalarPart (.text array))) := by
    intro array
    apply meets_bind (meets_scalarPart_proper (.text array))
    intro name _
    exact meets_bind (meets_lookupArray hC name) fun _ _ => meets_pure trivial
  rcases h with h | h
  · cases h with
    | elementAccess | methodExpression => exact harray _
    | call =>
        apply meets_bind (meets_scalarPart_proper _)
        intro name _
        apply meets_bind (meets_function name)
        intro function? _
        cases function? with
        | none => exact meets_fail (allows_of_category hC rfl (by decide))
        | some function => exact meets_pure trivial
    | _ => exact meets_pure trivial
  · cases h with
    | elementAssignment | methodCall => exact harray _
    | _ => exact meets_pure trivial

theorem meets_test (fuel : Nat) (event : String → Bool → Event) {condition : Tree}
    (h : condition.IsExpression) :
    Meets wellFormed (fun _ => True) (test fuel event condition) := by
  apply meets_bind ((safe_of_fuel fuel).evaluate h)
  intro v _
  apply meets_bind (meets_noteText wellFormed_carries.encloses 3 v _)
  exact fun _ _ => meets_pure trivial

theorem meets_arguments (fuel : Nat) (name : String) {args : List Tree}
    (h : ∀ tree ∈ args, tree.IsExpression) :
    Meets wellFormed (fun vs => ∀ v ∈ vs, v.IsProper) (arguments fuel name args) := by
  apply meets_bind ((safe_of_fuel fuel).values h)
  intro vs hvs
  apply meets_bind (meets_noteTexts wellFormed_carries.encloses 1 vs _)
  exact fun _ _ => meets_pure hvs

/-- Working on a job that is shaped keeps the state well formed, and gives a proper value. -/
theorem meets_job (fuel : Nat) {piece : Job} (h : piece.IsShaped) :
    Meets wellFormed Value.IsProper (job fuel piece) := by
  have hsafe := safe_of_fuel fuel
  cases piece with
  | program trees => exact meets_statements fuel h
  | statement tree => exact meets_bind (hsafe.execute h) fun _ hlast => meets_pure hlast
  | expression tree => exact hsafe.evaluate h
  | block trees => exact meets_bind (hsafe.block h) fun _ hlast => meets_pure hlast
  | loop condition body =>
      refine meets_bind
        (meets_repeatWhile (meets_test fuel _ h.1) (hsafe.block h.2) fuel isProper_none) ?_
      exact fun _ hlast => meets_pure hlast
  | parameters params args =>
      obtain ⟨⟨words, rfl⟩, hargs⟩ := h
      apply meets_bind (meets_bindAll_proper words hargs)
      exact fun _ _ => meets_pure isProper_none

/-- Whatever a shaped job starts is shaped, and starts in a well-formed state. -/
theorem isShaped_of_starts {piece inner : Job} (h : Starts limits piece s inner t)
    (hshape : piece.IsShaped) (hs : s.WellFormed) : inner.IsShaped ∧ t.WellFormed := by
  have hentered : ∀ {mid : State}, s.Enters limits mid → mid.WellFormed := by
    rintro mid ⟨-, rfl⟩
    exact wellFormed.holds_of_same s rfl rfl rfl hs
  cases h with
  | @program fuel front tree rest _ _ before =>
      have htrees := List.forall_mem_append.mp hshape
      have hbefore : Meets wellFormed (fun _ => True)
          (do let _ ← statements fuel front; note 1 (return .executing tree.label)) := by
        apply meets_bind (meets_statements fuel htrees.1)
        exact fun _ _ => meets_note (meets_pure trivial)
      exact ⟨htrees.2 tree (by simp), (hbefore.of_done hs before).2⟩
  | @block fuel front tree rest last _ _ before goesOn =>
      have htrees := List.forall_mem_append.mp hshape
      have hbefore := (safe_of_fuel fuel).block htrees.1
      exact ⟨htrees.2 tree (by simp), (hbefore.of_done hs before).2⟩
  | @operand _ fuel tree front e rest vs _ mid _ node split enters before =>
      have htree : tree.IsExpression ∨ tree.IsStatement := by
        rcases node with rfl | rfl
        · exact .inl hshape
        · exact .inr hshape
      have hoperands := isExpression_of_mem_operands htree
      rw [split] at hoperands
      have hfront := List.forall_mem_append.mp hoperands
      have hbefore := meets_bind (meets_opening htree)
        fun _ _ => (safe_of_fuel fuel).values hfront.1
      exact ⟨hfront.2 e (by simp), (hbefore.of_done (hentered enters) before).2⟩
  | @ifBlock fuel condition body other _ mid _ enters before =>
      cases hshape with
      | ifOnly hcondition hbody | ifElse hcondition hbody _ =>
          exact ⟨hbody, ((meets_test fuel _ hcondition).of_done (hentered enters) before).2⟩
  | @elseBlock fuel condition body rest _ mid _ enters before =>
      cases hshape with
      | ifElse hcondition _ hrest =>
          exact ⟨hrest, ((meets_test fuel _ hcondition).of_done (hentered enters) before).2⟩
  | loop enters =>
      cases hshape with
      | «while» hcondition hbody => exact ⟨⟨hcondition, hbody⟩, hentered enters⟩
  | loopTest => exact ⟨hshape.1, hs⟩
  | @loopBody fuel _ _ _ _ before =>
      exact ⟨hshape.2, ((meets_test fuel _ hshape.1).of_done hs before).2⟩
  | @loopAgain fuel _ _ _ _ mid _ before round goesOn =>
      have hmid := (meets_test fuel _ hshape.1).of_done hs before
      have hround := (safe_of_fuel fuel).block hshape.2
      exact ⟨hshape, (hround.of_done hmid.2 round).2⟩
  | @parameters fuel name args params body vs _ mid _ enters function before =>
      cases hshape with
      | call hargs =>
          obtain ⟨words, hparams⟩ := (hs.isParsed_of_get? function).params
          have hvs := (meets_arguments fuel name hargs).of_done (hentered enters) before
          exact ⟨⟨⟨words, Tree.list.inj hparams⟩, hvs.1⟩, hvs.2⟩
  | @parameter param params args _ _ before =>
      obtain ⟨⟨words, hwords⟩, hargs⟩ := hshape
      cases words with
      | nil => cases hwords
      | cons word words =>
          obtain ⟨rfl, rfl⟩ := List.cons.inj hwords
          have hbound := (meets_bindAll_proper [word] hargs).of_done hs before
          exact ⟨⟨⟨words, rfl⟩, fun v hv => hargs v (List.mem_of_mem_tail hv)⟩, hbound.2⟩
  | @body fuel name args params trees vs _ mid bound _ enters function before binding =>
      cases hshape with
      | call hargs =>
          obtain ⟨⟨words, hparams⟩, ⟨body, hbody, hprogram⟩⟩ := hs.isParsed_of_get? function
          obtain rfl := Tree.list.inj hparams
          obtain rfl := Tree.list.inj hbody
          have hvs := (meets_arguments fuel name hargs).of_done (hentered enters) before
          exact ⟨hprogram, ((meets_bindAll_proper words hvs.1).of_done hvs.2 binding).2⟩

/-- Every point of the run of a shaped job is a shaped job in a well-formed state. -/
theorem isShaped_of_visits {first piece : Job} (h : Visits limits first s piece t)
    (hshape : first.IsShaped) (hs : s.WellFormed) : piece.IsShaped ∧ t.WellFormed := by
  induction h with
  | start => exact ⟨hshape, hs⟩
  | next _ starts ih => exact isShaped_of_starts starts ih.1 ih.2

end Run

end Sprig
