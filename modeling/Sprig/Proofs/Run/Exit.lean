import Sprig.Proofs.Run.Contract
import Sprig.Run.Program

/-!
# Runs that a `return` leaves by itself

Here a `return` is an ending of its own, beside value, fault and spent fuel. It carries its value
past blocks, branches, loops, conditions and arguments, none of which look at it, up to the nearest
call or to the statement of the program in which it is executed. No statement tells whether a
`return` is under way, and nothing forwards one.

## Implementation notes

What a `return` has no part in is the same as for other runs: variables, arrays, operators, texts
and events. These steps are taken over from there.
-/

namespace Sprig

/-- How a step ends that a `return` may leave. -/
inductive Exit (α : Type)
  | done (value : α) (after : State)
  | returned (value : Value) (after : State)
  | failed (fault : Fault) (after : State)
  | outOfFuel (after : State)

/-- The ending of a step that no `return` leaves. -/
def Exit.ofOutcome {α : Type} : Outcome α → Exit α
  | .done value after => .done value after
  | .failed fault after => .failed fault after
  | .outOfFuel after => .outOfFuel after

/-- A step that a `return` may leave. -/
def Exiting (α : Type) : Type := Limits → State → Exit α

namespace Exiting

variable {α β : Type}

/-- Runs one step, and on its value and state the next one. -/
def andThen (first : Exiting α) (next : α → Exiting β) : Exiting β := fun limits s =>
  match first limits s with
  | .done value after => next value limits after
  | .returned value after => .returned value after
  | .failed fault after => .failed fault after
  | .outOfFuel after => .outOfFuel after

instance : Monad Exiting where
  pure value := fun _ s => .done value s
  bind := andThen

instance : LawfulMonad Exiting := by
  refine LawfulMonad.mk' Exiting ?_ ?_ ?_
  · intro α work
    funext limits s
    change andThen work pure limits s = work limits s
    rw [andThen]
    cases work limits s <;> rfl
  · intro α β a next
    rfl
  · intro α β γ first next last
    funext limits s
    change andThen (andThen first next) last limits s =
      andThen first (fun a => andThen (next a) last) limits s
    simp only [andThen]
    cases first limits s <;> rfl

/-- A step that no `return` leaves. -/
def ofRun (run : Run α) : Exiting α := fun limits s => .ofOutcome (run limits s)

instance : MonadLift Run Exiting := ⟨ofRun⟩

/-- Gives up because no fuel is left. -/
def spent : Exiting α := fun _ s => .outOfFuel s

/-- Leaves with a value. -/
def giveBack (v : Value) : Exiting α := fun _ s => .returned v s

/-- Ends a `return` that leaves a step: its value is that of the step. -/
def catchReturn (work : Exiting Value) : Exiting Value := fun limits s =>
  match work limits s with
  | .returned value after => .done value after
  | exit => exit

/-- Works on a node inside of those that are being worked on, if the limit allows one more. However
the work is left, one node less is being worked on then. -/
def nested (kind : NodeKind) (work : Exiting α) : Exiting α := fun limits s =>
  if limits.depth < (s.depth : Int) + 1 then .failed (.depthExceeded limits.depth kind) s
  else
    match work limits { s with depth := s.depth + 1 } with
    | .done value after => .done value { after with depth := after.depth - 1 }
    | .returned value after => .returned value { after with depth := after.depth - 1 }
    | .failed fault after => .failed fault { after with depth := after.depth - 1 }
    | .outOfFuel after => .outOfFuel after

/-- Runs statements one after the other. The value of the last one is that of the block; an empty
block has the value given. -/
def block (statement : Tree → Exiting Value) : Value → List Tree → Exiting Value
  | last, [] => pure last
  | _, tree :: trees => do
    let v ← statement tree
    block statement v trees

/-- Runs a body as long as a test holds. -/
def repeatWhile (test : Exiting Bool) (body : Exiting Value) :
    (fuel : Nat) → Value → Exiting Value
  | 0, _ => spent
  | fuel + 1, last => do
    if ← test then
      let v ← body
      repeatWhile test body fuel v
    else return last

/-- The values of some trees, from left to right. -/
def values (value : Tree → Exiting Value) : List Tree → Exiting (List Value)
  | [] => pure []
  | tree :: trees => do
    let first ← value tree
    let rest ← values value trees
    return first :: rest

open Run (scalarPart listPart textParts lookup lookupArray assign newArray display displayAll
  printLine note read change fail lift bindAll elementAt setElement applyUnary applyBinary
  applyComparison applyMethod applyProperty)

mutual

/-- The value of an expression. -/
def evaluate : (fuel : Nat) → Tree → Exiting Value
  | 0, _ => spent
  | fuel + 1, tree =>
    match tree with
    | .number value => nested .number do return .ofScalar (← scalarPart value)
    | .string value => nested .string do return .ofScalar (← scalarPart value)
    | .boolean value => nested .boolean do return .ofScalar (← scalarPart value)
    | .variable name => nested .variable do lookup (← scalarPart name)
    | .unary operator operand => nested .unary do
      let v ← evaluate fuel operand
      let operator ← scalarPart operator
      lift (applyUnary operator v)
    | .binary operator left right => nested .binary do
      let l ← evaluate fuel left
      let r ← evaluate fuel right
      let operator ← scalarPart operator
      applyBinary operator l r
    | .comparison operator left right => nested .comparison do
      let l ← evaluate fuel left
      let r ← evaluate fuel right
      let operator ← scalarPart operator
      lift (applyComparison operator l r)
    | .arrayLiteral elements => nested .arrayLiteral do
      let items ← values (evaluate fuel) (← listPart elements)
      newArray items.toArray
    | .elementAccess array index => nested .elementAccess do
      let address ← lookupArray (← scalarPart array)
      let index ← evaluate fuel index
      elementAt address index
    | .methodExpression array method args =>
      nested .methodExpression (callMethod fuel array method args)
    | .arrayProperty array property => nested .arrayProperty do
      let address ← lookupArray (← scalarPart array)
      applyProperty address (← scalarPart property)
    | .call name args => nested .call do
      let name ← scalarPart name
      match ← read (·.functions.get? name) with
      | none => fail (.undefinedFunction name)
      | some function =>
        let args ← values (evaluate fuel) (← listPart args)
        note 1 (do return .calling name (← displayAll args))
        let kept ← read (·.bindings)
        bindAll (← listPart function.params) args
        let body ← listPart function.body
        let v ← catchReturn (block (execute fuel) .none body)
        change fun s => { s with bindings := kept }
        note 1 (do return .returned name (← display v))
        return v
    | tree => fail (.unexpectedTree .expression tree.label)

/-- The value of a method of an array, which a statement or an expression calls. -/
def callMethod : (fuel : Nat) → (array method args : Tree) → Exiting Value
  | 0, _, _, _ => spent
  | fuel + 1, array, method, args => do
    let array ← scalarPart array
    let address ← lookupArray array
    let args ← values (evaluate fuel) (← listPart args)
    let method ← scalarPart method
    let v ← applyMethod address method args
    note 3 (do return .methodAnswered array method (← display v))
    return v

/-- Runs a statement, and tells its value. -/
def execute : (fuel : Nat) → Tree → Exiting Value
  | 0, _ => spent
  | fuel + 1, tree =>
    match tree with
    | .assignment name value => nested .assignment do
      let v ← evaluate fuel value
      let name ← scalarPart name
      assign name v
      note 2 (do return .assigned name v.kind (← display v))
      return v
    | .print value => nested .print do
      let v ← evaluate fuel value
      printLine (← display v)
      return v
    | .expressionStatement expression => nested .expressionStatement (evaluate fuel expression)
    | .ifStatement condition ifBlock elseBlock => nested .ifStatement do
      let v ← evaluate fuel condition
      note 3 (do return .branchTested (← display v) v.isTruthy)
      if v.isTruthy then block (execute fuel) .none (← listPart ifBlock)
      else
        match elseBlock with
        | .scalar .none => return .none
        | elseBlock => block (execute fuel) .none (← listPart elseBlock)
    | .whileStatement condition body => nested .whileStatement do
      let test : Exiting Bool := do
        let v ← evaluate fuel condition
        note 3 (do return .loopTested (← display v) v.isTruthy)
        return v.isTruthy
      let round : Exiting Value := do
        block (execute fuel) .none (← listPart body)
      repeatWhile test round fuel .none
    | .elementAssignment array index value => nested .elementAssignment do
      let array ← scalarPart array
      let address ← lookupArray array
      let index ← evaluate fuel index
      let v ← evaluate fuel value
      setElement address index v
      note 3 (do return .elementSet array (← display index) (← display v))
      return v
    | .methodCall array method args => nested .methodCall (callMethod fuel array method args)
    | .functionDeclaration name params body => nested .functionDeclaration do
      let name ← scalarPart name
      change fun s => { s with functions := s.functions.set name ⟨params, body⟩ }
      note 2 (do return .defined name (← textParts (← listPart params)))
      return .none
    | .returnStatement value => nested .returnStatement do
      match value with
      | .scalar .none => giveBack .none
      | value => giveBack (← evaluate fuel value)
    | tree => fail (.unexpectedTree .statement tree.label)

end

/-- Runs the statements of a program from the first to the last. A `return` ends its own statement
only. -/
def statements (fuel : Nat) (trees : List Tree) : Exiting Value :=
  trees.foldlM (fun _ tree => do
    note 1 (return .executing tree.label)
    catchReturn (execute fuel tree)) .none

/-- Runs a program, if its depth limit can be kept. -/
def program (fuel : Nat) (trees : List Tree) : Exiting Value := fun limits s =>
  if Run.greatestDepth < limits.depth then .failed .limitTooLarge s
  else statements fuel trees limits s

section Endings

/-- The ending of a statement that tells whether a `return` is under way, as an ending of its own if
it is. -/
def ofCompletion (run : Run Completion) : Exiting Value := fun limits s =>
  match run limits s with
  | .done completion after =>
    if completion.returning then .returned completion.value after else .done completion.value after
  | .failed fault after => .failed fault after
  | .outOfFuel after => .outOfFuel after

theorem liftM_eq (run : Run α) : (liftM run : Exiting α) = ofRun run := rfl

theorem ofRun_pure (a : α) : ofRun (pure a) = pure a := rfl

theorem ofRun_spent : ofRun (Run.spent : Run α) = spent := rfl

theorem ofRun_bind (first : Run α) (next : α → Run β) :
    ofRun (first >>= next) = ofRun first >>= fun a => ofRun (next a) := by
  funext limits s
  change Exit.ofOutcome ((first >>= next) limits s) =
    andThen (ofRun first) (fun a => ofRun (next a)) limits s
  rw [Run.bind_apply, andThen, ofRun]
  cases first limits s <;> rfl

theorem ofRun_nested (kind : NodeKind) (work : Run α) :
    ofRun (Run.nested kind work) = nested kind (ofRun work) := by
  funext limits s
  rw [nested, ofRun, ofRun, Run.nested]
  split
  · rfl
  · cases work limits { s with depth := s.depth + 1 } <;> rfl

theorem ofRun_values (value : Tree → Run Value) (trees : List Tree) :
    ofRun (Run.values value trees) = values (fun tree => ofRun (value tree)) trees := by
  induction trees with
  | nil => rfl
  | cons tree trees ih => simp only [values, Run.values, ← ih, ofRun_bind, ofRun_pure]

theorem ofRun_foldlM {γ : Type} (step : α → γ → Run α) (items : List γ) (first : α) :
    ofRun (items.foldlM step first) = items.foldlM (fun a item => ofRun (step a item)) first := by
  induction items generalizing first with
  | nil => rfl
  | cons item items ih => simp only [List.foldlM_cons, ofRun_bind, ih]

theorem ofCompletion_plain (v : Value) : ofCompletion (pure (Run.plain v)) = pure v := rfl

theorem ofCompletion_fail (fault : Fault) : ofCompletion (fail fault) = ofRun (fail fault) := rfl

theorem ofCompletion_spent : ofCompletion Run.spent = spent := rfl

theorem ofCompletion_bind (first : Run α) (next : α → Run Completion) :
    ofCompletion (first >>= next) = ofRun first >>= fun a => ofCompletion (next a) := by
  funext limits s
  change ofCompletion (first >>= next) limits s =
    andThen (ofRun first) (fun a => ofCompletion (next a)) limits s
  rw [ofCompletion, Run.bind_apply, andThen, ofRun]
  cases first limits s <;> rfl

theorem ofCompletion_nested (kind : NodeKind) (work : Run Completion) :
    ofCompletion (Run.nested kind work) = nested kind (ofCompletion work) := by
  funext limits s
  symm
  rw [nested, ofCompletion, ofCompletion, Run.nested]
  split
  · rfl
  · cases work limits { s with depth := s.depth + 1 } with
    | done completion after =>
        obtain ⟨v, returning⟩ := completion
        cases returning <;> rfl
    | failed fault after => rfl
    | outOfFuel after => rfl

/-- Forwarding a `return` that is under way is leaving by it. -/
theorem ofCompletion_forward (first : Run Completion) (next : Completion → Run Completion) :
    ofCompletion (do
      let completion ← first
      if completion.returning then return completion
      else next completion) =
    ofCompletion first >>= fun v => ofCompletion (next (Run.plain v)) := by
  funext limits s
  change ofCompletion (first >>= _) limits s =
    andThen (ofCompletion first) (fun v => ofCompletion (next (Run.plain v))) limits s
  rw [ofCompletion, Run.bind_apply, andThen, ofCompletion]
  cases first limits s with
  | done completion after =>
      obtain ⟨v, returning⟩ := completion
      cases returning <;> rfl
  | failed fault after => rfl
  | outOfFuel after => rfl

theorem ofCompletion_block (statement : Tree → Run Completion) (v : Value) (trees : List Tree) :
    ofCompletion (Run.block statement (Run.plain v) trees) =
      block (fun tree => ofCompletion (statement tree)) v trees := by
  induction trees generalizing v with
  | nil => rfl
  | cons tree trees ih =>
      simp only [block, Run.block, ← ih]
      exact ofCompletion_forward (statement tree) (Run.block statement · trees)

theorem ofCompletion_repeatWhile (test : Run Bool) (body : Run Completion) (fuel : Nat)
    (v : Value) : ofCompletion (Run.repeatWhile test body fuel (Run.plain v)) =
      repeatWhile (ofRun test) (ofCompletion body) fuel v := by
  induction fuel generalizing v with
  | zero => rfl
  | succ fuel ih =>
      simp only [repeatWhile, Run.repeatWhile, ← ih, ofCompletion_bind]
      congr 1
      funext holds
      split
      · exact ofCompletion_forward body (Run.repeatWhile test body fuel)
      · rfl

/-- Dropping whether a `return` is under way is ending it. -/
theorem catchReturn_ofCompletion (run : Run Completion) :
    catchReturn (ofCompletion run) = ofRun (do return (← run).value) := by
  funext limits s
  change catchReturn (ofCompletion run) limits s = Exit.ofOutcome ((run >>= _) limits s)
  rw [catchReturn, ofCompletion, Run.bind_apply]
  cases run limits s with
  | done completion after =>
      obtain ⟨v, returning⟩ := completion
      cases returning <;> rfl
  | failed fault after => rfl
  | outOfFuel after => rfl

end Endings

end Exiting

end Sprig
