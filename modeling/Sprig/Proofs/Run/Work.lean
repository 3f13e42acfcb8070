import Sprig.Proofs.Run.Visit

/-!
# The work of a run on trees of any shape

A task is a piece of the work of a run: a program, a block, a statement, an expression, the operands
of a node, or what is left of a loop. While it works on a task, a run begins other tasks, each in a
state of its own. The tasks it comes to in this way are all that the run works on, whatever trees
the program and the functions hold.

## Implementation notes

`Visits` gives the points of programs that were parsed, and takes the operands of a node at once.
Here lists are worked on one item at a time, as the interpreter does it, and what a node works on is
found by the steps that the interpreter takes.
-/

namespace Sprig

/-- A piece of the work of a run. -/
inductive Task
  /-- The statements of a program. -/
  | program (trees : List Tree)
  /-- The statements of a block. -/
  | block (trees : List Tree)
  /-- A statement. -/
  | statement (tree : Tree)
  /-- An expression. -/
  | expression (tree : Tree)
  /-- Expressions whose values are taken one after the other. -/
  | operands (trees : List Tree)
  /-- The rounds of a loop, from a test on. -/
  | loop (condition body : Tree)

namespace Run

/-- Finds an array, and then the arguments of a method of it. -/
def argumentsOf (array args : Tree) : Run (List Tree) := do
  let _ ← lookupArray (← scalarPart array)
  listPart args

/-- Finds the array or the function of an expression, and then its operands. -/
def expressionOperands : Tree → Run (List Tree)
  | .number _ | .string _ | .boolean _ | .variable _ | .arrayProperty _ _ => pure []
  | .unary _ operand => pure [operand]
  | .binary _ left right | .comparison _ left right => pure [left, right]
  | .arrayLiteral elements => listPart elements
  | .elementAccess array index => do
    let _ ← lookupArray (← scalarPart array)
    return [index]
  | .methodExpression array _ args => argumentsOf array args
  | .call name args => do
    let name ← scalarPart name
    match ← read (·.functions.get? name) with
    | none => fail (.undefinedFunction name)
    | some _ => listPart args
  | tree => fail (.unexpectedTree .expression tree.label)

/-- Finds the array of a statement, and then its operands. -/
def statementOperands : Tree → Run (List Tree)
  | .assignment _ value | .print value | .expressionStatement value => pure [value]
  | .ifStatement condition _ _ => pure [condition]
  | .whileStatement _ _ | .functionDeclaration _ _ _ => pure []
  | .elementAssignment array index value => do
    let _ ← lookupArray (← scalarPart array)
    return [index, value]
  | .methodCall array _ args => argumentsOf array args
  | .returnStatement (.scalar .none) => pure []
  | .returnStatement value => pure [value]
  | tree => fail (.unexpectedTree .statement tree.label)

/-- The block of a branch that is taken. -/
def branchOf (fuel : Nat) (condition ifBlock elseBlock : Tree) : Run (List Tree) := do
  if ← test fuel .branchTested condition then listPart ifBlock
  else
    match elseBlock with
    | .scalar .none => return []
    | elseBlock => listPart elseBlock

/-- The body of a function that is called, once its parameters are bound. -/
def calleeOf (fuel : Nat) (name args : Tree) : Run (List Tree) := do
  let name ← scalarPart name
  match ← read (·.functions.get? name) with
  | none => fail (.undefinedFunction name)
  | some function =>
    let args ← values (evaluate fuel) (← listPart args)
    note 1 (do return .calling name (← displayAll args))
    bindAll (← listPart function.params) args
    listPart function.body

/-- Which tasks a run begins while it works on one, and in which states. -/
inductive Begins (limits : Limits) : Task → State → Task → State → Prop
  | program {tree rest s t}
      (before : note 1 (return .executing tree.label) limits s = .done () t) :
      Begins limits (.program (tree :: rest)) s (.statement tree) t
  | programRest {fuel tree rest v s t}
      (before : (do
        note 1 (return .executing tree.label)
        return (← execute fuel tree).value) limits s = .done v t) :
      Begins limits (.program (tree :: rest)) s (.program rest) t
  | block {tree rest s} : Begins limits (.block (tree :: rest)) s (.statement tree) s
  | blockRest {fuel tree rest last s t} (before : execute fuel tree limits s = .done last t)
      (goesOn : last.returning = false) : Begins limits (.block (tree :: rest)) s (.block rest) t
  | operand {tree rest s} : Begins limits (.operands (tree :: rest)) s (.expression tree) s
  | operandRest {fuel tree rest v s t} (before : evaluate fuel tree limits s = .done v t) :
      Begins limits (.operands (tree :: rest)) s (.operands rest) t
  | expression {tree trees s mid t} (enters : s.Enters limits mid)
      (before : expressionOperands tree limits mid = .done trees t) :
      Begins limits (.expression tree) s (.operands trees) t
  | callee {fuel name args trees s mid t} (enters : s.Enters limits mid)
      (before : calleeOf fuel name args limits mid = .done trees t) :
      Begins limits (.expression (.call name args)) s (.block trees) t
  | statement {tree trees s mid t} (enters : s.Enters limits mid)
      (before : statementOperands tree limits mid = .done trees t) :
      Begins limits (.statement tree) s (.operands trees) t
  | branch {fuel condition ifBlock elseBlock trees s mid t} (enters : s.Enters limits mid)
      (before : branchOf fuel condition ifBlock elseBlock limits mid = .done trees t) :
      Begins limits (.statement (.ifStatement condition ifBlock elseBlock)) s (.block trees) t
  | loop {condition body s t} (enters : s.Enters limits t) :
      Begins limits (.statement (.whileStatement condition body)) s (.loop condition body) t
  | loopTest {condition body s} : Begins limits (.loop condition body) s (.expression condition) s
  | loopBody {fuel condition body trees s mid t}
      (before : test fuel .loopTested condition limits s = .done true mid)
      (items : listPart body limits mid = .done trees t) :
      Begins limits (.loop condition body) s (.block trees) t
  | loopAgain {fuel condition body last s mid t}
      (before : test fuel .loopTested condition limits s = .done true mid)
      (round : (do Run.block (execute fuel) (plain .none) (← listPart body)) limits mid =
        .done last t)
      (goesOn : last.returning = false) :
      Begins limits (.loop condition body) s (.loop condition body) t

/-- Which tasks a run comes to from one, and in which states. -/
inductive Comes (limits : Limits) (first : Task) (s : State) : Task → State → Prop
  | start : Comes limits first s first s
  | next {task inner t u} (comes : Comes limits first s task t)
      (begins : Begins limits task t inner u) : Comes limits first s inner u

end Run

end Sprig
