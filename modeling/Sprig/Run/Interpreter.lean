import Sprig.Run.Block
import Sprig.Run.Element
import Sprig.Run.Operator

/-!
# The interpreter

`evaluate` works on expressions and `execute` on statements. A call binds its parameters in the one
table of variables, and when the body of the function ends the table is put back as it was before
the call. The arrays are not put back, since the heap is not part of the table.

## Implementation notes

The first argument is fuel. Each node passes on one less than it was given, and so does each round
of a loop.
-/

namespace Sprig.Run

mutual

/-- The value of an expression. -/
def evaluate : (fuel : Nat) → Tree → Run Value
  | 0, _ => spent
  | fuel + 1, tree =>
    match tree with
    | .number value => nested .number do return .ofScalar (← scalarPart value)
    | .string value => nested .string do return .ofScalar (← scalarPart value)
    | .boolean value => nested .boolean do return .ofScalar (← scalarPart value)
    | .variable name => nested .variable do lookup (← scalarPart name)
    | .unary operator operand => nested .unary do
      let v ← evaluate fuel operand
      let operator ← scalarPart operator
      lift (applyUnary operator v)
    | .binary operator left right => nested .binary do
      let l ← evaluate fuel left
      let r ← evaluate fuel right
      let operator ← scalarPart operator
      applyBinary operator l r
    | .comparison operator left right => nested .comparison do
      let l ← evaluate fuel left
      let r ← evaluate fuel right
      let operator ← scalarPart operator
      lift (applyComparison operator l r)
    | .arrayLiteral elements => nested .arrayLiteral do
      let items ← values (evaluate fuel) (← listPart elements)
      newArray items.toArray
    | .elementAccess array index => nested .elementAccess do
      let address ← lookupArray (← scalarPart array)
      let index ← evaluate fuel index
      elementAt address index
    | .methodExpression array method args =>
      nested .methodExpression (callMethod fuel array method args)
    | .arrayProperty array property => nested .arrayProperty do
      let address ← lookupArray (← scalarPart array)
      applyProperty address (← scalarPart property)
    | .call name args => nested .call do
      let name ← scalarPart name
      match ← read (·.functions.get? name) with
      | none => fail (.undefinedFunction name)
      | some function =>
        let args ← values (evaluate fuel) (← listPart args)
        note 1 (do return .calling name (← displayAll args))
        let kept ← read (·.bindings)
        bindAll (← listPart function.params) args
        let completion ← block (execute fuel) (plain .none) (← listPart function.body)
        change fun s => { s with bindings := kept }
        note 1 (do return .returned name (← display completion.value))
        return completion.value
    | tree => fail (.unexpectedTree .expression tree.label)

/-- The value of a method of an array, which a statement or an expression calls. -/
def callMethod : (fuel : Nat) → (array method args : Tree) → Run Value
  | 0, _, _, _ => spent
  | fuel + 1, array, method, args => do
    let array ← scalarPart array
    let address ← lookupArray array
    let args ← values (evaluate fuel) (← listPart args)
    let method ← scalarPart method
    let v ← applyMethod address method args
    note 3 (do return .methodAnswered array method (← display v))
    return v

/-- Runs a statement. -/
def execute : (fuel : Nat) → Tree → Run Completion
  | 0, _ => spent
  | fuel + 1, tree =>
    match tree with
    | .assignment name value => nested .assignment do
      let v ← evaluate fuel value
      let name ← scalarPart name
      assign name v
      note 2 (do return .assigned name v.kind (← display v))
      return plain v
    | .print value => nested .print do
      let v ← evaluate fuel value
      printLine (← display v)
      return plain v
    | .expressionStatement expression => nested .expressionStatement do
      return plain (← evaluate fuel expression)
    | .ifStatement condition ifBlock elseBlock => nested .ifStatement do
      let v ← evaluate fuel condition
      note 3 (do return .branchTested (← display v) v.isTruthy)
      if v.isTruthy then block (execute fuel) (plain .none) (← listPart ifBlock)
      else
        match elseBlock with
        | .scalar .none => return plain .none
        | elseBlock => block (execute fuel) (plain .none) (← listPart elseBlock)
    | .whileStatement condition body => nested .whileStatement do
      let test : Run Bool := do
        let v ← evaluate fuel condition
        note 3 (do return .loopTested (← display v) v.isTruthy)
        return v.isTruthy
      let round : Run Completion := do
        block (execute fuel) (plain .none) (← listPart body)
      repeatWhile test round fuel (plain .none)
    | .elementAssignment array index value => nested .elementAssignment do
      let array ← scalarPart array
      let address ← lookupArray array
      let index ← evaluate fuel index
      let v ← evaluate fuel value
      setElement address index v
      note 3 (do return .elementSet array (← display index) (← display v))
      return plain v
    | .methodCall array method args => nested .methodCall do
      return plain (← callMethod fuel array method args)
    | .functionDeclaration name params body => nested .functionDeclaration do
      let name ← scalarPart name
      change fun s => { s with functions := s.functions.set name ⟨params, body⟩ }
      note 2 (do return .defined name (← textParts (← listPart params)))
      return plain .none
    | .returnStatement value => nested .returnStatement do
      match value with
      | .scalar .none => return ⟨.none, true⟩
      | value => return ⟨← evaluate fuel value, true⟩
    | tree => fail (.unexpectedTree .statement tree.label)

end

/-- No fuel runs no expression. -/
theorem evaluate_zero (tree : Tree) : evaluate 0 tree = spent := by
  rw [evaluate]

/-- No fuel runs no statement. -/
theorem execute_zero (tree : Tree) : execute 0 tree = spent := by
  rw [execute]

end Sprig.Run
