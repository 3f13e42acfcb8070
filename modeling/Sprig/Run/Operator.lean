import Sprig.Numeric.Power
import Sprig.Run.Basic

/-!
# Operators

What the operators of the language make of values. Arithmetic works on Numbers, except that `+`
joins texts as soon as one of its operands is a String. Equality takes all values, and order takes
two Numbers or two Strings.
-/

namespace Sprig.Run

/-- The operators of arithmetic. -/
inductive Arithmetic
  | add
  | subtract
  | multiply
  | divide
  | power
deriving DecidableEq, Repr

namespace Arithmetic

/-- How an operator is written. -/
def symbol : Arithmetic → String
  | add => "+"
  | subtract => "-"
  | multiply => "*"
  | divide => "/"
  | power => "^"

/-- The operator that is written in a way. -/
def ofScalar? (operator : Scalar) : Option Arithmetic :=
  [add, subtract, multiply, divide, power].find? fun op => operator = .text op.symbol

/-- The Number that an operator makes of two. -/
def apply : Arithmetic → Float → Float → Except Fault Float
  | add, x, y => .ok (x + y)
  | subtract, x, y => .ok (x - y)
  | multiply, x, y => .ok (x * y)
  | divide, x, y => if y == 0.0 then .error .divisionByZero else .ok (x / y)
  | power, x, y => .ok (Numeric.power x y)

/-- Every operator is found by the way it is written. -/
theorem ofScalar?_symbol (op : Arithmetic) : ofScalar? (.text op.symbol) = some op := by
  cases op <;> decide

end Arithmetic

/-- The comparisons by order. -/
inductive Order
  | less
  | greater
  | atMost
  | atLeast
deriving DecidableEq, Repr

namespace Order

/-- How a comparison is written. -/
def symbol : Order → String
  | less => "<"
  | greater => ">"
  | atMost => "<="
  | atLeast => ">="

/-- The comparison that is written in a way. -/
def ofScalar? (operator : Scalar) : Option Order :=
  [less, greater, atMost, atLeast].find? fun order => operator = .text order.symbol

/-- Whether two Numbers stand in an order; NaN stands in none. -/
def holdsOfNumbers : Order → Float → Float → Bool
  | less, x, y => x < y
  | greater, x, y => y < x
  | atMost, x, y => x ≤ y
  | atLeast, x, y => y ≤ x

/-- Whether two texts stand in an order, which goes by code points. -/
def holdsOfTexts : Order → String → String → Bool
  | less, a, b => a < b
  | greater, a, b => b < a
  | atMost, a, b => a ≤ b
  | atLeast, a, b => b ≤ a

/-- Every comparison is found by the way it is written. -/
theorem ofScalar?_symbol (order : Order) : ofScalar? (.text order.symbol) = some order := by
  cases order <;> decide

end Order

/-- The value of an operator in front of a value. -/
def applyUnary (operator : Scalar) (v : Value) : Except Fault Value :=
  if operator = .text "-" then
    match v with
    | .number x => .ok (.number (-x))
    | _ => .error (.negationOf v.kind)
  else .error (.unknownOperator .unary operator)

/-- The value of an operator of arithmetic between two values. -/
def applyArithmetic (operator : Scalar) (left right : Value) : Except Fault Value :=
  match Arithmetic.ofScalar? operator with
  | none => .error (.unknownOperator .binary operator)
  | some op =>
    match left, right with
    | .number x, .number y => (op.apply x y).map .number
    | _, _ => .error (.operandsOf operator left.kind right.kind)

/-- Whether an operator joins two values as texts. -/
def joinsTexts (operator : Scalar) (left right : Value) : Bool :=
  operator = .text "+" ∧ (left.kind = .text ∨ right.kind = .text)

/-- The value of an operator between two values. -/
def applyBinary (operator : Scalar) (left right : Value) : Run Value :=
  if joinsTexts operator left right then do
    let front ← display left
    let back ← display right
    return .text (front ++ back)
  else lift (applyArithmetic operator left right)

/-- The value of a comparison by order. -/
def applyOrder (operator : Scalar) (left right : Value) : Except Fault Value :=
  match Order.ofScalar? operator with
  | none => .error (.unknownOperator .comparison operator)
  | some order =>
    match left, right with
    | .number x, .number y => .ok (.boolean (order.holdsOfNumbers x y))
    | .text a, .text b => .ok (.boolean (order.holdsOfTexts a b))
    | _, _ => .error (.comparisonOf operator left.kind right.kind)

/-- The value of a comparison. -/
def applyComparison (operator : Scalar) (left right : Value) : Except Fault Value :=
  if operator = .text "==" then .ok (.boolean (left.equals right))
  else if operator = .text "!=" then .ok (.boolean (!left.equals right))
  else applyOrder operator left right

end Sprig.Run
