import Sprig.Numeric.Layout
import Sprig.Value.Basic

/-!
# Faults of a run

A run can fail in the ways listed here. The faults of the language have a category, which stands at
the front of their message. The last three faults are outside of the language: a tree in a place
where no node of its kind belongs, a part that does not have the shape its node needs, and a depth
limit too large to be kept.
-/

namespace Sprig

/-- What an operator is used for. -/
inductive OperatorUse
  | unary
  | binary
  | comparison
deriving DecidableEq, Repr

/-- The word for a use of an operator. -/
def OperatorUse.word : OperatorUse → String
  | .unary => "unary"
  | .binary => "binary"
  | .comparison => "comparison"

/-- What a tree is used as. -/
inductive TreeUse
  | statement
  | expression
deriving DecidableEq, Repr

/-- The word for what is done to a tree. -/
def TreeUse.word : TreeUse → String
  | .statement => "execute"
  | .expression => "evaluate"

/-- Why a run fails. -/
inductive Fault
  | undefinedVariable (name : Scalar)
  | undefinedFunction (name : Scalar)
  | notAnArray (name : Scalar)
  | negationOf (kind : Value.Kind)
  | operandsOf (operator : Scalar) (left right : Value.Kind)
  | comparisonOf (operator : Scalar) (left right : Value.Kind)
  | indexOf (kind : Value.Kind)
  | indexOutOfBounds (index : Float)
  | divisionByZero
  | unknownOperator (use : OperatorUse) (operator : Scalar)
  | unknownMethod (method : Scalar)
  | unknownProperty (property : Scalar)
  | depthExceeded (limit : Int) (kind : NodeKind)
  | textTooDeep
  | unexpectedTree (use : TreeUse) (label : String)
  | misshapen
  | limitTooLarge
deriving DecidableEq, Repr

namespace Fault

/-- The categories of the faults of the language. -/
inductive Category
  | undefinedVariable
  | undefinedFunction
  | typeMismatch
  | indexOutOfBounds
  | divisionByZero
  | unknownOperator
  | unknownMethod
  | unknownProperty
  | recursionLimit
deriving DecidableEq, Repr

/-- The word for a category in messages. -/
def Category.word : Category → String
  | .undefinedVariable => "UndefinedVariable"
  | .undefinedFunction => "UndefinedFunction"
  | .typeMismatch => "TypeError"
  | .indexOutOfBounds => "IndexOutOfBounds"
  | .divisionByZero => "DivisionByZero"
  | .unknownOperator => "UnknownOperator"
  | .unknownMethod => "UnknownMethod"
  | .unknownProperty => "UnknownProperty"
  | .recursionLimit => "RecursionLimitExceeded"

/-- The category of a fault; a fault outside of the language has none. -/
def category? : Fault → Option Category
  | undefinedVariable _ => some .undefinedVariable
  | undefinedFunction _ => some .undefinedFunction
  | notAnArray _ => some .typeMismatch
  | negationOf _ => some .typeMismatch
  | operandsOf _ _ _ => some .typeMismatch
  | comparisonOf _ _ _ => some .typeMismatch
  | indexOf _ => some .typeMismatch
  | indexOutOfBounds _ => some .indexOutOfBounds
  | divisionByZero => some .divisionByZero
  | unknownOperator _ _ => some .unknownOperator
  | unknownMethod _ => some .unknownMethod
  | unknownProperty _ => some .unknownProperty
  | depthExceeded _ _ => some .recursionLimit
  | textTooDeep => some .recursionLimit
  | unexpectedTree _ _ => none
  | misshapen => none
  | limitTooLarge => none

/-- What went wrong, in words. -/
def description : Fault → String
  | undefinedVariable name => "undefined variable " ++ name.shown
  | undefinedFunction name => "undefined function " ++ name.shown
  | notAnArray name => name.shown ++ " is not an array"
  | negationOf kind => "unary - expects a Number, got " ++ kind.name
  | operandsOf operator left right =>
    "unsupported " ++ operator.shown ++ " for " ++ left.name ++ " and " ++ right.name
  | comparisonOf operator left right =>
    "comparison " ++ operator.shown ++ " not supported for " ++ left.name ++ " and " ++ right.name
  | indexOf kind => "array index must be a Number, got " ++ kind.name
  | indexOutOfBounds index => "array index out of bounds: " ++ Numeric.displayText index
  | divisionByZero => "division by zero"
  | unknownOperator use operator => "unknown " ++ use.word ++ " operator " ++ operator.shown
  | unknownMethod method => "unknown array method: " ++ method.shown
  | unknownProperty property => "unknown array property: " ++ property.shown
  | depthExceeded limit kind =>
    "maximum evaluation depth " ++ Numeric.integerText limit ++ " exceeded at " ++ kind.label
  | textTooDeep => "maximum recursion depth exceeded"
  | unexpectedTree use label => use.word ++ ": unexpected node type " ++ label
  | misshapen => "a part of a node does not have the shape that the node needs"
  | limitTooLarge => "the depth limit is too large"

/-- What went wrong, in words, behind the category. -/
def message (fault : Fault) : String :=
  match fault.category? with
  | some category => category.word ++ ": " ++ fault.description
  | none => fault.description

end Fault

end Sprig
