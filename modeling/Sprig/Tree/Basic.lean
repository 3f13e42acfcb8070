import Sprig.Numeric.Layout
import Sprig.Text.Quoted

/-!
# Program trees

A program is a list of statements, and each statement is a tree of nodes. The nodes of a program
that was parsed have the parts that their names promise; a tree that was read from a document may
hold any tree at all in any part, down to a bare scalar or list in the place of a node.

## Implementation notes

For that reason every part of a node is a tree. Which trees a program text can have is a predicate
on trees, not a second type.
-/

namespace Sprig

/-- A leaf of a tree. -/
inductive Scalar
  | none
  | boolean (b : Bool)
  | integer (k : Int)
  | number (x : Float)
  | text (s : String)
deriving DecidableEq, Repr, Inhabited

/-- The word for a truth value. -/
def boolWord (b : Bool) : String := if b then "True" else "False"

/-- A scalar as it appears inside a message. -/
def Scalar.shown : Scalar → String
  | .none => "None"
  | .boolean b => boolWord b
  | .integer k => Numeric.integerText k
  | .number x => Numeric.exactText x
  | .text s => s

/-- A scalar as it appears inside a message that quotes text. -/
def Scalar.quoted : Scalar → String
  | .text s => Text.quoted s
  | scalar => scalar.shown

/-- The kind of a node. -/
inductive NodeKind
  | assignment
  | print
  | expressionStatement
  | ifStatement
  | whileStatement
  | elementAssignment
  | methodCall
  | functionDeclaration
  | returnStatement
  | number
  | string
  | boolean
  | variable
  | unary
  | binary
  | comparison
  | arrayLiteral
  | elementAccess
  | methodExpression
  | arrayProperty
  | call
deriving DecidableEq, Repr

namespace NodeKind

/-- All kinds, statements before expressions. -/
def all : List NodeKind := [
  .assignment, .print, .expressionStatement, .ifStatement, .whileStatement, .elementAssignment,
  .methodCall, .functionDeclaration, .returnStatement, .number, .string, .boolean, .variable,
  .unary, .binary, .comparison, .arrayLiteral, .elementAccess, .methodExpression, .arrayProperty,
  .call]

/-- The name of a kind in documents and messages. -/
def label : NodeKind → String
  | .assignment => "Assignment"
  | .print => "Print"
  | .expressionStatement => "ExpressionStatement"
  | .ifStatement => "IfStatement"
  | .whileStatement => "WhileStatement"
  | .elementAssignment => "ArrayElementAssignment"
  | .methodCall => "ArrayMethodCall"
  | .functionDeclaration => "FunctionDeclaration"
  | .returnStatement => "ReturnStatement"
  | .number => "Number"
  | .string => "String"
  | .boolean => "Boolean"
  | .variable => "Variable"
  | .unary => "UnaryExpression"
  | .binary => "BinaryExpression"
  | .comparison => "ComparisonExpression"
  | .arrayLiteral => "ArrayLiteral"
  | .elementAccess => "ArrayElementAccess"
  | .methodExpression => "ArrayMethodExpression"
  | .arrayProperty => "ArrayProperty"
  | .call => "FunctionCall"

/-- The names of the parts of a node, in order. -/
def fields : NodeKind → List String
  | .assignment => ["name", "value"]
  | .print => ["value"]
  | .expressionStatement => ["expression"]
  | .ifStatement => ["condition", "if_block", "else_block"]
  | .whileStatement => ["condition", "body"]
  | .elementAssignment => ["array", "index", "value"]
  | .methodCall => ["array", "method", "args"]
  | .functionDeclaration => ["name", "params", "body"]
  | .returnStatement => ["value"]
  | .number => ["value"]
  | .string => ["value"]
  | .boolean => ["value"]
  | .variable => ["name"]
  | .unary => ["operator", "operand"]
  | .binary => ["operator", "left", "right"]
  | .comparison => ["operator", "left", "right"]
  | .arrayLiteral => ["elements"]
  | .elementAccess => ["array", "index"]
  | .methodExpression => ["array", "method", "args"]
  | .arrayProperty => ["array", "property"]
  | .call => ["name", "args"]

/-- The kind with a label. -/
def ofLabel? (label : String) : Option NodeKind := all.find? fun kind => kind.label = label

/-- Every kind is listed. -/
theorem mem_all (kind : NodeKind) : kind ∈ all := by cases kind <;> decide

/-- Every kind is found by its label. -/
theorem ofLabel?_label (kind : NodeKind) : ofLabel? kind.label = some kind := by
  cases kind <;> decide

end NodeKind

/-- A tree: a scalar, a list of trees, or a node of one of the kinds. -/
inductive Tree
  | scalar (value : Scalar)
  | list (items : List Tree)
  | assignment (name value : Tree)
  | print (value : Tree)
  | expressionStatement (expression : Tree)
  | ifStatement (condition ifBlock elseBlock : Tree)
  | whileStatement (condition body : Tree)
  | elementAssignment (array index value : Tree)
  | methodCall (array method args : Tree)
  | functionDeclaration (name params body : Tree)
  | returnStatement (value : Tree)
  | number (value : Tree)
  | string (value : Tree)
  | boolean (value : Tree)
  | variable (name : Tree)
  | unary (operator operand : Tree)
  | binary (operator left right : Tree)
  | comparison (operator left right : Tree)
  | arrayLiteral (elements : Tree)
  | elementAccess (array index : Tree)
  | methodExpression (array method args : Tree)
  | arrayProperty (array property : Tree)
  | call (name args : Tree)
deriving Inhabited

namespace Tree

/-- The empty place of a node. -/
def none : Tree := .scalar .none

/-- A text as a tree. -/
def text (s : String) : Tree := .scalar (.text s)

/-- The kind and the parts of a node. -/
def node? : Tree → Option (NodeKind × List Tree)
  | .scalar _ => Option.none
  | .list _ => Option.none
  | .assignment name value => some (.assignment, [name, value])
  | .print value => some (.print, [value])
  | .expressionStatement expression => some (.expressionStatement, [expression])
  | .ifStatement condition ifBlock elseBlock => some (.ifStatement, [condition, ifBlock, elseBlock])
  | .whileStatement condition body => some (.whileStatement, [condition, body])
  | .elementAssignment array index value => some (.elementAssignment, [array, index, value])
  | .methodCall array method args => some (.methodCall, [array, method, args])
  | .functionDeclaration name params body => some (.functionDeclaration, [name, params, body])
  | .returnStatement value => some (.returnStatement, [value])
  | .number value => some (.number, [value])
  | .string value => some (.string, [value])
  | .boolean value => some (.boolean, [value])
  | .variable name => some (.variable, [name])
  | .unary operator operand => some (.unary, [operator, operand])
  | .binary operator left right => some (.binary, [operator, left, right])
  | .comparison operator left right => some (.comparison, [operator, left, right])
  | .arrayLiteral elements => some (.arrayLiteral, [elements])
  | .elementAccess array index => some (.elementAccess, [array, index])
  | .methodExpression array method args => some (.methodExpression, [array, method, args])
  | .arrayProperty array property => some (.arrayProperty, [array, property])
  | .call name args => some (.call, [name, args])

/-- The node of a kind with given parts; a part that is not given is empty. -/
def ofParts (kind : NodeKind) (parts : List Tree) : Tree :=
  let part (i : Nat) := parts.getD i none
  match kind with
  | .assignment => .assignment (part 0) (part 1)
  | .print => .print (part 0)
  | .expressionStatement => .expressionStatement (part 0)
  | .ifStatement => .ifStatement (part 0) (part 1) (part 2)
  | .whileStatement => .whileStatement (part 0) (part 1)
  | .elementAssignment => .elementAssignment (part 0) (part 1) (part 2)
  | .methodCall => .methodCall (part 0) (part 1) (part 2)
  | .functionDeclaration => .functionDeclaration (part 0) (part 1) (part 2)
  | .returnStatement => .returnStatement (part 0)
  | .number => .number (part 0)
  | .string => .string (part 0)
  | .boolean => .boolean (part 0)
  | .variable => .variable (part 0)
  | .unary => .unary (part 0) (part 1)
  | .binary => .binary (part 0) (part 1) (part 2)
  | .comparison => .comparison (part 0) (part 1) (part 2)
  | .arrayLiteral => .arrayLiteral (part 0)
  | .elementAccess => .elementAccess (part 0) (part 1)
  | .methodExpression => .methodExpression (part 0) (part 1) (part 2)
  | .arrayProperty => .arrayProperty (part 0) (part 1)
  | .call => .call (part 0) (part 1)

/-- The name of what a tree is, in messages. -/
def label (tree : Tree) : String :=
  match tree with
  | .scalar .none => "NoneType"
  | .scalar (.boolean _) => "bool"
  | .scalar (.integer _) => "int"
  | .scalar (.number _) => "float"
  | .scalar (.text _) => "str"
  | .list _ => "tuple"
  | _ => (tree.node?.map (·.1.label)).getD ""

/-- The trees that a tree offers one after the other: the items of a list, the characters of a
text. -/
def items? : Tree → Option (List Tree)
  | .list items => some items
  | .scalar (.text s) => some (s.toList.map fun c => text (String.ofList [c]))
  | _ => Option.none

/-- A node is put together from its own parts. -/
theorem ofParts_of_node? {tree : Tree} {kind : NodeKind} {parts : List Tree}
    (h : tree.node? = some (kind, parts)) : ofParts kind parts = tree := by
  cases tree <;> simp_all [node?] <;> (obtain ⟨rfl, rfl⟩ := h; rfl)

mutual

/-- Whether two trees are equal. -/
def same : Tree → Tree → Bool
  | .scalar a, .scalar b => a = b
  | .list as, .list bs => sameAll as bs
  | .assignment a b, .assignment x y => same a x && same b y
  | .print a, .print x => same a x
  | .expressionStatement a, .expressionStatement x => same a x
  | .ifStatement a b c, .ifStatement x y z => same a x && same b y && same c z
  | .whileStatement a b, .whileStatement x y => same a x && same b y
  | .elementAssignment a b c, .elementAssignment x y z => same a x && same b y && same c z
  | .methodCall a b c, .methodCall x y z => same a x && same b y && same c z
  | .functionDeclaration a b c, .functionDeclaration x y z => same a x && same b y && same c z
  | .returnStatement a, .returnStatement x => same a x
  | .number a, .number x => same a x
  | .string a, .string x => same a x
  | .boolean a, .boolean x => same a x
  | .variable a, .variable x => same a x
  | .unary a b, .unary x y => same a x && same b y
  | .binary a b c, .binary x y z => same a x && same b y && same c z
  | .comparison a b c, .comparison x y z => same a x && same b y && same c z
  | .arrayLiteral a, .arrayLiteral x => same a x
  | .elementAccess a b, .elementAccess x y => same a x && same b y
  | .methodExpression a b c, .methodExpression x y z => same a x && same b y && same c z
  | .arrayProperty a b, .arrayProperty x y => same a x && same b y
  | .call a b, .call x y => same a x && same b y
  | _, _ => false

/-- Whether two lists of trees are equal item by item. -/
def sameAll : List Tree → List Tree → Bool
  | [], [] => true
  | a :: as, b :: bs => same a b && sameAll as bs
  | _, _ => false

end

end Tree

end Sprig
