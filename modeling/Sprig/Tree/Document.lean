import Sprig.Json.Basic
import Sprig.Numeric.Reading
import Sprig.Tree.Basic

/-!
# Trees as documents

A tree is stored as JSON: a scalar as itself, a list as a list, and a node as an object with an
entry `type` for its kind and one entry for each part. Reading takes the parts that the kind has
and looks at nothing else: a part without entry is empty, and an entry that is no part is passed
over, whatever it holds. The value of a Number node is made a Number.

## Implementation notes

Reading first reads the content of every entry to a tree or a fault, and then picks the parts in
the order of the kind. So which of several faults is reported does not depend on the order of the
entries.
-/

namespace Sprig.Tree

/-- What is wrong with a document. -/
inductive DocumentFault
  | notAList
  | unknownKind (label : Scalar)
  | compoundKind (label : String)
  | notNumeral (s : String)
  | notScalar (label : String)
  | integerTooLarge
deriving DecidableEq, Repr

/-- What is wrong with a document, in words. -/
def DocumentFault.message : DocumentFault → String
  | .notAList => "AST JSON must be a list of statements"
  | .unknownKind label => "unknown AST node type " ++ label.quoted
  | .compoundKind label => "unhashable type: '" ++ label ++ "'"
  | .notNumeral s => "could not convert string to float: " ++ Text.quoted s
  | .notScalar label =>
    "float() argument must be a string or a real number, not '" ++ label ++ "'"
  | .integerTooLarge => "int too large to convert to float"

/-- The entry that holds the kind of a node. -/
def kindField : String := "type"

/-- A node as an object. -/
def nodeObject (kind : NodeKind) (parts : List Json) : Json :=
  .object ((kindField, .text kind.label) :: kind.fields.zip parts)

/-- A scalar in a document. -/
def encodeScalar : Scalar → Json
  | .none => .null
  | .boolean b => .boolean b
  | .integer k => .integer k
  | .number x => .number x
  | .text s => .text s

mutual

/-- A tree as a document. -/
def encode : Tree → Json
  | .scalar value => encodeScalar value
  | .list items => .list (encodeAll items)
  | .assignment name value => nodeObject .assignment [encode name, encode value]
  | .print value => nodeObject .print [encode value]
  | .expressionStatement expression => nodeObject .expressionStatement [encode expression]
  | .ifStatement condition ifBlock elseBlock =>
    nodeObject .ifStatement [encode condition, encode ifBlock, encode elseBlock]
  | .whileStatement condition body => nodeObject .whileStatement [encode condition, encode body]
  | .elementAssignment array index value =>
    nodeObject .elementAssignment [encode array, encode index, encode value]
  | .methodCall array method args =>
    nodeObject .methodCall [encode array, encode method, encode args]
  | .functionDeclaration name params body =>
    nodeObject .functionDeclaration [encode name, encode params, encode body]
  | .returnStatement value => nodeObject .returnStatement [encode value]
  | .number value => nodeObject .number [encode value]
  | .string value => nodeObject .string [encode value]
  | .boolean value => nodeObject .boolean [encode value]
  | .variable name => nodeObject .variable [encode name]
  | .unary operator operand => nodeObject .unary [encode operator, encode operand]
  | .binary operator left right => nodeObject .binary [encode operator, encode left, encode right]
  | .comparison operator left right =>
    nodeObject .comparison [encode operator, encode left, encode right]
  | .arrayLiteral elements => nodeObject .arrayLiteral [encode elements]
  | .elementAccess array index => nodeObject .elementAccess [encode array, encode index]
  | .methodExpression array method args =>
    nodeObject .methodExpression [encode array, encode method, encode args]
  | .arrayProperty array property => nodeObject .arrayProperty [encode array, encode property]
  | .call name args => nodeObject .call [encode name, encode args]

/-- The trees of a list as documents. -/
def encodeAll : List Tree → List Json
  | [] => []
  | tree :: trees => encode tree :: encodeAll trees

end

/-- The kind that an entry names; an object without the entry names none. -/
def kindOf : Option Json → Except DocumentFault NodeKind
  | some (.text s) =>
    match NodeKind.ofLabel? s with
    | some kind => .ok kind
    | Option.none => .error (.unknownKind (.text s))
  | some (.boolean b) => .error (.unknownKind (.boolean b))
  | some (.integer k) => .error (.unknownKind (.integer k))
  | some (.number x) => .error (.unknownKind (.number x))
  | some (.list _) => .error (.compoundKind "list")
  | some (.object _) => .error (.compoundKind "dict")
  | some .null | Option.none => .error (.unknownKind .none)

/-- The Number that the value of a Number node stands for: a number or truth value itself, a text by
what it says. -/
def numberOf : Tree → Except DocumentFault Float
  | .scalar (.number x) => .ok x
  | .scalar (.boolean b) => .ok (Numeric.ofCount (if b then 1 else 0))
  | .scalar (.integer k) =>
    match Numeric.ofInteger? k with
    | some x => .ok x
    | Option.none => .error .integerTooLarge
  | .scalar (.text s) =>
    match Numeric.readReal? s with
    | some x => .ok x
    | Option.none => .error (.notNumeral s)
  | tree => .error (.notScalar tree.label)

/-- The part of a node that its entries give. -/
def partOf (entries : List (String × Except DocumentFault Tree)) (field : String) :
    Except DocumentFault Tree :=
  (Json.lastWith? entries field).getD (.ok none)

/-- The node that an object stands for, given its kind and the trees of its entries. -/
def assemble (kind : Except DocumentFault NodeKind)
    (entries : List (String × Except DocumentFault Tree)) : Except DocumentFault Tree := do
  let kind ← kind
  let parts ← kind.fields.mapM (partOf entries)
  match ofParts kind parts with
  | .number value => return .number (.scalar (.number (← numberOf value)))
  | tree => return tree

mutual

/-- The tree that a document stands for. -/
def decode : Json → Except DocumentFault Tree
  | .null => .ok none
  | .boolean b => .ok (.scalar (.boolean b))
  | .integer k => .ok (.scalar (.integer k))
  | .number x => .ok (.scalar (.number x))
  | .text s => .ok (text s)
  | .list items => do return .list (← decodeAll items)
  | .object entries => assemble (kindOf (Json.lastWith? entries kindField)) (decodeEntries entries)

/-- The trees of a list of documents, up to the first fault. -/
def decodeAll : List Json → Except DocumentFault (List Tree)
  | [] => .ok []
  | value :: values => do return (← decode value) :: (← decodeAll values)

/-- The tree or fault of every entry. -/
def decodeEntries : List (String × Json) → List (String × Except DocumentFault Tree)
  | [] => []
  | (name, value) :: entries => (name, decode value) :: decodeEntries entries

end

/-- A program as a document. -/
def encodeProgram (statements : List Tree) : Json := .list (encodeAll statements)

/-- The program that a document stands for. -/
def decodeProgram : Json → Except DocumentFault (List Tree)
  | .list values => decodeAll values
  | _ => .error .notAList

/-- Documents of a list are made item by item. -/
theorem encodeAll_eq_map (trees : List Tree) : encodeAll trees = trees.map encode := by
  induction trees with
  | nil => simp [encodeAll]
  | cons tree trees ih => simp [encodeAll, ih]

end Sprig.Tree
