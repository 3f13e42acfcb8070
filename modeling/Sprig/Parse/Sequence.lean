import Sprig.Parse.Basic

/-!
# Sequences of parts

The parts of a program that may be repeated: operands between operators, items between commas,
names between commas, and statements up to the end of a block or program.

## Implementation notes

Every round of a repetition takes a token. So each repetition is a recursion on the tokens that were
there at its start, which it does not look at otherwise.
-/

namespace Sprig

/-- A literal as a tree. -/
def Token.Literal.tree : Token.Literal → Tree
  | .absent => .none
  | .number x => .scalar (.number x)
  | .text s => .text s

namespace Parse

/-- Whether a token compares two values. -/
def comparesValues (token : Token) : Bool :=
  token.kind = .comparison ∨
    token.kind = .operator ∧ (token.literal = .text "<" ∨ token.literal = .text ">")

/-- Whether a token adds or subtracts. -/
def addsValues (token : Token) : Bool :=
  token.kind = .operator ∧ (token.literal = .text "+" ∨ token.literal = .text "-")

/-- Whether a token multiplies or divides. -/
def multipliesValues (token : Token) : Bool :=
  token.kind = .operator ∧ (token.literal = .text "*" ∨ token.literal = .text "/")

/-- Joins a tree with the operands that follow it, from left to right. -/
def joinFrom (operand : Parse Tree) (joins : Token → Bool) (join : Tree → Tree → Tree → Tree) :
    List Token → Tree → Parse Tree
  | [], left => pure left
  | _ :: budget, left => do
    let token ← current
    if joins token then
      let operator ← advance
      let right ← operand
      joinFrom operand joins join budget (join operator.literal.tree left right)
    else
      return left

/-- Operands between operators of one precedence; the operators group to the left. -/
def leftGrouped (operand : Parse Tree) (joins : Token → Bool) (join : Tree → Tree → Tree → Tree) :
    Parse Tree := do
  let first ← operand
  let c ← cursor
  joinFrom operand joins join c.tokens first

/-- The further items of a list, each behind a comma. -/
def moreItems (item : Parse Tree) : List Token → Parse (List Tree)
  | [] => pure []
  | _ :: budget => do
    if ← isAt .comma then
      let _ ← advance
      let first ← item
      let rest ← moreItems item budget
      return first :: rest
    else
      return []

/-- Items between commas up to a closing token, which is not taken; a list may be empty. -/
def itemsUntil (close : Token.Kind) (item : Parse Tree) : Parse (List Tree) := do
  if ← isAt close then
    return []
  else
    let first ← item
    let c ← cursor
    let rest ← moreItems item c.tokens
    return first :: rest

/-- Names between commas, at least one. -/
def names : List Token → Parse (List Tree)
  | [] => pure []
  | _ :: budget => do
    let name ← expectAs .identifier "parameter name"
    if ← isAt .comma then
      let _ ← advance
      let rest ← names budget
      return name.literal.tree :: rest
    else
      return [name.literal.tree]

/-- The parameters of a function, in parentheses. -/
def parameterList : Parse (List Tree) := do
  let _ ← expectAs .leftParen "'(' after function name"
  if ← isAt .rightParen then
    let _ ← advance
    return []
  else
    let c ← cursor
    let params ← names c.tokens
    let _ ← expectAs .rightParen "')' after parameters"
    return params

/-- Names between commas, at least one, unless something else shows up; then the cursor stays on
it. -/
def namesIfPresent : List Token → Parse (Option (List Tree))
  | [] => pure none
  | _ :: budget => do
    if ← isAt .identifier then
      let name ← advance
      if ← isAt .comma then
        let _ ← advance
        let rest ← namesIfPresent budget
        return rest.map (name.literal.tree :: ·)
      else
        return some [name.literal.tree]
    else
      return none

/-- The parameters of a function, in parentheses, unless the parentheses hold anything but names;
then the cursor stays on the first token that does not belong to a parameter list. -/
def parametersIfPresent : Parse (Option (List Tree)) := do
  let _ ← expectKind .leftParen
  let c ← cursor
  let params ← if ← isAt .rightParen then pure (some []) else namesIfPresent c.tokens
  match params with
  | none => return none
  | some params =>
    if ← isAt .rightParen then
      let _ ← advance
      return some params
    else
      return none

/-- The statements of a block up to its closing brace, which is not taken. -/
def blockStatements (statement : Parse Tree) : List Token → Parse (List Tree)
  | [] => pure []
  | _ :: budget => do
    let token ← current
    if token.kind = .rightBrace then
      return []
    else if token.kind = .finish then
      refuse (.phrase "'\x7d' to close block")
    else if token.kind = .semicolon then
      let _ ← advance
      blockStatements statement budget
    else
      let first ← statement
      let rest ← blockStatements statement budget
      return first :: rest

/-- The statements of a program up to its closing token. -/
def programStatements (statement : Parse Tree) : List Token → Parse (List Tree)
  | [] => pure []
  | _ :: budget => do
    let token ← current
    if token.kind = .finish then
      return []
    else if token.kind = .semicolon then
      let _ ← advance
      programStatements statement budget
    else
      let first ← statement
      let rest ← programStatements statement budget
      return first :: rest

end Parse

end Sprig
