import Sprig.Parse.Sequence

/-!
# The grammar

A parser for each form of expression and statement. Expressions bind from weakest to tightest:
comparison, addition, multiplication, negation, power. Power groups to the right and takes a
negation as its exponent. A statement that starts with a name is first tried as an assignment, a
method call or a declaration; when the tokens are none of these, the cursor goes back to the name
and the statement is an expression.

## Implementation notes

The first argument of each parser is the number of parsers that may still be nested in one another.
At zero a parser refuses, so the argument is both the nesting limit of the language and the measure
of the recursion.
-/

namespace Sprig.Parse

/-- Whether the statement goes on after a method call, so that the call is part of an expression. -/
def continuesExpression (kind : Token.Kind) : Bool :=
  kind = .operator ∨ kind = .comparison ∨ kind = .power

/-- A literal inside a phrase. -/
def literalWords : Token.Literal → String
  | .text s => s
  | literal => literal.shown

mutual

/-- An expression. -/
def expression : (frames : Nat) → Parse Tree
  | 0 => tooDeep
  | frames + 1 => comparison frames

/-- Sums compared with one another. -/
def comparison : (frames : Nat) → Parse Tree
  | 0 => tooDeep
  | frames + 1 => leftGrouped (additive frames) comparesValues .comparison

/-- Products added and subtracted. -/
def additive : (frames : Nat) → Parse Tree
  | 0 => tooDeep
  | frames + 1 => leftGrouped (multiplicative frames) addsValues .binary

/-- Negations multiplied and divided. -/
def multiplicative : (frames : Nat) → Parse Tree
  | 0 => tooDeep
  | frames + 1 => leftGrouped (unary frames) multipliesValues .binary

/-- A power behind any number of minus signs. -/
def unary : (frames : Nat) → Parse Tree
  | 0 => tooDeep
  | frames + 1 => do
    if ← isAtWord .operator "-" then
      let _ ← advance
      let operand ← unary frames
      return .unary (.text "-") operand
    else
      exponent frames

/-- A primary expression, and its exponent if it has one. -/
def exponent : (frames : Nat) → Parse Tree
  | 0 => tooDeep
  | frames + 1 => do
    let base ← primary frames
    if ← isAt .power then
      let _ ← advance
      let right ← unary frames
      return .binary (.text "^") base right
    else
      return base

/-- A literal, an array, an expression in parentheses, or one that starts with a name. -/
def primary : (frames : Nat) → Parse Tree
  | 0 => tooDeep
  | frames + 1 => do
    let token ← current
    match token.kind with
    | .leftParen =>
      let _ ← advance
      let inner ← expression frames
      let _ ← expectAs .rightParen "')'"
      return inner
    | .number =>
      let _ ← advance
      return .number token.literal.tree
    | .string =>
      let _ ← advance
      return .string token.literal.tree
    | .keyword =>
      if token.literal = .text "true" then
        let _ ← advance
        return .boolean (.scalar (.boolean true))
      else if token.literal = .text "false" then
        let _ ← advance
        return .boolean (.scalar (.boolean false))
      else
        refuse (.phrase "an expression")
    | .leftBracket => arrayLiteral frames
    | .identifier => identifierExpression frames
    | _ => refuse (.phrase "an expression")

/-- The items of an array in brackets. -/
def arrayLiteral : (frames : Nat) → Parse Tree
  | 0 => tooDeep
  | frames + 1 => do
    let _ ← expectKind .leftBracket
    let items ← itemsUntil .rightBracket (expression frames)
    let _ ← expectAs .rightBracket "']' to close array"
    return .arrayLiteral (.list items)

/-- A variable, an element or member of one, or a call. -/
def identifierExpression : (frames : Nat) → Parse Tree
  | 0 => tooDeep
  | frames + 1 => do
    let name ← expectKind .identifier
    let token ← current
    match token.kind with
    | .leftBracket =>
      let _ ← advance
      let index ← expression frames
      let _ ← expectAs .rightBracket "']'"
      return .elementAccess name.literal.tree index
    | .dot =>
      let _ ← advance
      let member ← current
      if member.kind = .identifier ∨ member.kind = .keyword then
        let _ ← advance
        let called ← isAt .leftParen
        if member.literal = .text "length" ∧ called = false then
          return .arrayProperty name.literal.tree member.literal.tree
        else
          let args ← arguments frames ("'(' after '." ++ literalWords member.literal ++ "'")
          return .methodExpression name.literal.tree member.literal.tree (.list args)
      else
        refuse (.phrase "method or property name after '.'")
    | .leftParen =>
      let args ← arguments frames "'('"
      return .call name.literal.tree (.list args)
    | _ => return .variable name.literal.tree

/-- The arguments of a call in parentheses; the words tell how the first one is expected. -/
def arguments : (frames : Nat) → (words : String) → Parse (List Tree)
  | 0, _ => tooDeep
  | frames + 1, words => do
    let _ ← expectAs .leftParen words
    let args ← itemsUntil .rightParen (expression frames)
    let _ ← expectAs .rightParen "')' after arguments"
    return args

end

mutual

/-- A statement. -/
def statement : (frames : Nat) → Parse Tree
  | 0 => tooDeep
  | frames + 1 => do
    let token ← current
    match token.kind with
    | .giveBack => returnStatement frames
    | .keyword =>
      if token.literal = .text "function" then functionDeclaration frames
      else if token.literal = .text "print" then printStatement frames
      else if token.literal = .text "if" then ifStatement frames
      else if token.literal = .text "while" then whileStatement frames
      else
        let value ← expression frames
        return .expressionStatement value
    | .identifier =>
      match ← identifierStatement frames with
      | some tree => return tree
      | none =>
        let value ← expression frames
        return .expressionStatement value
    | _ =>
      let value ← expression frames
      return .expressionStatement value

/-- A statement that starts with a name and is no expression, unless the tokens are an expression;
then the cursor is back on the name. -/
def identifierStatement : (frames : Nat) → Parse (Option Tree)
  | 0 => tooDeep
  | frames + 1 => do
    let start ← cursor
    let name ← expectKind .identifier
    let token ← current
    match token.kind with
    | .assign =>
      let _ ← advance
      let value ← expression frames
      return some (.assignment name.literal.tree value)
    | .leftBracket =>
      let _ ← advance
      let index ← expression frames
      let _ ← expectAs .rightBracket "']'"
      if ← isAt .assign then
        let _ ← advance
        let value ← expression frames
        return some (.elementAssignment name.literal.tree index value)
      else
        moveTo start
        return none
    | .dot =>
      let _ ← advance
      let c ← cursor
      if (c.current.kind = .identifier ∨ c.current.kind = .keyword) ∧
          (c.peek 1).kind = .leftParen then
        let method ← advance
        let args ← arguments frames "'('"
        let after ← current
        if continuesExpression after.kind then
          moveTo start
          return none
        else
          return some (.methodCall name.literal.tree method.literal.tree (.list args))
      else
        moveTo start
        return none
    | .leftParen =>
      let params ← parametersIfPresent
      let opens ← isAt .leftBrace
      match params, opens with
      | some params, true =>
        let body ← block frames
        return some (.functionDeclaration name.literal.tree (.list params) (.list body))
      | _, _ =>
        moveTo start
        return none
    | _ =>
      moveTo start
      return none

/-- A declaration behind the keyword `function`. -/
def functionDeclaration : (frames : Nat) → Parse Tree
  | 0 => tooDeep
  | frames + 1 => do
    let _ ← expectKeyword "function"
    let name ← expectAs .identifier "function name"
    let params ← parameterList
    let body ← block frames
    return .functionDeclaration name.literal.tree (.list params) (.list body)

/-- The end of a function, with a value unless the statement ends there. -/
def returnStatement : (frames : Nat) → Parse Tree
  | 0 => tooDeep
  | frames + 1 => do
    let _ ← expectKind .giveBack
    let token ← current
    if token.kind = .rightBrace ∨ token.kind = .semicolon ∨ token.kind = .finish then
      return .returnStatement .none
    else
      let value ← expression frames
      return .returnStatement value

/-- A value to print, in parentheses. -/
def printStatement : (frames : Nat) → Parse Tree
  | 0 => tooDeep
  | frames + 1 => do
    let _ ← expectKeyword "print"
    let _ ← expectAs .leftParen "'(' after 'print'"
    let value ← expression frames
    let _ ← expectAs .rightParen "')' after printed value"
    return .print value

/-- A condition and a block, and another block or condition behind `else`. -/
def ifStatement : (frames : Nat) → Parse Tree
  | 0 => tooDeep
  | frames + 1 => do
    let _ ← expectKeyword "if"
    let _ ← expectAs .leftParen "'(' after 'if'"
    let condition ← expression frames
    let _ ← expectAs .rightParen "')' after condition"
    let body ← block frames
    if ← isAtWord .keyword "else" then
      let _ ← advance
      if ← isAtWord .keyword "if" then
        let inner ← ifStatement frames
        return .ifStatement condition (.list body) (.list [inner])
      else
        let rest ← block frames
        return .ifStatement condition (.list body) (.list rest)
    else
      return .ifStatement condition (.list body) .none

/-- A condition and the block that is repeated while it holds. -/
def whileStatement : (frames : Nat) → Parse Tree
  | 0 => tooDeep
  | frames + 1 => do
    let _ ← expectKeyword "while"
    let _ ← expectAs .leftParen "'(' after 'while'"
    let condition ← expression frames
    let _ ← expectAs .rightParen "')' after condition"
    let body ← block frames
    return .whileStatement condition (.list body)

/-- Statements in braces. -/
def block : (frames : Nat) → Parse (List Tree)
  | 0 => tooDeep
  | frames + 1 => do
    let _ ← expectAs .leftBrace "'\x7b' to start a block"
    let c ← cursor
    let statements ← blockStatements (statement frames) c.tokens
    let _ ← expectKind .rightBrace
    return statements

end

/-- A whole program. -/
def program (frames : Nat) : Parse (List Tree) := fun c =>
  programStatements (statement frames) c.tokens c

end Sprig.Parse
