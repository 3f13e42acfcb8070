import Sprig.Tree.Basic

/-!
# The shape of parsed programs

A tree may have any tree in any part. The trees of expressions and statements that a text can spell
have in each part what the name of the part promises: operators are those of the language, names and
words are texts, literals are of their kind, and blocks and arguments are lists.
-/

namespace Sprig.Tree

/-- The operators of arithmetic between two operands. -/
def arithmeticWords : List String := ["+", "-", "*", "/", "^"]

/-- The operators that compare two operands. -/
def comparisonWords : List String := ["==", "!=", "<=", ">=", "<", ">"]

/-- The trees of expressions. -/
inductive IsExpression : Tree → Prop
  | number (x : Float) : IsExpression (.number (.scalar (.number x)))
  | string (s : String) : IsExpression (.string (.text s))
  | boolean (b : Bool) : IsExpression (.boolean (.scalar (.boolean b)))
  | name (x : String) : IsExpression (.variable (.text x))
  | unary {e} (operand : IsExpression e) : IsExpression (.unary (.text "-") e)
  | binary {op l r} (hop : op ∈ arithmeticWords) (left : IsExpression l) (right : IsExpression r) :
      IsExpression (.binary (.text op) l r)
  | comparison {op l r} (hop : op ∈ comparisonWords) (left : IsExpression l)
      (right : IsExpression r) : IsExpression (.comparison (.text op) l r)
  | arrayLiteral {es} (elements : ∀ e ∈ es, IsExpression e) :
      IsExpression (.arrayLiteral (.list es))
  | elementAccess {x i} (index : IsExpression i) : IsExpression (.elementAccess (.text x) i)
  | methodExpression {x m es} (args : ∀ e ∈ es, IsExpression e) :
      IsExpression (.methodExpression (.text x) (.text m) (.list es))
  | length (x : String) : IsExpression (.arrayProperty (.text x) (.text "length"))
  | call {f es} (args : ∀ e ∈ es, IsExpression e) : IsExpression (.call (.text f) (.list es))

/-- The trees of statements. -/
inductive IsStatement : Tree → Prop
  | assignment {x e} (value : IsExpression e) : IsStatement (.assignment (.text x) e)
  | print {e} (value : IsExpression e) : IsStatement (.print e)
  | expression {e} (inner : IsExpression e) : IsStatement (.expressionStatement e)
  | ifOnly {c body} (condition : IsExpression c) (block : ∀ t ∈ body, IsStatement t) :
      IsStatement (.ifStatement c (.list body) .none)
  | ifElse {c body rest} (condition : IsExpression c) (block : ∀ t ∈ body, IsStatement t)
      (otherwise : ∀ t ∈ rest, IsStatement t) :
      IsStatement (.ifStatement c (.list body) (.list rest))
  | while {c body} (condition : IsExpression c) (block : ∀ t ∈ body, IsStatement t) :
      IsStatement (.whileStatement c (.list body))
  | elementAssignment {x i e} (index : IsExpression i) (value : IsExpression e) :
      IsStatement (.elementAssignment (.text x) i e)
  | methodCall {x m es} (args : ∀ e ∈ es, IsExpression e) :
      IsStatement (.methodCall (.text x) (.text m) (.list es))
  | declaration {f body} (params : List String) (block : ∀ t ∈ body, IsStatement t) :
      IsStatement (.functionDeclaration (.text f) (.list (params.map .text)) (.list body))
  | emptyReturn : IsStatement (.returnStatement .none)
  | valueReturn {e} (value : IsExpression e) : IsStatement (.returnStatement e)

/-- A list of statements. -/
def IsProgram (trees : List Tree) : Prop := ∀ tree ∈ trees, tree.IsStatement

end Sprig.Tree
