import Sprig.Proofs.Grammar.Expression

/-!
# The grammar of statements

Which tokens spell which statement, and which spell a program. A declaration may do without its
keyword, an `else` that holds just a condition may do without braces, and any number of semicolons
may stand around statements. A method of an array that is called as a statement of its own has a
node of its own, so an expression statement calls one in parentheses only.

## Implementation notes

Whether two statements may stand side by side with no semicolon between them is a parameter: it is
given the first statement, its tokens and the token behind them. A program in which every two
statements are separated is spelled under the relation that never holds.
-/

namespace Sprig.Grammar

/-- Names between commas, at least one. -/
inductive Names : List Token → List Tree → Prop
  | last {t x} (ht : t.Is .identifier x) : Names [t] [.text x]
  | more {t x comma ts params} (ht : t.Is .identifier x) (hcomma : comma.kind = .comma)
      (rest : Names ts params) : Names (t :: comma :: ts) (.text x :: params)

/-- The parameters of a function, in parentheses. -/
inductive Parameters : List Token → List Tree → Prop
  | none {left right} (hleft : left.kind = .leftParen) (hright : right.kind = .rightParen) :
      Parameters [left, right] []
  | some {left ts right params} (hleft : left.kind = .leftParen) (names : Names ts params)
      (hright : right.kind = .rightParen) : Parameters (left :: ts ++ [right]) params

/-- An expression that calls a method of an array and is not in parentheses. -/
def BareMethod (ts : List Token) (e : Tree) : Prop :=
  (∃ array method args, e = .methodExpression array method args) ∧
    ∀ t ∈ ts.head?, t.kind ≠ .leftParen

/-- The forms of statements, and sequences of statements with and without braces. -/
inductive Part
  | statement
  | conditional
  | sequence
  | block
deriving DecidableEq

/-- The tokens spell the statement, or the list of statements, nested within a bound. -/
inductive States (adjoin : Tree → List Token → Token → Prop) :
    (bound : Nat) → Part → List Token → Tree → Prop
  | assignment {n t x sign ts e} (ht : t.Is .identifier x) (hsign : sign.kind = .assign)
      (value : Spells n .expression ts e) :
      States adjoin (n + 2) .statement (t :: sign :: ts) (.assignment (.text x) e)
  | elementAssignment {n t x left is right sign ts i e} (ht : t.Is .identifier x)
      (hleft : left.kind = .leftBracket) (index : Spells n .expression is i)
      (hright : right.kind = .rightBracket) (hsign : sign.kind = .assign)
      (value : Spells n .expression ts e) :
      States adjoin (n + 2) .statement (t :: left :: is ++ right :: sign :: ts)
        (.elementAssignment (.text x) i e)
  | methodCall {n t x dot member m left ts right es} (ht : t.Is .identifier x)
      (hdot : dot.kind = .dot) (hmember : Member member m) (hleft : left.kind = .leftParen)
      (args : Spells n .items ts (.list es)) (hright : right.kind = .rightParen) :
      States adjoin (n + 3) .statement (t :: dot :: member :: left :: ts ++ [right])
        (.methodCall (.text x) (.text m) (.list es))
  | declaration {n t f ps bs params body} (ht : t.Is .identifier f) (hparams : Parameters ps params)
      (block : States adjoin n .block bs (.list body)) :
      States adjoin (n + 2) .statement (t :: ps ++ bs)
        (.functionDeclaration (.text f) (.list params) (.list body))
  | keywordDeclaration {n word t f ps bs params body} (hword : word.Is .keyword "function")
      (ht : t.Is .identifier f) (hparams : Parameters ps params)
      (block : States adjoin n .block bs (.list body)) :
      States adjoin (n + 2) .statement (word :: t :: ps ++ bs)
        (.functionDeclaration (.text f) (.list params) (.list body))
  | emptyReturn {n word} (hword : word.kind = .giveBack) :
      States adjoin (n + 2) .statement [word] (.returnStatement .none)
  | valueReturn {n word ts e} (hword : word.kind = .giveBack) (value : Spells n .expression ts e) :
      States adjoin (n + 2) .statement (word :: ts) (.returnStatement e)
  | print {n word left ts right e} (hword : word.Is .keyword "print")
      (hleft : left.kind = .leftParen) (value : Spells n .expression ts e)
      (hright : right.kind = .rightParen) :
      States adjoin (n + 2) .statement (word :: left :: ts ++ [right]) (.print e)
  | while {n word left cs right bs c body} (hword : word.Is .keyword "while")
      (hleft : left.kind = .leftParen) (condition : Spells n .expression cs c)
      (hright : right.kind = .rightParen) (block : States adjoin n .block bs (.list body)) :
      States adjoin (n + 2) .statement (word :: left :: cs ++ right :: bs)
        (.whileStatement c (.list body))
  | conditional {n ts e} (inner : States adjoin n .conditional ts e) :
      States adjoin (n + 1) .statement ts e
  | expression {n ts e} (inner : Spells n .expression ts e) (hbare : ¬ BareMethod ts e) :
      States adjoin (n + 1) .statement ts (.expressionStatement e)
  | ifOnly {n word left cs right bs c body} (hword : word.Is .keyword "if")
      (hleft : left.kind = .leftParen) (condition : Spells n .expression cs c)
      (hright : right.kind = .rightParen) (block : States adjoin n .block bs (.list body)) :
      States adjoin (n + 1) .conditional (word :: left :: cs ++ right :: bs)
        (.ifStatement c (.list body) .none)
  | ifElse {n word left cs right bs other es c body rest} (hword : word.Is .keyword "if")
      (hleft : left.kind = .leftParen) (condition : Spells n .expression cs c)
      (hright : right.kind = .rightParen) (block : States adjoin n .block bs (.list body))
      (hother : other.Is .keyword "else") (otherwise : States adjoin n .block es (.list rest)) :
      States adjoin (n + 1) .conditional (word :: left :: cs ++ right :: bs ++ other :: es)
        (.ifStatement c (.list body) (.list rest))
  | elseIf {n word left cs right bs other es c body inner} (hword : word.Is .keyword "if")
      (hleft : left.kind = .leftParen) (condition : Spells n .expression cs c)
      (hright : right.kind = .rightParen) (block : States adjoin n .block bs (.list body))
      (hother : other.Is .keyword "else") (otherwise : States adjoin n .conditional es inner) :
      States adjoin (n + 1) .conditional (word :: left :: cs ++ right :: bs ++ other :: es)
        (.ifStatement c (.list body) (.list [inner]))
  | empty {n} : States adjoin n .sequence [] (.list [])
  | semicolon {n t ts trees} (ht : t.kind = .semicolon)
      (rest : States adjoin n .sequence ts (.list trees)) :
      States adjoin n .sequence (t :: ts) (.list trees)
  | more {n ts us tree trees} (first : States adjoin n .statement ts tree)
      (hnext : ∀ t ∈ us.head?, t.kind = .semicolon ∨ adjoin tree ts t)
      (rest : States adjoin n .sequence us (.list trees)) :
      States adjoin n .sequence (ts ++ us) (.list (tree :: trees))
  | block {n left ts right trees} (hleft : left.kind = .leftBrace)
      (inner : States adjoin n .sequence ts (.list trees)) (hright : right.kind = .rightBrace) :
      States adjoin (n + 1) .block (left :: ts ++ [right]) (.list trees)

/-- The tokens spell a program in which semicolons separate the statements of every sequence. -/
def Rendering (bound : Nat) (tokens : List Token) (trees : List Tree) : Prop :=
  States (fun _ _ _ => False) bound .sequence tokens (.list trees)

/-- Whether a token carries on an expression that ends in another token. -/
def CarriesOn (last next : Token) : Prop :=
  next.kind = .operator ∨ next.kind = .comparison ∨ next.kind = .power ∨
    last.kind = .identifier ∧
      (next.kind = .leftParen ∨ next.kind = .leftBracket ∨ next.kind = .dot) ∨
    last.Is .keyword "length" ∧ next.kind = .leftParen

/-- Whether a statement, spelled by some tokens, may have a token right behind it that belongs to
the next statement: it ends in a brace or in the parenthesis of a `print`, or it ends in an
expression or method call that the token does not carry on. Behind a `return` without a value there
is only the end of its sequence, or a semicolon. -/
def MayAdjoin (tree : Tree) (ts : List Token) (next : Token) : Prop :=
  match tree with
  | .print _ | .ifStatement _ _ _ | .whileStatement _ _ | .functionDeclaration _ _ _ => True
  | .returnStatement (.scalar .none) =>
      next.kind = .rightBrace ∨ next.kind = .semicolon ∨ next.kind = .finish
  | _ => ∀ last ∈ ts.getLast?, ¬ CarriesOn last next

/-- The tokens spell a program in which statements are separated or stand side by side. -/
def Derivation (bound : Nat) (tokens : List Token) (trees : List Tree) : Prop :=
  States MayAdjoin bound .sequence tokens (.list trees)

end Sprig.Grammar
