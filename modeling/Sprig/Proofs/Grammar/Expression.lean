import Sprig.Token.Basic
import Sprig.Tree.Basic

/-!
# The grammar of expressions

Which tokens spell which expression. Comparisons bind loosest, then sums, products, negations and
powers; primary expressions bind tightest. Comparisons, sums and products group to the left, so
their left operand has their own form and their right operand the next tighter one. The base of a
power is primary and its exponent is a negation, so powers group to the right. Parentheses may stand
around every expression.

## Implementation notes

The relation carries a bound on the nesting: each form inside of another takes one level off, and a
primary expression that starts with a name or a bracket takes off one or two more. A derivation
within a bound is one within every larger bound.
-/

namespace Sprig

/-- The token has a kind and says a word. -/
def Token.Is (t : Token) (kind : Token.Kind) (word : String) : Prop :=
  t.kind = kind ∧ t.literal = .text word

namespace Grammar

/-- The forms of expressions from the loosest to the tightest, and lists of expressions. -/
inductive Form
  | expression
  | comparison
  | sum
  | product
  | negation
  | power
  | primary
  | items
deriving DecidableEq

/-- The next tighter form. -/
def Form.tighter : Form → Form
  | .expression => .comparison
  | .comparison => .sum
  | .sum => .product
  | .product => .negation
  | .negation => .power
  | .power => .primary
  | form => form

/-- The operators that group to the left, by the form they make. -/
def Form.operators : Form → List (Token.Kind × String)
  | .comparison => [(.comparison, "=="), (.comparison, "!="), (.comparison, "<="),
      (.comparison, ">="), (.operator, "<"), (.operator, ">")]
  | .sum => [(.operator, "+"), (.operator, "-")]
  | .product => [(.operator, "*"), (.operator, "/")]
  | _ => []

theorem Form.tighter_ne_items {form : Form} (h : form ≠ .items) : form.tighter ≠ .items := by
  cases form with
  | items => exact absurd rfl h
  | _ => simp [tighter]

theorem Form.ne_items_of_operators {form : Form} (h : form.operators ≠ []) : form ≠ .items := by
  rintro rfl
  exact h rfl

/-- The node of an operator that groups to the left. -/
def Form.node : Form → (word : String) → (left right : Tree) → Tree
  | .comparison, word, left, right => .comparison (.text word) left right
  | _, word, left, right => .binary (.text word) left right

/-- The token names a member: a method or property may be called by a word of the language. -/
def Member (t : Token) (word : String) : Prop := t.Is .identifier word ∨ t.Is .keyword word

theorem Member.kind_eq {member : Token} {m : String} (h : Member member m) :
    member.kind = .identifier ∨ member.kind = .keyword :=
  h.imp And.left And.left

theorem Member.literal_eq {member : Token} {m : String} (h : Member member m) :
    member.literal = .text m :=
  h.elim And.right And.right

/-- The tokens spell the tree in a form, nested within a bound. -/
inductive Spells : (bound : Nat) → Form → List Token → Tree → Prop
  | loosen {n form ts e} (hprimary : form ≠ .primary) (hitems : form ≠ .items)
      (inner : Spells n form.tighter ts e) : Spells (n + 1) form ts e
  | join {n form ls op rs kind word left right} (front : Spells (n + 1) form ls left)
      (hmem : (kind, word) ∈ form.operators) (hop : op.Is kind word)
      (back : Spells n form.tighter rs right) :
      Spells (n + 1) form (ls ++ op :: rs) (form.node word left right)
  | negate {n minus ts e} (hminus : minus.Is .operator "-") (operand : Spells n .negation ts e) :
      Spells (n + 1) .negation (minus :: ts) (.unary (.text "-") e)
  | raise {n ls caret rs base exponent} (front : Spells n .primary ls base)
      (hcaret : caret.Is .power "^") (back : Spells n .negation rs exponent) :
      Spells (n + 1) .power (ls ++ caret :: rs) (.binary (.text "^") base exponent)
  | parens {n left ts right e} (hleft : left.kind = .leftParen) (inner : Spells n .expression ts e)
      (hright : right.kind = .rightParen) : Spells (n + 1) .primary (left :: ts ++ [right]) e
  | number {n t x} (hkind : t.kind = .number) (hliteral : t.literal = .number x) :
      Spells (n + 1) .primary [t] (.number (.scalar (.number x)))
  | string {n t s} (ht : t.Is .string s) : Spells (n + 1) .primary [t] (.string (.text s))
  | yes {n t} (ht : t.Is .keyword "true") :
      Spells (n + 1) .primary [t] (.boolean (.scalar (.boolean true)))
  | no {n t} (ht : t.Is .keyword "false") :
      Spells (n + 1) .primary [t] (.boolean (.scalar (.boolean false)))
  | array {n left ts right es} (hleft : left.kind = .leftBracket)
      (inner : Spells n .items ts (.list es)) (hright : right.kind = .rightBracket) :
      Spells (n + 2) .primary (left :: ts ++ [right]) (.arrayLiteral (.list es))
  | name {n t x} (ht : t.Is .identifier x) :
      Spells (n + 2) .primary [t] (.variable (.text x))
  | element {n t x left ts right e} (ht : t.Is .identifier x) (hleft : left.kind = .leftBracket)
      (index : Spells n .expression ts e) (hright : right.kind = .rightBracket) :
      Spells (n + 2) .primary (t :: left :: ts ++ [right]) (.elementAccess (.text x) e)
  | length {n t x dot member} (ht : t.Is .identifier x) (hdot : dot.kind = .dot)
      (hmember : Member member "length") :
      Spells (n + 2) .primary [t, dot, member] (.arrayProperty (.text x) (.text "length"))
  | method {n t x dot member m left ts right es} (ht : t.Is .identifier x) (hdot : dot.kind = .dot)
      (hmember : Member member m) (hleft : left.kind = .leftParen)
      (args : Spells n .items ts (.list es)) (hright : right.kind = .rightParen) :
      Spells (n + 3) .primary (t :: dot :: member :: left :: ts ++ [right])
        (.methodExpression (.text x) (.text m) (.list es))
  | call {n t f left ts right es} (ht : t.Is .identifier f) (hleft : left.kind = .leftParen)
      (args : Spells n .items ts (.list es)) (hright : right.kind = .rightParen) :
      Spells (n + 3) .primary (t :: left :: ts ++ [right]) (.call (.text f) (.list es))
  | noItems {n} : Spells n .items [] (.list [])
  | lastItem {n ts e} (item : Spells n .expression ts e) : Spells n .items ts (.list [e])
  | moreItems {n ts comma us e f es} (item : Spells n .expression ts e)
      (hcomma : comma.kind = .comma) (rest : Spells n .items us (.list (f :: es))) :
      Spells n .items (ts ++ comma :: us) (.list (e :: f :: es))

namespace Spells

/-- A derivation within a bound is one within the next larger bound. -/
theorem succ {n : Nat} {form : Form} {ts : List Token} {e : Tree} (h : Spells n form ts e) :
    Spells (n + 1) form ts e := by
  induction h with
  | loosen hprimary hitems _ ih => exact loosen hprimary hitems ih
  | join _ hmem hop _ ihfront ihback => exact join ihfront hmem hop ihback
  | negate hminus _ ih => exact negate hminus ih
  | raise _ hcaret _ ihfront ihback => exact raise ihfront hcaret ihback
  | parens hleft _ hright ih => exact parens hleft ih hright
  | number hkind hliteral => exact number hkind hliteral
  | string ht => exact string ht
  | yes ht => exact yes ht
  | no ht => exact no ht
  | array hleft _ hright ih => exact array hleft ih hright
  | name ht => exact name ht
  | element ht hleft _ hright ih => exact element ht hleft ih hright
  | length ht hdot hmember => exact length ht hdot hmember
  | method ht hdot hmember hleft _ hright ih => exact method ht hdot hmember hleft ih hright
  | call ht hleft _ hright ih => exact call ht hleft ih hright
  | noItems => exact noItems
  | lastItem _ ih => exact lastItem ih
  | moreItems _ hcomma _ ihitem ihrest => exact moreItems ihitem hcomma ihrest

/-- A derivation within a bound is one within every larger bound. -/
theorem mono {n m : Nat} {form : Form} {ts : List Token} {e : Tree} (h : Spells n form ts e)
    (hle : n ≤ m) : Spells m form ts e := by
  induction hle with
  | refl => exact h
  | step _ ih => exact ih.succ

/-- A negation is an expression. -/
theorem expression_of_negation {n : Nat} {ts : List Token} {e : Tree}
    (h : Spells n .negation ts e) : Spells (n + 4) .expression ts e := by
  have hproduct : Spells (n + 1) .product ts e := .loosen (by simp) (by simp) h
  have hsum : Spells (n + 2) .sum ts e := .loosen (by simp) (by simp) hproduct
  have hcomparison : Spells (n + 3) .comparison ts e := .loosen (by simp) (by simp) hsum
  exact .loosen (by simp) (by simp) hcomparison

/-- A primary expression is a negation with no sign. -/
theorem negation_of_primary {n : Nat} {ts : List Token} {e : Tree} (h : Spells n .primary ts e) :
    Spells (n + 2) .negation ts e := by
  have hpower : Spells (n + 1) .power ts e := .loosen (by simp) (by simp) h
  exact .loosen (by simp) (by simp) hpower

end Spells

end Grammar

end Sprig
