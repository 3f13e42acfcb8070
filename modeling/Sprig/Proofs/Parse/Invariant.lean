import Sprig.Proofs.Parse.Step
import Sprig.Proofs.Text.Line

/-!
# What every parser keeps

A property of cursors that a step ahead keeps is kept by every parser, whether it is done or
refuses: a parser steps ahead, or goes back to a cursor where it was before. Along with that, a
property of trees that holds of the leaves and of every node with such parts holds of what the
parsers make, and a property of refusals holds of why they refuse.

## Implementation notes

The value of a Number is the only part of a tree that is not built from smaller ones or from a word
of the program. So it is the only place where the property of cursors has to say something about the
property of trees. What a parser expects is told in words of its own, which stand on one line, and
in one place together with the name of a member.
-/

namespace Sprig

/-- Where a parser ends the cursor has a property, and its value has one if it is done, and why it
refuses has one if it does. -/
def Step.Satisfies {α : Type} (K : Cursor → Prop) (Q : α → Prop)
    (W : Refusal → Prop := fun _ => True) : Step α → Prop
  | .done a rest => Q a ∧ K rest
  | .refused why rest => W why ∧ K rest

theorem Step.Satisfies.rest {α : Type} {K : Cursor → Prop} {Q : α → Prop} {W : Refusal → Prop}
    {s : Step α} (h : s.Satisfies K Q W) : K s.rest := by
  cases s with
  | done a rest => exact h.2
  | refused why rest => exact h.2

namespace Parse

variable {α β : Type} {K : Cursor → Prop} {Q : α → Prop} {R : β → Prop} {W : Refusal → Prop}

/-- From a cursor with a property a parser ends at such a cursor, and its value or why it refuses
has a property. -/
def Keeps (K : Cursor → Prop) (Q : α → Prop) (parser : Parse α)
    (W : Refusal → Prop := fun _ => True) : Prop :=
  ∀ c, K c → (parser c).Satisfies K Q W

theorem Keeps.mono {Q' : α → Prop} {parser : Parse α} (h : Keeps K Q parser W)
    (hQ : ∀ a, Q a → Q' a) : Keeps K Q' parser W := by
  intro c hc
  have hstep := h c hc
  cases hparser : parser c with
  | done a rest =>
      rw [hparser] at hstep
      exact ⟨hQ a hstep.1, hstep.2⟩
  | refused why rest =>
      rw [hparser] at hstep
      exact hstep

theorem keeps_pure {a : α} (h : Q a) : Keeps K Q (pure a) W := fun _ hc => ⟨h, hc⟩

theorem keeps_tooDeep (h : W .nestedTooDeeply) : Keeps K Q tooDeep W := fun _ hc => ⟨h, hc⟩

theorem keeps_refuse {what : Expectation} (h : W (.expected what)) : Keeps K Q (refuse what) W :=
  fun _ hc => ⟨h, hc⟩

theorem keeps_bind {first : Parse α} {next : α → Parse β} (h : Keeps K Q first W)
    (hnext : ∀ a, Q a → Keeps K R (next a) W) : Keeps K R (first >>= next) W := by
  intro c hc
  have hstep := h c hc
  rw [bind_apply]
  cases hfirst : first c with
  | done a rest =>
      rw [hfirst] at hstep
      exact hnext a hstep.1 rest hstep.2
  | refused why rest =>
      rw [hfirst] at hstep
      exact hstep

theorem keeps_cursor : Keeps K K cursor W := fun _ hc => ⟨hc, hc⟩

theorem keeps_moveTo {target : Cursor} (h : K target) :
    Keeps K (fun _ => True) (moveTo target) W := fun _ _ => ⟨trivial, h⟩

theorem keeps_isAt (kind : Token.Kind) : Keeps K (fun _ => True) (isAt kind) W :=
  fun _ hc => ⟨trivial, hc⟩

theorem keeps_isAtWord (kind : Token.Kind) (word : String) :
    Keeps K (fun _ => True) (isAtWord kind word) W := fun _ hc => ⟨trivial, hc⟩

/-- What is expected behind the name of a member that is called. -/
def behindMember (member : Token) : Expectation :=
  .phrase ("'(' after '." ++ literalWords member.literal ++ "'")

/-- Whether a token can name a member. -/
def NamesMember (t : Token) : Prop := t.kind = .identifier ∨ t.kind = .keyword

/-- A property of cursors that a step ahead keeps, one of trees that the leaves have and every node
has whose parts have it, and one of refusals that those in words of one line have. -/
structure Invariant (K : Cursor → Prop) (Q : Tree → Prop)
    (W : Refusal → Prop := fun _ => True) : Prop where
  advance : ∀ c, K c → K c.advance
  scalar : ∀ value, Q (.scalar value)
  list : ∀ {items}, (∀ item ∈ items, Q item) → Q (.list items)
  number : ∀ c, K c → c.current.kind = .number → Q (.number c.current.literal.tree)
  node : ∀ {tree kind parts}, tree.node? = some (kind, parts) → kind ≠ .number →
    (∀ part ∈ parts, Q part) → Q tree
  told : ∀ what, Text.IsLine what.text → W (.expected what) := by exact fun _ _ => trivial
  tooDeep : W .nestedTooDeeply := by trivial
  member : ∀ c, K c → NamesMember c.current → W (.expected (behindMember c.current)) := by
    exact fun _ _ _ => trivial

/-- A step ahead keeps the property, whatever the trees are. -/
theorem Invariant.of_advance (h : ∀ c, K c → K c.advance) : Invariant K (fun _ => True) where
  advance := h
  scalar _ := trivial
  list _ := trivial
  number _ _ _ := trivial
  node _ _ _ := trivial

namespace Invariant

variable {Q : Tree → Prop} {n : Nat}

theorem literal (hI : Invariant K Q W) (l : Token.Literal) : Q l.tree := by
  cases l <;> exact hI.scalar _

/-- A token of a Number gives a tree of the property, and one that names a member a refusal of the
property. -/
structure Offers (Q : Tree → Prop) (W : Refusal → Prop) (t : Token) : Prop where
  number : t.kind = .number → Q (.number t.literal.tree)
  member : NamesMember t → W (.expected (behindMember t))

theorem offers (hI : Invariant K Q W) {c : Cursor} (hc : K c) : Offers Q W c.current :=
  ⟨hI.number c hc, hI.member c hc⟩

theorem keeps_current (hI : Invariant K Q W) : Keeps K (Offers Q W) current W :=
  fun _ hc => ⟨hI.offers hc, hc⟩

theorem keeps_advance (hI : Invariant K Q W) : Keeps K (Offers Q W) Parse.advance W :=
  fun c hc => ⟨hI.offers hc, hI.advance c hc⟩

theorem keeps_expect (hI : Invariant K Q W) (kind : Token.Kind) (literal? : Option Token.Literal)
    {what : Expectation} (h : W (.expected what)) :
    Keeps K (Offers Q W) (expect kind literal? what) W := by
  intro c hc
  unfold expect
  split
  · exact hI.keeps_advance c hc
  · exact ⟨h, hc⟩

theorem keeps_expectAs (hI : Invariant K Q W) (kind : Token.Kind) (words : String)
    (h : Text.IsLine words) : Keeps K (Offers Q W) (expectAs kind words) W :=
  hI.keeps_expect kind _ (hI.told (.phrase words) h)

theorem keeps_expectKind (hI : Invariant K Q W) (kind : Token.Kind)
    (h : Text.IsLine kind.label) : Keeps K (Offers Q W) (expectKind kind) W :=
  hI.keeps_expect kind _ (hI.told (.kind kind) h)

theorem keeps_expectKeyword (hI : Invariant K Q W) (word : String) :
    Keeps K (Offers Q W) (expectKeyword word) W :=
  hI.keeps_expect _ _ (hI.told (.literal (.text word)) (Text.isLine_quoted word))

theorem keeps_refuse (hI : Invariant K Q W) (words : String) (h : Text.IsLine words) :
    Keeps K R (refuse (.phrase words)) W := Parse.keeps_refuse (hI.told (.phrase words) h)

section Sequences

variable {operand item statement : Parse Tree}

theorem keeps_joinFrom (hI : Invariant K Q W) (h : Keeps K Q operand W) {joins : Token → Bool}
    {join : Tree → Tree → Tree → Tree} (hjoin : ∀ op l r, Q op → Q l → Q r → Q (join op l r))
    (budget : List Token) {left : Tree} (hleft : Q left) :
    Keeps K Q (joinFrom operand joins join budget left) W := by
  induction budget generalizing left with
  | nil => exact keeps_pure hleft
  | cons t budget ih =>
      refine keeps_bind hI.keeps_current fun token _ => ?_
      split
      · refine keeps_bind hI.keeps_advance fun operator _ => ?_
        exact keeps_bind h fun right hright => ih (hjoin _ _ _ (hI.literal _) hleft hright)
      · exact keeps_pure hleft

theorem keeps_leftGrouped (hI : Invariant K Q W) (h : Keeps K Q operand W) {joins : Token → Bool}
    {join : Tree → Tree → Tree → Tree} (hjoin : ∀ op l r, Q op → Q l → Q r → Q (join op l r)) :
    Keeps K Q (leftGrouped operand joins join) W := by
  refine keeps_bind h fun first hfirst => keeps_bind keeps_cursor fun c _ => ?_
  exact hI.keeps_joinFrom h hjoin c.tokens hfirst

theorem keeps_moreItems (hI : Invariant K Q W) (h : Keeps K Q item W) (budget : List Token) :
    Keeps K (∀ e ∈ ·, Q e) (moreItems item budget) W := by
  induction budget with
  | nil => exact keeps_pure (by simp)
  | cons t budget ih =>
      refine keeps_bind (keeps_isAt _) fun comma _ => ?_
      split
      · refine keeps_bind hI.keeps_advance fun _ _ => keeps_bind h fun first hfirst => ?_
        exact keeps_bind ih fun rest hrest => keeps_pure (by simpa using ⟨hfirst, hrest⟩)
      · exact keeps_pure (by simp)

theorem keeps_itemsUntil (hI : Invariant K Q W) (h : Keeps K Q item W) (close : Token.Kind) :
    Keeps K (∀ e ∈ ·, Q e) (itemsUntil close item) W := by
  refine keeps_bind (keeps_isAt _) fun closed _ => ?_
  split
  · exact keeps_pure (by simp)
  · refine keeps_bind h fun first hfirst => keeps_bind keeps_cursor fun c _ => ?_
    refine keeps_bind (hI.keeps_moreItems h c.tokens) fun rest hrest => ?_
    exact keeps_pure (by simpa using ⟨hfirst, hrest⟩)

theorem keeps_names (hI : Invariant K Q W) (budget : List Token) :
    Keeps K (∀ e ∈ ·, Q e) (names budget) W := by
  induction budget with
  | nil => exact keeps_pure (by simp)
  | cons t budget ih =>
      refine keeps_bind (hI.keeps_expectAs _ _ (by decide)) fun name _ => ?_
      refine keeps_bind (keeps_isAt _) fun comma _ => ?_
      split
      · refine keeps_bind hI.keeps_advance fun _ _ => keeps_bind ih fun rest hrest => ?_
        exact keeps_pure (by simpa using ⟨hI.literal _, hrest⟩)
      · exact keeps_pure (by simpa using hI.literal _)

theorem keeps_parameterList (hI : Invariant K Q W) : Keeps K (∀ e ∈ ·, Q e) parameterList W := by
  refine keeps_bind (hI.keeps_expectAs _ _ (by decide)) fun _ _ => ?_
  refine keeps_bind (keeps_isAt _) fun closed _ => ?_
  split
  · exact keeps_bind hI.keeps_advance fun _ _ => keeps_pure (by simp)
  · refine keeps_bind keeps_cursor fun c _ => keeps_bind (hI.keeps_names c.tokens) fun _ hps => ?_
    exact keeps_bind (hI.keeps_expectAs _ _ (by decide)) fun _ _ => keeps_pure hps

theorem keeps_namesIfPresent (hI : Invariant K Q W) (budget : List Token) :
    Keeps K (fun params? : Option (List Tree) => ∀ params ∈ params?, ∀ e ∈ params, Q e)
      (namesIfPresent budget) W := by
  induction budget with
  | nil => exact keeps_pure (by simp)
  | cons t budget ih =>
      refine keeps_bind (keeps_isAt _) fun named _ => ?_
      split
      · refine keeps_bind hI.keeps_advance fun name _ => keeps_bind (keeps_isAt _) fun comma _ => ?_
        split
        · refine keeps_bind hI.keeps_advance fun _ _ => keeps_bind ih fun rest hrest => ?_
          refine keeps_pure fun params hparams => ?_
          obtain ⟨others, hothers, rfl⟩ := Option.map_eq_some_iff.mp hparams
          simpa using ⟨hI.literal _, hrest others hothers⟩
        · exact keeps_pure (by simpa using hI.literal _)
      · exact keeps_pure (by simp)

theorem keeps_parametersIfPresent (hI : Invariant K Q W) :
    Keeps K (fun params? : Option (List Tree) => ∀ params ∈ params?, ∀ e ∈ params, Q e)
      parametersIfPresent W := by
  have hclosed {next : Option (List Tree) → Parse (Option (List Tree))}
      (hnone : next none = return none)
      (hsome : ∀ params, next (some params) = do
        if ← isAt .rightParen then
          let _ ← Parse.advance
          return some params
        else
          return none) (params? : Option (List Tree))
      (hparams : ∀ params ∈ params?, ∀ e ∈ params, Q e) :
      Keeps K (fun params? : Option (List Tree) => ∀ params ∈ params?, ∀ e ∈ params, Q e)
        (next params?) W := by
    cases params? with
    | none =>
        rw [hnone]
        exact keeps_pure (by simp)
    | some params =>
        rw [hsome]
        refine keeps_bind (keeps_isAt _) fun closes _ => ?_
        split
        · exact keeps_bind hI.keeps_advance fun _ _ => keeps_pure hparams
        · exact keeps_pure (by simp)
  refine keeps_bind (hI.keeps_expectKind .leftParen (by decide)) fun _ _ => ?_
  refine keeps_bind keeps_cursor fun c _ => keeps_bind (keeps_isAt _) fun empty _ => ?_
  split
  · exact keeps_bind (keeps_pure (by simp)) (hclosed rfl fun _ => rfl)
  · exact keeps_bind (hI.keeps_namesIfPresent c.tokens) (hclosed rfl fun _ => rfl)

theorem keeps_blockStatements (hI : Invariant K Q W) (h : Keeps K Q statement W)
    (budget : List Token) : Keeps K (∀ e ∈ ·, Q e) (blockStatements statement budget) W := by
  induction budget with
  | nil => exact keeps_pure (by simp)
  | cons t budget ih =>
      refine keeps_bind hI.keeps_current fun token _ => ?_
      split
      · exact keeps_pure (by simp)
      · split
        · exact hI.keeps_refuse _ (by decide)
        · split
          · exact keeps_bind hI.keeps_advance fun _ _ => ih
          · refine keeps_bind h fun first hfirst => keeps_bind ih fun rest hrest => ?_
            exact keeps_pure (by simpa using ⟨hfirst, hrest⟩)

theorem keeps_programStatements (hI : Invariant K Q W) (h : Keeps K Q statement W)
    (budget : List Token) : Keeps K (∀ e ∈ ·, Q e) (programStatements statement budget) W := by
  induction budget with
  | nil => exact keeps_pure (by simp)
  | cons t budget ih =>
      refine keeps_bind hI.keeps_current fun token _ => ?_
      split
      · exact keeps_pure (by simp)
      · split
        · exact keeps_bind hI.keeps_advance fun _ _ => ih
        · refine keeps_bind h fun first hfirst => keeps_bind ih fun rest hrest => ?_
          exact keeps_pure (by simpa using ⟨hfirst, hrest⟩)

end Sequences

/-- What the parsers of expressions keep within a number of frames. -/
structure Expressions (K : Cursor → Prop) (Q : Tree → Prop) (W : Refusal → Prop) (n : Nat) :
    Prop where
  expression : Keeps K Q (expression n) W
  comparison : Keeps K Q (comparison n) W
  additive : Keeps K Q (additive n) W
  multiplicative : Keeps K Q (multiplicative n) W
  unary : Keeps K Q (unary n) W
  exponent : Keeps K Q (exponent n) W
  primary : Keeps K Q (primary n) W
  arrayLiteral : Keeps K Q (arrayLiteral n) W
  identifierExpression : Keeps K Q (identifierExpression n) W
  arguments : ∀ words, W (.expected (.phrase words)) →
    Keeps K (∀ e ∈ ·, Q e) (arguments n words) W

namespace Expressions

theorem primary_succ (hI : Invariant K Q W) (h : Expressions K Q W n) :
    Keeps K Q (Parse.primary (n + 1)) W := by
  have hboolean : ∀ b, Q (.boolean (.scalar (.boolean b))) :=
    fun b => hI.node rfl (by simp) (by simpa using hI.scalar _)
  simp only [Parse.primary]
  refine keeps_bind hI.keeps_current fun token htoken => ?_
  split
  · refine keeps_bind hI.keeps_advance fun _ _ => keeps_bind h.expression fun inner hinner => ?_
    exact keeps_bind (hI.keeps_expectAs _ _ (by decide)) fun _ _ => keeps_pure hinner
  · next hnumber => exact keeps_bind hI.keeps_advance fun _ _ => keeps_pure (htoken.number hnumber)
  · refine keeps_bind hI.keeps_advance fun _ _ => keeps_pure ?_
    exact hI.node rfl (by simp) (by simpa using hI.literal _)
  · split
    · exact keeps_bind hI.keeps_advance fun _ _ => keeps_pure (hboolean true)
    · split
      · exact keeps_bind hI.keeps_advance fun _ _ => keeps_pure (hboolean false)
      · exact hI.keeps_refuse _ (by decide)
  · exact h.arrayLiteral
  · exact h.identifierExpression
  · exact hI.keeps_refuse _ (by decide)

theorem identifierExpression_succ (hI : Invariant K Q W) (h : Expressions K Q W n) :
    Keeps K Q (Parse.identifierExpression (n + 1)) W := by
  simp only [Parse.identifierExpression]
  refine keeps_bind (hI.keeps_expectKind _ (by decide)) fun name _ => ?_
  refine keeps_bind hI.keeps_current fun token _ => ?_
  split
  · refine keeps_bind hI.keeps_advance fun _ _ => keeps_bind h.expression fun index hindex => ?_
    refine keeps_bind (hI.keeps_expectAs _ _ (by decide)) fun _ _ => keeps_pure ?_
    exact hI.node rfl (by simp) (by simpa using ⟨hI.literal _, hindex⟩)
  · refine keeps_bind hI.keeps_advance fun _ _ => ?_
    refine keeps_bind hI.keeps_current fun member hmember => ?_
    split
    · next hnames =>
      refine keeps_bind hI.keeps_advance fun _ _ => keeps_bind (keeps_isAt _) fun called _ => ?_
      split
      · exact keeps_pure (hI.node rfl (by simp) (by simp [hI.literal]))
      · refine keeps_bind (h.arguments _ (hmember.member hnames)) fun args hargs => keeps_pure ?_
        exact hI.node rfl (by simp) (by simpa [hI.literal] using hI.list hargs)
    · exact hI.keeps_refuse _ (by decide)
  · refine keeps_bind (h.arguments _ (hI.told (.phrase "'('") (by decide))) ?_
    refine fun args hargs => keeps_pure ?_
    exact hI.node rfl (by simp) (by simpa [hI.literal] using hI.list hargs)
  · exact keeps_pure (hI.node rfl (by simp) (by simp [hI.literal]))

/-- With one more frame the parsers of expressions keep what they kept. -/
theorem succ (hI : Invariant K Q W) (h : Expressions K Q W n) : Expressions K Q W (n + 1) where
  expression := by simpa only [Parse.expression] using h.comparison
  comparison := by
    simp only [Parse.comparison]
    exact hI.keeps_leftGrouped h.additive fun op l r hop hl hr =>
      hI.node rfl (by simp) (by simpa using ⟨hop, hl, hr⟩)
  additive := by
    simp only [Parse.additive]
    exact hI.keeps_leftGrouped h.multiplicative fun op l r hop hl hr =>
      hI.node rfl (by simp) (by simpa using ⟨hop, hl, hr⟩)
  multiplicative := by
    simp only [Parse.multiplicative]
    exact hI.keeps_leftGrouped h.unary fun op l r hop hl hr =>
      hI.node rfl (by simp) (by simpa using ⟨hop, hl, hr⟩)
  unary := by
    simp only [Parse.unary]
    refine keeps_bind (keeps_isAtWord _ _) fun minus _ => ?_
    split
    · refine keeps_bind hI.keeps_advance fun _ _ => keeps_bind h.unary fun operand hoperand => ?_
      exact keeps_pure (hI.node rfl (by simp) (by simpa using ⟨hI.scalar _, hoperand⟩))
    · exact h.exponent
  exponent := by
    simp only [Parse.exponent]
    refine keeps_bind h.primary fun base hbase => keeps_bind (keeps_isAt _) fun raised _ => ?_
    split
    · refine keeps_bind hI.keeps_advance fun _ _ => keeps_bind h.unary fun right hright => ?_
      exact keeps_pure (hI.node rfl (by simp) (by simpa using ⟨hI.scalar _, hbase, hright⟩))
    · exact keeps_pure hbase
  primary := primary_succ hI h
  arrayLiteral := by
    simp only [Parse.arrayLiteral]
    refine keeps_bind (hI.keeps_expectKind _ (by decide)) fun _ _ => ?_
    refine keeps_bind (hI.keeps_itemsUntil h.expression _) fun items hitems => ?_
    refine keeps_bind (hI.keeps_expectAs _ _ (by decide)) fun _ _ => keeps_pure ?_
    exact hI.node rfl (by simp) (by simpa using hI.list hitems)
  identifierExpression := identifierExpression_succ hI h
  arguments words hwords := by
    simp only [Parse.arguments]
    refine keeps_bind (hI.keeps_expect _ _ hwords) fun _ _ => ?_
    refine keeps_bind (hI.keeps_itemsUntil h.expression _) fun args hargs => ?_
    exact keeps_bind (hI.keeps_expectAs _ _ (by decide)) fun _ _ => keeps_pure hargs

end Expressions

/-- Every parser of expressions keeps an invariant. -/
theorem expressions (hI : Invariant K Q W) (n : Nat) : Expressions K Q W n := by
  induction n with
  | zero => constructor <;> simp [keeps_tooDeep hI.tooDeep]
  | succ n ih => exact ih.succ hI

/-- What the parsers of statements keep within a number of frames. -/
structure Statements (K : Cursor → Prop) (Q : Tree → Prop) (W : Refusal → Prop) (n : Nat) :
    Prop where
  statement : Keeps K Q (statement n) W
  identifierStatement : Keeps K (fun tree? => ∀ tree ∈ tree?, Q tree) (identifierStatement n) W
  functionDeclaration : Keeps K Q (functionDeclaration n) W
  returnStatement : Keeps K Q (returnStatement n) W
  printStatement : Keeps K Q (printStatement n) W
  ifStatement : Keeps K Q (ifStatement n) W
  whileStatement : Keeps K Q (whileStatement n) W
  block : Keeps K (∀ e ∈ ·, Q e) (block n) W

namespace Statements

theorem statement_succ (hI : Invariant K Q W) (h : Statements K Q W n) :
    Keeps K Q (Parse.statement (n + 1)) W := by
  have hexpression : Keeps K Q (do
      let value ← Parse.expression n
      return .expressionStatement value) W :=
    keeps_bind (hI.expressions n).expression fun value hvalue =>
      keeps_pure (hI.node rfl (by simp) (by simpa using hvalue))
  simp only [Parse.statement]
  refine keeps_bind hI.keeps_current fun token _ => ?_
  split
  · exact h.returnStatement
  · split
    · exact h.functionDeclaration
    · split
      · exact h.printStatement
      · split
        · exact h.ifStatement
        · split
          · exact h.whileStatement
          · exact hexpression
  · refine keeps_bind h.identifierStatement fun tree? htree => ?_
    cases tree? with
    | none => exact hexpression
    | some tree => exact keeps_pure (htree tree rfl)
  · exact hexpression

theorem identifierStatement_succ (hI : Invariant K Q W) (h : Statements K Q W n) :
    Keeps K (fun tree? => ∀ tree ∈ tree?, Q tree) (Parse.identifierStatement (n + 1)) W := by
  have hnone : ∀ start : Cursor, K start → Keeps K (fun tree? => ∀ tree ∈ tree?, Q tree) (do
      moveTo start
      return none : Parse (Option Tree)) W :=
    fun start hstart => keeps_bind (keeps_moveTo hstart) fun _ _ => keeps_pure (by simp)
  have hexpression := (hI.expressions n).expression
  simp only [Parse.identifierStatement]
  refine keeps_bind keeps_cursor fun start hstart => ?_
  refine keeps_bind (hI.keeps_expectKind _ (by decide)) fun name _ => ?_
  refine keeps_bind hI.keeps_current fun token _ => ?_
  split
  · refine keeps_bind hI.keeps_advance fun _ _ => keeps_bind hexpression fun value hvalue => ?_
    refine keeps_pure ?_
    rintro tree ⟨⟩
    exact hI.node rfl (by simp) (by simpa [hI.literal] using hvalue)
  · refine keeps_bind hI.keeps_advance fun _ _ => keeps_bind hexpression fun index hindex => ?_
    refine keeps_bind (hI.keeps_expectAs _ _ (by decide)) fun _ _ => ?_
    refine keeps_bind (keeps_isAt _) fun assigned _ => ?_
    split
    · refine keeps_bind hI.keeps_advance fun _ _ => keeps_bind hexpression fun value hvalue => ?_
      refine keeps_pure ?_
      rintro tree ⟨⟩
      exact hI.node rfl (by simp) (by simpa [hI.literal] using ⟨hindex, hvalue⟩)
    · exact hnone start hstart
  · refine keeps_bind hI.keeps_advance fun _ _ => keeps_bind keeps_cursor fun c _ => ?_
    split
    · refine keeps_bind hI.keeps_advance fun method _ => ?_
      refine keeps_bind ((hI.expressions n).arguments _ (hI.told (.phrase "'('") (by decide))) ?_
      intro args hargs
      refine keeps_bind hI.keeps_current fun after _ => ?_
      split
      · exact hnone start hstart
      · refine keeps_pure ?_
        rintro tree ⟨⟩
        exact hI.node rfl (by simp) (by simpa [hI.literal] using hI.list hargs)
    · exact hnone start hstart
  · refine keeps_bind hI.keeps_parametersIfPresent fun params? hparams => ?_
    refine keeps_bind (keeps_isAt _) fun opens _ => ?_
    cases params? with
    | none => exact hnone start hstart
    | some params =>
        cases opens with
        | false => exact hnone start hstart
        | true =>
            refine keeps_bind h.block fun body hbody => keeps_pure ?_
            rintro tree ⟨⟩
            exact hI.node rfl (by simp)
              (by simpa [hI.literal] using ⟨hI.list (hparams params rfl), hI.list hbody⟩)
  · exact hnone start hstart

/-- With one more frame the parsers of statements keep what they kept. -/
theorem succ (hI : Invariant K Q W) (h : Statements K Q W n) : Statements K Q W (n + 1) where
  statement := statement_succ hI h
  identifierStatement := identifierStatement_succ hI h
  functionDeclaration := by
    simp only [Parse.functionDeclaration]
    refine keeps_bind (hI.keeps_expectKeyword _) fun _ _ => ?_
    refine keeps_bind (hI.keeps_expectAs _ _ (by decide)) fun name _ => ?_
    refine keeps_bind hI.keeps_parameterList fun params hparams => ?_
    refine keeps_bind h.block fun body hbody => keeps_pure ?_
    exact hI.node rfl (by simp) (by simpa [hI.literal] using ⟨hI.list hparams, hI.list hbody⟩)
  returnStatement := by
    simp only [Parse.returnStatement]
    refine keeps_bind (hI.keeps_expectKind _ (by decide)) fun _ _ => ?_
    refine keeps_bind hI.keeps_current fun token _ => ?_
    split
    · exact keeps_pure (hI.node rfl (by simp) (by simpa [Tree.none] using hI.scalar .none))
    · refine keeps_bind (hI.expressions n).expression fun value hvalue => keeps_pure ?_
      exact hI.node rfl (by simp) (by simpa using hvalue)
  printStatement := by
    simp only [Parse.printStatement]
    refine keeps_bind (hI.keeps_expectKeyword _) fun _ _ => ?_
    refine keeps_bind (hI.keeps_expectAs _ _ (by decide)) fun _ _ => ?_
    refine keeps_bind (hI.expressions n).expression fun value hvalue => ?_
    refine keeps_bind (hI.keeps_expectAs _ _ (by decide)) fun _ _ => keeps_pure ?_
    exact hI.node rfl (by simp) (by simpa using hvalue)
  ifStatement := by
    have hbranch : ∀ {condition body rest}, Q condition → (∀ e ∈ body, Q e) → Q rest →
        Q (.ifStatement condition (.list body) rest) := fun hcondition hbody hrest =>
      hI.node rfl (by simp) (by simpa using ⟨hcondition, hI.list hbody, hrest⟩)
    simp only [Parse.ifStatement]
    refine keeps_bind (hI.keeps_expectKeyword _) fun _ _ => ?_
    refine keeps_bind (hI.keeps_expectAs _ _ (by decide)) fun _ _ => ?_
    refine keeps_bind (hI.expressions n).expression fun condition hcondition => ?_
    refine keeps_bind (hI.keeps_expectAs _ _ (by decide)) fun _ _ => ?_
    refine keeps_bind h.block fun body hbody => ?_
    refine keeps_bind (keeps_isAtWord _ _) fun other _ => ?_
    split
    · refine keeps_bind hI.keeps_advance fun _ _ => ?_
      refine keeps_bind (keeps_isAtWord _ _) fun again _ => ?_
      split
      · refine keeps_bind h.ifStatement fun inner hinner => keeps_pure ?_
        exact hbranch hcondition hbody (hI.list (by simpa using hinner))
      · refine keeps_bind h.block fun rest hrest => keeps_pure ?_
        exact hbranch hcondition hbody (hI.list hrest)
    · exact keeps_pure (hbranch hcondition hbody (hI.scalar _))
  whileStatement := by
    simp only [Parse.whileStatement]
    refine keeps_bind (hI.keeps_expectKeyword _) fun _ _ => ?_
    refine keeps_bind (hI.keeps_expectAs _ _ (by decide)) fun _ _ => ?_
    refine keeps_bind (hI.expressions n).expression fun condition hcondition => ?_
    refine keeps_bind (hI.keeps_expectAs _ _ (by decide)) fun _ _ => ?_
    refine keeps_bind h.block fun body hbody => ?_
    exact keeps_pure (hI.node rfl (by simp) (by simpa using ⟨hcondition, hI.list hbody⟩))
  block := by
    simp only [Parse.block]
    refine keeps_bind (hI.keeps_expectAs _ _ (by decide)) fun _ _ => ?_
    refine keeps_bind keeps_cursor fun c _ => ?_
    refine keeps_bind (hI.keeps_blockStatements h.statement c.tokens) ?_
    intro statements hstatements
    exact keeps_bind (hI.keeps_expectKind _ (by decide)) fun _ _ => keeps_pure hstatements

end Statements

/-- Every parser of statements keeps an invariant. -/
theorem statements (hI : Invariant K Q W) (n : Nat) : Statements K Q W n := by
  induction n with
  | zero => constructor <;> simp [keeps_tooDeep hI.tooDeep]
  | succ n ih => exact ih.succ hI

theorem program (hI : Invariant K Q W) (n : Nat) : Keeps K (∀ e ∈ ·, Q e) (Parse.program n) W := by
  intro c hc
  exact hI.keeps_programStatements (hI.statements n).statement c.tokens c hc

end Invariant

end Parse

end Sprig
