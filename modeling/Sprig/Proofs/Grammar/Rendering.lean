import Sprig.Proofs.Grammar.Shape

/-!
# Renderings of programs

Every list of trees with the shape of statements has a rendering, and no list of tokens renders two
programs. The rendering that is built here puts parentheses around every operand and a semicolon
behind every statement.
-/

namespace Sprig.Grammar

open Sprig.Tree

/-- A token that says a word at the start of a text. -/
def tokenOf (kind : Token.Kind) (word : String) : Token := ⟨kind, .text word, .start⟩

theorem is_tokenOf (kind : Token.Kind) (word : String) : (tokenOf kind word).Is kind word :=
  ⟨rfl, rfl⟩

/-- A primary expression is an expression of every form. -/
theorem Spells.of_primary {n : Nat} {form : Form} {ts : List Token} {e : Tree}
    (hitems : form ≠ .items) (h : Spells n .primary ts e) : Spells (n + 6) form ts e := by
  have hpower : Spells (n + 1) .power ts e := .loosen (by simp) (by simp) h
  have hnegation : Spells (n + 2) .negation ts e := .loosen (by simp) (by simp) hpower
  have hproduct : Spells (n + 3) .product ts e := .loosen (by simp) (by simp) hnegation
  have hsum : Spells (n + 4) .sum ts e := .loosen (by simp) (by simp) hproduct
  have hcomparison : Spells (n + 5) .comparison ts e := .loosen (by simp) (by simp) hsum
  cases form with
  | expression => exact .loosen (by simp) (by simp) hcomparison
  | comparison => exact hcomparison.mono (by omega)
  | sum => exact hsum.mono (by omega)
  | product => exact hproduct.mono (by omega)
  | negation => exact hnegation.mono (by omega)
  | power => exact hpower.mono (by omega)
  | primary => exact h.mono (by omega)
  | items => exact absurd rfl hitems

/-- Some tokens spell the tree as a primary expression. -/
def IsSpelled (e : Tree) : Prop := ∃ n ts, Spells n .primary ts e

/-- Parentheses make a primary expression of an expression. -/
theorem IsSpelled.of_expression {n : Nat} {ts : List Token} {e : Tree}
    (h : Spells n .expression ts e) : IsSpelled e :=
  ⟨n + 1, tokenOf .leftParen "(" :: ts ++ [tokenOf .rightParen ")"], .parens rfl h rfl⟩

theorem IsSpelled.expression {e : Tree} (h : IsSpelled e) :
    ∃ n ts, Spells n .expression ts e ∧ ¬ BareMethod ts e := by
  obtain ⟨n, ts, h⟩ := h
  have hexpression : Spells (n + 6) .expression ts e := h.of_primary (by simp)
  refine ⟨n + 13, tokenOf .leftParen "(" :: ts ++ [tokenOf .rightParen ")"], ?_, ?_⟩
  · exact (Spells.parens rfl hexpression rfl).of_primary (by simp)
  · rintro ⟨-, hhead⟩
    exact hhead (tokenOf .leftParen "(") rfl rfl

/-- An operator that groups to the left, between two operands in parentheses. -/
theorem isSpelled_node {form : Form} {kind : Token.Kind} {word : String} {left right : Tree}
    (hmem : (kind, word) ∈ form.operators) (hleft : IsSpelled left) (hright : IsSpelled right) :
    IsSpelled (form.node word left right) := by
  obtain ⟨n, ls, hleft⟩ := hleft
  obtain ⟨m, rs, hright⟩ := hright
  have hitems := Form.ne_items_of_operators (List.ne_nil_of_mem hmem)
  have htighter := Form.tighter_ne_items hitems
  have hjoin : Spells (max n m + 6 + 1) form (ls ++ tokenOf kind word :: rs)
      (form.node word left right) :=
    .join ((hleft.of_primary hitems).mono (by omega)) hmem (is_tokenOf kind word)
      ((hright.of_primary htighter).mono (by omega))
  cases form with
  | comparison => exact .of_expression (.loosen (by simp) (by simp) hjoin)
  | sum =>
      have hcomparison : Spells _ .comparison _ _ := .loosen (by simp) (by simp) hjoin
      exact .of_expression (.loosen (by simp) (by simp) hcomparison)
  | product =>
      have hsum : Spells _ .sum _ _ := .loosen (by simp) (by simp) hjoin
      have hcomparison : Spells _ .comparison _ _ := .loosen (by simp) (by simp) hsum
      exact .of_expression (.loosen (by simp) (by simp) hcomparison)
  | _ => cases hmem

theorem isSpelled_unary {e : Tree} (h : IsSpelled e) : IsSpelled (.unary (.text "-") e) := by
  obtain ⟨n, ts, h⟩ := h
  have hoperand : Spells (n + 6) .negation ts e := h.of_primary (by simp)
  exact .of_expression (Spells.negate (is_tokenOf .operator "-") hoperand).expression_of_negation

theorem isSpelled_power {base exponent : Tree} (hbase : IsSpelled base)
    (hexponent : IsSpelled exponent) : IsSpelled (.binary (.text "^") base exponent) := by
  obtain ⟨n, ls, hbase⟩ := hbase
  obtain ⟨m, rs, hexponent⟩ := hexponent
  have hpower : Spells (max n m + 6 + 1) .power (ls ++ tokenOf .power "^" :: rs)
      (.binary (.text "^") base exponent) :=
    .raise (hbase.mono (by omega)) (is_tokenOf .power "^")
      ((hexponent.of_primary (by simp)).mono (by omega))
  have hnegation : Spells _ .negation _ _ := .loosen (by simp) (by simp) hpower
  exact .of_expression hnegation.expression_of_negation

/-- Expressions between commas. -/
theorem exists_items {es : List Tree} (h : ∀ e ∈ es, IsSpelled e) :
    ∃ n ts, Spells n .items ts (.list es) := by
  induction es with
  | nil => exact ⟨0, [], .noItems⟩
  | cons e es ih =>
      obtain ⟨n, ts, hfirst, -⟩ := (h e (by simp)).expression
      obtain ⟨m, us, hrest⟩ := ih fun inner hinner => h inner (by simp [hinner])
      cases es with
      | nil => exact ⟨n, ts, .lastItem hfirst⟩
      | cons f es =>
          exact ⟨max n m, ts ++ tokenOf .comma "," :: us, .moreItems (hfirst.mono (by omega)) rfl
            (hrest.mono (by omega))⟩

theorem arithmetic_cases {op : String} (h : op ∈ arithmeticWords) :
    op = "^" ∨ (.operator, op) ∈ Form.sum.operators ∨ (.operator, op) ∈ Form.product.operators := by
  simp only [arithmeticWords, List.mem_cons, List.not_mem_nil, or_false] at h
  rcases h with rfl | rfl | rfl | rfl | rfl <;> simp [Form.operators]

theorem comparison_cases {op : String} (h : op ∈ comparisonWords) :
    ∃ kind, (kind, op) ∈ Form.comparison.operators := by
  simp only [comparisonWords, List.mem_cons, List.not_mem_nil, or_false] at h
  rcases h with rfl | rfl | rfl | rfl | rfl | rfl <;> simp [Form.operators]

/-- Every tree with the shape of an expression is spelled. -/
theorem isSpelled_of_isExpression {e : Tree} (h : e.IsExpression) : IsSpelled e := by
  induction h with
  | number x => exact ⟨1, [⟨.number, .number x, .start⟩], .number rfl rfl⟩
  | string s => exact ⟨1, [tokenOf .string s], .string (is_tokenOf _ s)⟩
  | boolean b =>
      cases b with
      | true => exact ⟨1, [tokenOf .keyword "true"], .yes (is_tokenOf _ _)⟩
      | false => exact ⟨1, [tokenOf .keyword "false"], .no (is_tokenOf _ _)⟩
  | name x => exact ⟨2, [tokenOf .identifier x], .name (is_tokenOf _ x)⟩
  | unary _ ih => exact isSpelled_unary ih
  | binary hop _ _ ihleft ihright =>
      rcases arithmetic_cases hop with rfl | hsum | hproduct
      · exact isSpelled_power ihleft ihright
      · exact isSpelled_node hsum ihleft ihright
      · exact isSpelled_node hproduct ihleft ihright
  | comparison hop _ _ ihleft ihright =>
      obtain ⟨kind, hmem⟩ := comparison_cases hop
      exact isSpelled_node hmem ihleft ihright
  | arrayLiteral _ ih =>
      obtain ⟨n, ts, hitems⟩ := exists_items ih
      exact ⟨n + 2, tokenOf .leftBracket "[" :: ts ++ [tokenOf .rightBracket "]"],
        .array rfl hitems rfl⟩
  | @elementAccess x _ _ ih =>
      obtain ⟨n, ts, hindex, -⟩ := ih.expression
      exact ⟨n + 2, tokenOf .identifier x :: tokenOf .leftBracket "[" :: ts ++
        [tokenOf .rightBracket "]"], .element (is_tokenOf _ x) rfl hindex rfl⟩
  | @methodExpression x m _ _ ih =>
      obtain ⟨n, ts, hargs⟩ := exists_items ih
      exact ⟨n + 3, tokenOf .identifier x :: tokenOf .dot "." :: tokenOf .identifier m ::
        tokenOf .leftParen "(" :: ts ++ [tokenOf .rightParen ")"],
        .method (is_tokenOf _ x) rfl (.inl (is_tokenOf _ m)) rfl hargs rfl⟩
  | length x =>
      exact ⟨2, [tokenOf .identifier x, tokenOf .dot ".", tokenOf .keyword "length"],
        .length (is_tokenOf _ x) rfl (.inr (is_tokenOf _ _))⟩
  | @call f _ _ ih =>
      obtain ⟨n, ts, hargs⟩ := exists_items ih
      exact ⟨n + 3, tokenOf .identifier f :: tokenOf .leftParen "(" :: ts ++
        [tokenOf .rightParen ")"], .call (is_tokenOf _ f) rfl hargs rfl⟩

namespace States

variable {adjoin : Tree → List Token → Token → Prop} {n : Nat} {part : Part} {ts : List Token}
  {tree : Tree}

/-- A derivation within a bound is one within the next larger bound. -/
theorem succ (h : States adjoin n part ts tree) : States adjoin (n + 1) part ts tree := by
  induction h with
  | assignment ht hsign value => exact assignment ht hsign value.succ
  | elementAssignment ht hleft index hright hsign value =>
      exact elementAssignment ht hleft index.succ hright hsign value.succ
  | methodCall ht hdot hmember hleft args hright =>
      exact methodCall ht hdot hmember hleft args.succ hright
  | declaration ht hparams _ ih => exact declaration ht hparams ih
  | keywordDeclaration hword ht hparams _ ih => exact keywordDeclaration hword ht hparams ih
  | emptyReturn hword => exact emptyReturn hword
  | valueReturn hword value => exact valueReturn hword value.succ
  | print hword hleft value hright => exact print hword hleft value.succ hright
  | «while» hword hleft condition hright _ ih =>
      exact «while» hword hleft condition.succ hright ih
  | conditional _ ih => exact conditional ih
  | expression inner hbare => exact expression inner.succ hbare
  | ifOnly hword hleft condition hright _ ih => exact ifOnly hword hleft condition.succ hright ih
  | ifElse hword hleft condition hright _ hother _ ih ihother =>
      exact ifElse hword hleft condition.succ hright ih hother ihother
  | elseIf hword hleft condition hright _ hother _ ih ihother =>
      exact elseIf hword hleft condition.succ hright ih hother ihother
  | empty => exact empty
  | semicolon ht _ ih => exact semicolon ht ih
  | more _ hnext _ ihfirst ihrest => exact more ihfirst hnext ihrest
  | block hleft _ hright ih => exact block hleft ih hright

/-- A derivation within a bound is one within every larger bound. -/
theorem mono {m : Nat} (h : States adjoin n part ts tree) (hle : n ≤ m) :
    States adjoin m part ts tree := by
  induction hle with
  | refl => exact h
  | step _ ih => exact ih.succ

end States

/-- Some tokens spell the tree as a statement, in which semicolons separate the statements of every
block. -/
def IsStated (tree : Tree) : Prop :=
  ∃ n ts, States (fun _ _ _ => False) n .statement ts tree

/-- A semicolon behind every statement separates it from the next. -/
theorem exists_rendering_of_isStated {trees : List Tree} (h : ∀ tree ∈ trees, IsStated tree) :
    ∃ n ts, Rendering n ts trees := by
  induction trees with
  | nil => exact ⟨0, [], .empty⟩
  | cons tree trees ih =>
      obtain ⟨n, ts, hfirst⟩ := h tree (by simp)
      obtain ⟨m, us, hrest⟩ := ih fun other hother => h other (by simp [hother])
      refine ⟨max n m, ts ++ tokenOf .semicolon ";" :: us, .more (hfirst.mono (by omega)) ?_ ?_⟩
      · rintro t ⟨⟩
        exact .inl rfl
      · exact .semicolon rfl (States.mono hrest (by omega))

theorem exists_block {trees : List Tree} (h : ∀ tree ∈ trees, IsStated tree) :
    ∃ n ts, States (fun _ _ _ => False) n .block ts (.list trees) := by
  obtain ⟨n, ts, hinner⟩ := exists_rendering_of_isStated h
  exact ⟨n + 1, tokenOf .leftBrace "\x7b" :: ts ++ [tokenOf .rightBrace "\x7d"],
    .block rfl hinner rfl⟩

theorem exists_names (word : String) (words : List String) :
    ∃ ts, Names ts ((word :: words).map .text) := by
  induction words generalizing word with
  | nil => exact ⟨[tokenOf .identifier word], .last (is_tokenOf _ word)⟩
  | cons next words ih =>
      obtain ⟨ts, hrest⟩ := ih next
      exact ⟨tokenOf .identifier word :: tokenOf .comma "," :: ts,
        .more (is_tokenOf _ word) rfl hrest⟩

theorem exists_parameters (words : List String) : ∃ ts, Parameters ts (words.map .text) := by
  cases words with
  | nil => exact ⟨[tokenOf .leftParen "(", tokenOf .rightParen ")"], .none rfl rfl⟩
  | cons word words =>
      obtain ⟨ts, hnames⟩ := exists_names word words
      exact ⟨tokenOf .leftParen "(" :: ts ++ [tokenOf .rightParen ")"], .some rfl hnames rfl⟩

/-- Every tree with the shape of a statement is spelled. -/
theorem isStated_of_isStatement {tree : Tree} (h : tree.IsStatement) : IsStated tree := by
  induction h with
  | @assignment x _ hvalue =>
      obtain ⟨n, ts, hvalue, -⟩ := (isSpelled_of_isExpression hvalue).expression
      exact ⟨n + 2, tokenOf .identifier x :: tokenOf .assign "=" :: ts,
        .assignment (is_tokenOf _ x) rfl hvalue⟩
  | print hvalue =>
      obtain ⟨n, ts, hvalue, -⟩ := (isSpelled_of_isExpression hvalue).expression
      exact ⟨n + 2, tokenOf .keyword "print" :: tokenOf .leftParen "(" :: ts ++
        [tokenOf .rightParen ")"], .print (is_tokenOf _ _) rfl hvalue rfl⟩
  | expression hinner =>
      obtain ⟨n, ts, hinner, hbare⟩ := (isSpelled_of_isExpression hinner).expression
      exact ⟨n + 1, ts, .expression hinner hbare⟩
  | ifOnly hcondition _ ih =>
      obtain ⟨n, cs, hcondition, -⟩ := (isSpelled_of_isExpression hcondition).expression
      obtain ⟨m, bs, hblock⟩ := exists_block ih
      exact ⟨max n m + 2, tokenOf .keyword "if" :: tokenOf .leftParen "(" :: cs ++
        tokenOf .rightParen ")" :: bs,
        .conditional (.ifOnly (is_tokenOf _ _) rfl (hcondition.mono (by omega)) rfl
          (hblock.mono (by omega)))⟩
  | ifElse hcondition _ _ ih ihrest =>
      obtain ⟨n, cs, hcondition, -⟩ := (isSpelled_of_isExpression hcondition).expression
      obtain ⟨m, bs, hblock⟩ := exists_block ih
      obtain ⟨k, es, hotherwise⟩ := exists_block ihrest
      exact ⟨max n (max m k) + 2, tokenOf .keyword "if" :: tokenOf .leftParen "(" :: cs ++
        tokenOf .rightParen ")" :: bs ++ tokenOf .keyword "else" :: es,
        .conditional (.ifElse (is_tokenOf _ _) rfl (hcondition.mono (by omega)) rfl
          (hblock.mono (by omega)) (is_tokenOf _ _) (hotherwise.mono (by omega)))⟩
  | «while» hcondition _ ih =>
      obtain ⟨n, cs, hcondition, -⟩ := (isSpelled_of_isExpression hcondition).expression
      obtain ⟨m, bs, hblock⟩ := exists_block ih
      exact ⟨max n m + 2, tokenOf .keyword "while" :: tokenOf .leftParen "(" :: cs ++
        tokenOf .rightParen ")" :: bs,
        .while (is_tokenOf _ _) rfl (hcondition.mono (by omega)) rfl (hblock.mono (by omega))⟩
  | @elementAssignment x _ _ hindex hvalue =>
      obtain ⟨n, is, hindex, -⟩ := (isSpelled_of_isExpression hindex).expression
      obtain ⟨m, ts, hvalue, -⟩ := (isSpelled_of_isExpression hvalue).expression
      exact ⟨max n m + 2, tokenOf .identifier x :: tokenOf .leftBracket "[" :: is ++
        tokenOf .rightBracket "]" :: tokenOf .assign "=" :: ts,
        .elementAssignment (is_tokenOf _ x) rfl (hindex.mono (by omega)) rfl rfl
          (hvalue.mono (by omega))⟩
  | @methodCall x m _ hargs =>
      obtain ⟨n, ts, hargs⟩ := exists_items fun e he => isSpelled_of_isExpression (hargs e he)
      exact ⟨n + 3, tokenOf .identifier x :: tokenOf .dot "." :: tokenOf .identifier m ::
        tokenOf .leftParen "(" :: ts ++ [tokenOf .rightParen ")"],
        .methodCall (is_tokenOf _ x) rfl (.inl (is_tokenOf _ m)) rfl hargs rfl⟩
  | @declaration f _ params _ ih =>
      obtain ⟨ps, hparams⟩ := exists_parameters params
      obtain ⟨n, bs, hblock⟩ := exists_block ih
      exact ⟨n + 2, tokenOf .identifier f :: ps ++ bs,
        .declaration (is_tokenOf _ f) hparams hblock⟩
  | emptyReturn => exact ⟨2, [tokenOf .giveBack "return"], .emptyReturn rfl⟩
  | valueReturn hvalue =>
      obtain ⟨n, ts, hvalue, -⟩ := (isSpelled_of_isExpression hvalue).expression
      exact ⟨n + 2, tokenOf .giveBack "return" :: ts, .valueReturn rfl hvalue⟩

/-- Exactly the lists of trees with the shape of statements have a rendering. -/
theorem exists_rendering_iff {trees : List Tree} :
    (∃ n ts, Rendering n ts trees) ↔ IsProgram trees := by
  constructor
  · rintro ⟨n, ts, hrendering⟩
    obtain ⟨found, heq, hfound⟩ := States.shapes hrendering
    obtain rfl := Tree.list.inj heq
    exact hfound
  · intro h
    exact exists_rendering_of_isStated fun tree htree => isStated_of_isStatement (h tree htree)

/-- Tokens render one program at most. -/
theorem Rendering.unique {n m : Nat} {ts : List Token} {trees other : List Tree}
    (h : Rendering n ts trees) (hother : Rendering m ts other) : trees = other := by
  have hclosing : (tokenOf .finish "").kind = .finish := rfl
  have hfirst := program_of_rendering (States.mono h (Nat.le_max_left n m)) hclosing
  have hsecond := program_of_rendering (States.mono hother (Nat.le_max_right n m)) hclosing
  rw [hfirst] at hsecond
  exact (Step.done.inj hsecond).1

end Sprig.Grammar
