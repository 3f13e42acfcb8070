import Sprig.Proofs.Grammar.Rendering

/-!
# Beginnings of expressions and statements

Tokens begin an expression or a statement when other tokens can be put behind them so that the whole
spells one. What begins a part of an expression or statement begins the whole behind the tokens in
front of the part, because there is always something that can follow.
-/

namespace Sprig.Grammar

/-- The tokens begin an expression of the form. -/
def Form.Begins (form : Form) (ts : List Token) : Prop := ∃ n us e, Spells n form (ts ++ us) e

/-- The tokens begin a list of at least one item. -/
def BeginsItems (ts : List Token) : Prop :=
  ∃ n us e es, Spells n .items (ts ++ us) (.list (e :: es))

/-- The tokens begin arguments in parentheses. -/
def BeginsArguments (ts : List Token) : Prop :=
  ∃ n us left is right es, ts ++ us = left :: is ++ [right] ∧ left.kind = .leftParen ∧
    Spells n .items is (.list es) ∧ right.kind = .rightParen

section Expressions

variable {n : Nat} {form : Form} {t op left right dot member : Token} {ts us ls rs : List Token}
  {e : Tree} {es : List Tree} {x m : String}

theorem Spells.begins (h : Spells n form ts e) : form.Begins ts := ⟨n, [], e, by simpa using h⟩

/-- Lists of expressions are spelled by items. -/
theorem Spells.exists_list (h : Spells n .items ts e) : ∃ es, e = .list es := by
  cases h with
  | loosen _ hitems => exact absurd rfl hitems
  | join _ hmem => cases hmem
  | noItems => exact ⟨_, rfl⟩
  | lastItem => exact ⟨_, rfl⟩
  | moreItems => exact ⟨_, rfl⟩

/-- An expression is a comparison of one operand at least. -/
theorem Spells.comparison_of_expression (h : Spells n .expression ts e) :
    ∃ m, Spells m .comparison ts e := by
  cases h with
  | loosen _ _ inner => exact ⟨_, inner⟩
  | join _ hmem => cases hmem

namespace Form.Begins

theorem of_append (h : form.Begins (ts ++ us)) : form.Begins ts := by
  obtain ⟨n, vs, e, h⟩ := h
  exact ⟨n, us ++ vs, e, by rwa [← List.append_assoc]⟩

theorem of_primary (hitems : form ≠ .items) (h : Form.primary.Begins ts) : form.Begins ts := by
  obtain ⟨n, us, e, h⟩ := h
  exact ⟨n + 6, us, e, h.of_primary hitems⟩

theorem nil (hitems : form ≠ .items) : form.Begins [] :=
  of_primary hitems ⟨1, [tokenOf .keyword "true"], _, .yes (is_tokenOf _ _)⟩

theorem loosen (hprimary : form ≠ .primary) (hitems : form ≠ .items)
    (h : form.tighter.Begins ts) : form.Begins ts := by
  obtain ⟨n, us, e, h⟩ := h
  exact ⟨n + 1, us, e, .loosen hprimary hitems h⟩

theorem join {kind : Token.Kind} {word : String} (front : Spells n form ls e)
    (hmem : (kind, word) ∈ form.operators) (hop : op.Is kind word)
    (back : form.tighter.Begins rs) : form.Begins (ls ++ op :: rs) := by
  obtain ⟨k, us, right, back⟩ := back
  have hjoin : Spells (max n k + 1) form (ls ++ op :: (rs ++ us)) (form.node word e right) :=
    .join (front.mono (by omega)) hmem hop (back.mono (by omega))
  exact ⟨_, us, _, by simpa using hjoin⟩

theorem negate (hminus : op.Is .operator "-") (operand : Form.negation.Begins ts) :
    Form.negation.Begins (op :: ts) := by
  obtain ⟨n, us, e, operand⟩ := operand
  exact ⟨_, us, _, .negate hminus operand⟩

theorem raise (front : Spells n .primary ls e) (hcaret : op.Is .power "^")
    (back : Form.negation.Begins rs) : Form.power.Begins (ls ++ op :: rs) := by
  obtain ⟨k, us, right, back⟩ := back
  have hpower : Spells (max n k + 1) .power (ls ++ op :: (rs ++ us))
      (.binary (.text "^") e right) :=
    .raise (front.mono (by omega)) hcaret (back.mono (by omega))
  exact ⟨_, us, _, by simpa using hpower⟩

theorem parens (hleft : left.kind = .leftParen) (inner : Form.expression.Begins ts) :
    Form.primary.Begins (left :: ts) := by
  obtain ⟨n, us, e, inner⟩ := inner
  have hparens := Spells.parens hleft inner (show (tokenOf .rightParen ")").kind = _ from rfl)
  exact ⟨_, us ++ [tokenOf .rightParen ")"], _, by simpa using hparens⟩

theorem array (hleft : left.kind = .leftBracket) (inner : Form.items.Begins ts) :
    Form.primary.Begins (left :: ts) := by
  obtain ⟨n, us, e, inner⟩ := inner
  obtain ⟨es, rfl⟩ := inner.exists_list
  have harray := Spells.array hleft inner (show (tokenOf .rightBracket "]").kind = _ from rfl)
  exact ⟨_, us ++ [tokenOf .rightBracket "]"], _, by simpa using harray⟩

theorem element (ht : t.Is .identifier x) (hleft : left.kind = .leftBracket)
    (index : Form.expression.Begins ts) : Form.primary.Begins (t :: left :: ts) := by
  obtain ⟨n, us, e, index⟩ := index
  have helement := Spells.element ht hleft index
    (show (tokenOf .rightBracket "]").kind = _ from rfl)
  exact ⟨_, us ++ [tokenOf .rightBracket "]"], _, by simpa using helement⟩

/-- Behind a name and a dot, the length of the array can be asked for. -/
theorem dotted (ht : t.Is .identifier x) (hdot : dot.kind = .dot) :
    Form.primary.Begins [t, dot] :=
  ⟨2, [tokenOf .keyword "length"], _, .length ht hdot (.inr (is_tokenOf _ _))⟩

theorem method (ht : t.Is .identifier x) (hdot : dot.kind = .dot) (hmember : Member member m)
    (args : BeginsArguments ts) : Form.primary.Begins (t :: dot :: member :: ts) := by
  obtain ⟨n, us, left, is, right, es, hargs, hleft, hitems, hright⟩ := args
  have hmethod := Spells.method ht hdot hmember hleft hitems hright
  exact ⟨_, us, _, by simpa [hargs] using hmethod⟩

theorem call (ht : t.Is .identifier x) (args : BeginsArguments ts) :
    Form.primary.Begins (t :: ts) := by
  obtain ⟨n, us, left, is, right, es, hargs, hleft, hitems, hright⟩ := args
  have hcall := Spells.call ht hleft hitems hright
  exact ⟨_, us, _, by simpa [hargs] using hcall⟩

end Form.Begins

namespace BeginsItems

theorem begins (h : BeginsItems ts) : Form.items.Begins ts := by
  obtain ⟨n, us, e, es, h⟩ := h
  exact ⟨n, us, _, h⟩

theorem of_expression (h : Form.expression.Begins ts) : BeginsItems ts := by
  obtain ⟨n, us, e, h⟩ := h
  exact ⟨n, us, e, [], .lastItem h⟩

theorem more (item : Spells n .expression ts e) (hcomma : op.kind = .comma)
    (rest : BeginsItems us) : BeginsItems (ts ++ op :: us) := by
  obtain ⟨k, vs, f, es, rest⟩ := rest
  have hmore : Spells (max n k) .items (ts ++ op :: (us ++ vs)) (.list (e :: f :: es)) :=
    .moreItems (item.mono (by omega)) hcomma (rest.mono (by omega))
  exact ⟨_, vs, e, f :: es, by simpa using hmore⟩

end BeginsItems

namespace BeginsArguments

theorem nil : BeginsArguments [] :=
  ⟨0, [tokenOf .leftParen "(", tokenOf .rightParen ")"], _, [], _, [], rfl, rfl, .noItems, rfl⟩

theorem of_items (hleft : left.kind = .leftParen) (items : Form.items.Begins ts) :
    BeginsArguments (left :: ts) := by
  obtain ⟨n, us, e, items⟩ := items
  obtain ⟨es, rfl⟩ := items.exists_list
  exact ⟨n, us ++ [tokenOf .rightParen ")"], left, ts ++ us, tokenOf .rightParen ")", es, by simp,
    hleft, items, rfl⟩

end BeginsArguments

end Expressions

/-- The tokens begin a statement, or a sequence of statements with or without braces. -/
def Part.Begins (part : Part) (ts : List Token) : Prop :=
  ∃ n us tree, States MayAdjoin n part (ts ++ us) tree

/-- The tokens begin names between commas. -/
def BeginsNames (ts : List Token) : Prop := ∃ us params, Names (ts ++ us) params

/-- The tokens begin parameters in parentheses. -/
def BeginsParameters (ts : List Token) : Prop := ∃ us params, Parameters (ts ++ us) params

section Statements

variable {n : Nat} {part : Part} {t sign word left right other comma : Token}
  {ts us is cs ps bs es : List Token} {e i cond tree : Tree} {params body : List Tree} {x : String}

theorem Names.begins (h : Names ts params) : BeginsNames ts := ⟨[], params, by simpa using h⟩

theorem BeginsNames.nil : BeginsNames [] :=
  ⟨[tokenOf .identifier "x"], _, .last (is_tokenOf _ _)⟩

theorem BeginsNames.more (ht : t.Is .identifier x) (hcomma : comma.kind = .comma)
    (rest : BeginsNames ts) : BeginsNames (t :: comma :: ts) := by
  obtain ⟨us, params, rest⟩ := rest
  exact ⟨us, _, .more ht hcomma rest⟩

theorem BeginsParameters.nil : BeginsParameters [] :=
  ⟨[tokenOf .leftParen "(", tokenOf .rightParen ")"], _, .none rfl rfl⟩

theorem BeginsParameters.of_names (hleft : left.kind = .leftParen) (names : BeginsNames ts) :
    BeginsParameters (left :: ts) := by
  obtain ⟨us, params, names⟩ := names
  have hparams := Parameters.some hleft names (show (tokenOf .rightParen ")").kind = _ from rfl)
  exact ⟨us ++ [tokenOf .rightParen ")"], _, by simpa using hparams⟩

theorem States.begins (h : States MayAdjoin n part ts tree) : part.Begins ts :=
  ⟨n, [], tree, by simpa using h⟩

/-- A block, like a sequence without braces, is a list of statements. -/
theorem States.exists_list (hpart : part = .block ∨ part = .sequence)
    (h : States MayAdjoin n part ts tree) : ∃ trees, tree = .list trees := by
  rcases hpart with rfl | rfl <;> cases h <;> exact ⟨_, rfl⟩

namespace Part.Begins

theorem of_append (h : part.Begins (ts ++ us)) : part.Begins ts := by
  obtain ⟨n, vs, tree, h⟩ := h
  exact ⟨n, us ++ vs, tree, by rwa [← List.append_assoc]⟩

theorem nil (h : part.Begins ts) : part.Begins [] :=
  of_append (show part.Begins ([] ++ ts) from h)

theorem head (h : part.Begins (t :: ts)) : part.Begins [t] :=
  of_append (show part.Begins ([t] ++ ts) from h)

/-- A comparison with something is no call of a method, so it may be a statement of its own. -/
theorem expression (h : Form.expression.Begins ts) : Part.statement.Begins ts := by
  obtain ⟨n, us, e, h⟩ := h
  obtain ⟨m, h⟩ := h.comparison_of_expression
  have hyes : Spells 7 .sum [tokenOf .keyword "true"] _ :=
    (Spells.yes (n := 0) (is_tokenOf _ _)).of_primary (by simp)
  have hjoin : Spells (max m 7 + 1) .comparison
      (ts ++ us ++ tokenOf .comparison "==" :: [tokenOf .keyword "true"]) _ :=
    .join (h.mono (by omega)) (show (Token.Kind.comparison, "==") ∈ _ by simp [Form.operators])
      (is_tokenOf _ _) (hyes.mono (by omega))
  have hexpression : Spells _ .expression _ _ := .loosen (by simp) (by simp) hjoin
  have hstated : States MayAdjoin _ .statement _ _ := .expression hexpression (by
    rintro ⟨⟨array, method, args, h⟩, -⟩
    cases h)
  exact ⟨_, us ++ tokenOf .comparison "==" :: [tokenOf .keyword "true"], _, by
    rwa [← List.append_assoc]⟩

theorem assignment (ht : t.Is .identifier x) (hsign : sign.kind = .assign)
    (value : Form.expression.Begins ts) : Part.statement.Begins (t :: sign :: ts) := by
  obtain ⟨n, us, e, value⟩ := value
  exact ⟨_, us, _, .assignment ht hsign value⟩

theorem elementAssignment (ht : t.Is .identifier x) (hleft : left.kind = .leftBracket)
    (index : Spells n .expression is i) (hright : right.kind = .rightBracket)
    (hsign : sign.kind = .assign) (value : Form.expression.Begins ts) :
    Part.statement.Begins (t :: left :: is ++ right :: sign :: ts) := by
  obtain ⟨k, us, e, value⟩ := value
  have hassigned : States MayAdjoin (max n k + 2) .statement
      (t :: left :: is ++ right :: sign :: (ts ++ us)) _ :=
    .elementAssignment ht hleft (index.mono (by omega)) hright hsign (value.mono (by omega))
  exact ⟨_, us, _, by simpa using hassigned⟩

theorem valueReturn (hword : word.kind = .giveBack) (value : Form.expression.Begins ts) :
    Part.statement.Begins (word :: ts) := by
  obtain ⟨n, us, e, value⟩ := value
  exact ⟨_, us, _, .valueReturn hword value⟩

theorem print (hword : word.Is .keyword "print") (hleft : left.kind = .leftParen)
    (value : Form.expression.Begins ts) : Part.statement.Begins (word :: left :: ts) := by
  obtain ⟨n, us, e, value⟩ := value
  have hprint : States MayAdjoin _ .statement _ _ := .print hword hleft value
    (show (tokenOf .rightParen ")").kind = _ from rfl)
  exact ⟨_, us ++ [tokenOf .rightParen ")"], _, by simpa using hprint⟩

section Sequences

theorem empty : Part.sequence.Begins [] := ⟨0, [], _, .empty⟩

theorem semicolon (ht : t.kind = .semicolon) (h : Part.sequence.Begins ts) :
    Part.sequence.Begins (t :: ts) := by
  obtain ⟨n, us, tree, h⟩ := h
  obtain ⟨trees, rfl⟩ := h.exists_list (.inr rfl)
  exact ⟨n, us, _, .semicolon ht h⟩

theorem sequence (h : Part.statement.Begins ts) : Part.sequence.Begins ts := by
  obtain ⟨n, us, tree, h⟩ := h
  have hsequence : States MayAdjoin n .sequence (ts ++ us ++ []) _ := .more h (by simp) .empty
  exact ⟨n, us, _, by simpa using hsequence⟩

/-- A sequence goes on behind a statement, unless the token there carries the statement on. -/
theorem more (first : States MayAdjoin n .statement ts tree)
    (hnext : ∀ t ∈ us.head?, MayAdjoin tree ts t) (h : Part.sequence.Begins us) :
    Part.sequence.Begins (ts ++ us) := by
  cases us with
  | nil => simpa using first.begins.sequence
  | cons u us =>
      obtain ⟨k, vs, trees, h⟩ := h
      obtain ⟨trees, rfl⟩ := h.exists_list (.inr rfl)
      have hmore : States MayAdjoin (max n k) .sequence (ts ++ (u :: us ++ vs)) _ :=
        .more (first.mono (by omega)) (fun t ht => .inr (hnext t ht)) (h.mono (by omega))
      exact ⟨_, vs, _, by simpa using hmore⟩

theorem block (hleft : left.kind = .leftBrace) (h : Part.sequence.Begins ts) :
    Part.block.Begins (left :: ts) := by
  obtain ⟨n, us, tree, h⟩ := h
  obtain ⟨trees, rfl⟩ := h.exists_list (.inr rfl)
  have hblock := States.block hleft h (show (tokenOf .rightBrace "\x7d").kind = _ from rfl)
  exact ⟨_, us ++ [tokenOf .rightBrace "\x7d"], _, by simpa using hblock⟩

theorem block_nil : Part.block.Begins [] := by
  have hopened : Part.block.Begins [tokenOf .leftBrace "\x7b"] := block rfl empty
  exact hopened.nil

end Sequences

section Blocks

theorem declaration (ht : t.Is .identifier x) (hparams : Parameters ps params)
    (h : Part.block.Begins bs) : Part.statement.Begins (t :: ps ++ bs) := by
  obtain ⟨n, us, tree, h⟩ := h
  obtain ⟨body, rfl⟩ := h.exists_list (.inl rfl)
  exact ⟨_, us, _, by simpa using States.declaration ht hparams h⟩

theorem keywordDeclaration (hword : word.Is .keyword "function") (ht : t.Is .identifier x)
    (hparams : Parameters ps params) (h : Part.block.Begins bs) :
    Part.statement.Begins (word :: t :: ps ++ bs) := by
  obtain ⟨n, us, tree, h⟩ := h
  obtain ⟨body, rfl⟩ := h.exists_list (.inl rfl)
  exact ⟨_, us, _, by simpa using States.keywordDeclaration hword ht hparams h⟩

theorem keywordDeclaration_parameters (hword : word.Is .keyword "function")
    (ht : t.Is .identifier x) (h : BeginsParameters ps) :
    Part.statement.Begins (word :: t :: ps) := by
  obtain ⟨us, params, h⟩ := h
  have hdeclared := keywordDeclaration hword ht h block_nil
  rw [List.append_nil, ← List.cons_append, ← List.cons_append] at hdeclared
  exact hdeclared.of_append

theorem «while» (hword : word.Is .keyword "while") (hleft : left.kind = .leftParen)
    (condition : Spells n .expression cs cond) (hright : right.kind = .rightParen)
    (h : Part.block.Begins bs) : Part.statement.Begins (word :: left :: cs ++ right :: bs) := by
  obtain ⟨k, us, tree, h⟩ := h
  obtain ⟨body, rfl⟩ := h.exists_list (.inl rfl)
  have hwhile : States MayAdjoin (max n k + 2) .statement
      (word :: left :: cs ++ right :: (bs ++ us)) _ :=
    .while hword hleft (condition.mono (by omega)) hright (h.mono (by omega))
  exact ⟨_, us, _, by simpa using hwhile⟩

theorem while_condition (hword : word.Is .keyword "while") (hleft : left.kind = .leftParen)
    (h : Form.expression.Begins cs) : Part.statement.Begins (word :: left :: cs) := by
  obtain ⟨n, us, e, h⟩ := h
  have hwhile := «while» hword hleft h (show (tokenOf .rightParen ")").kind = _ from rfl) block_nil
  rw [← List.cons_append, ← List.cons_append, List.append_assoc] at hwhile
  exact hwhile.of_append

theorem ifOnly (hword : word.Is .keyword "if") (hleft : left.kind = .leftParen)
    (condition : Spells n .expression cs cond) (hright : right.kind = .rightParen)
    (h : Part.block.Begins bs) : Part.conditional.Begins (word :: left :: cs ++ right :: bs) := by
  obtain ⟨k, us, tree, h⟩ := h
  obtain ⟨body, rfl⟩ := h.exists_list (.inl rfl)
  have hif : States MayAdjoin (max n k + 1) .conditional
      (word :: left :: cs ++ right :: (bs ++ us)) _ :=
    .ifOnly hword hleft (condition.mono (by omega)) hright (h.mono (by omega))
  exact ⟨_, us, _, by simpa using hif⟩

theorem if_condition (hword : word.Is .keyword "if") (hleft : left.kind = .leftParen)
    (h : Form.expression.Begins cs) : Part.conditional.Begins (word :: left :: cs) := by
  obtain ⟨n, us, e, h⟩ := h
  have hif := ifOnly hword hleft h (show (tokenOf .rightParen ")").kind = _ from rfl) block_nil
  rw [← List.cons_append, ← List.cons_append, List.append_assoc] at hif
  exact hif.of_append

theorem ifElse {k : Nat} (hword : word.Is .keyword "if") (hleft : left.kind = .leftParen)
    (condition : Spells n .expression cs cond) (hright : right.kind = .rightParen)
    (hblock : States MayAdjoin k .block bs (.list body)) (hother : other.Is .keyword "else")
    (h : Part.block.Begins es) :
    Part.conditional.Begins (word :: left :: cs ++ right :: bs ++ other :: es) := by
  obtain ⟨l, us, tree, h⟩ := h
  obtain ⟨rest, rfl⟩ := h.exists_list (.inl rfl)
  have hif : States MayAdjoin (max (max n k) l + 1) .conditional
      (word :: left :: cs ++ right :: bs ++ other :: (es ++ us)) _ :=
    .ifElse hword hleft (condition.mono (by omega)) hright (hblock.mono (by omega)) hother
      (h.mono (by omega))
  exact ⟨_, us, _, by simpa using hif⟩

theorem elseIf {k : Nat} (hword : word.Is .keyword "if") (hleft : left.kind = .leftParen)
    (condition : Spells n .expression cs cond) (hright : right.kind = .rightParen)
    (hblock : States MayAdjoin k .block bs (.list body)) (hother : other.Is .keyword "else")
    (h : Part.conditional.Begins es) :
    Part.conditional.Begins (word :: left :: cs ++ right :: bs ++ other :: es) := by
  obtain ⟨l, us, tree, h⟩ := h
  have hif : States MayAdjoin (max (max n k) l + 1) .conditional
      (word :: left :: cs ++ right :: bs ++ other :: (es ++ us)) _ :=
    .elseIf hword hleft (condition.mono (by omega)) hright (hblock.mono (by omega)) hother
      (h.mono (by omega))
  exact ⟨_, us, _, by simpa using hif⟩

theorem conditional (h : Part.conditional.Begins ts) : Part.statement.Begins ts := by
  obtain ⟨n, us, tree, h⟩ := h
  exact ⟨_, us, _, .conditional h⟩

end Blocks

end Part.Begins

end Statements

end Sprig.Grammar
