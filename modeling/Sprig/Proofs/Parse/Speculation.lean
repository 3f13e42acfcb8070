import Sprig.Proofs.Grammar.Operator
import Sprig.Proofs.Grammar.StatementSound
import Sprig.Proofs.Parse.Session
import Sprig.Proofs.Parse.Unbounded

/-!
# Statements that start with a name

A statement that starts with a name is read a second time as an expression when the first reading
has found no other statement. That the parser has looked ahead shows nowhere: an assignment or a
declaration is read exactly where its tokens up to the sign or the brace are there, a call of a
method exactly where an expression would be one, and in every other case the statement is the
expression, with the same tree, or the same refusal at the same token.

## Implementation notes

Both readings are compared without the nesting limit, with as many frames as are enough for the
tokens ahead. With fewer frames a parser gives up or reads the same.
-/

namespace Sprig.Parse

variable {α β : Type}

section Continuation

variable {operand : Parse Tree} {joins : Token → Bool} {join : Tree → Tree → Tree → Tree}
  {c rest : Cursor} {base first tree : Tree}

/-- The further operands of a form, behind the first one. -/
def joinMore (operand : Parse Tree) (joins : Token → Bool) (join : Tree → Tree → Tree → Tree)
    (first : Tree) : Parse Tree := do
  let c ← cursor
  joinFrom operand joins join c.tokens first

theorem leftGrouped_eq (operand : Parse Tree) (joins : Token → Bool)
    (join : Tree → Tree → Tree → Tree) :
    leftGrouped operand joins join = operand >>= joinMore operand joins join := rfl

theorem joinMore_of_not_joins (h : joins c.current = false) :
    joinMore operand joins join first c = .done first c := by
  rw [joinMore, bind_of_done (cursor_apply c), joinFrom_of_not_joins h]

/-- What a loop over operands ends with is its first operand or a node that joins two of them. -/
theorem joinFrom_eq_done {budget : List Token}
    (h : joinFrom operand joins join budget first c = .done tree rest) :
    (tree = first ∧ rest = c ∧ (budget ≠ [] → joins c.current = false)) ∨
      ∃ operator left right, tree = join operator left right := by
  induction budget generalizing first c with
  | nil =>
      obtain ⟨rfl, rfl⟩ := Step.done.inj h
      exact .inl ⟨rfl, rfl, absurd rfl⟩
  | cons t budget ih =>
      rw [joinFrom, bind_of_done (current_apply c)] at h
      split at h
      · rw [bind_of_done (advance_apply c)] at h
        obtain ⟨right, mid, hright, h⟩ := bind_eq_done.mp h
        rcases ih h with ⟨rfl, -⟩ | hjoined
        · exact .inr ⟨_, _, _, rfl⟩
        · exact .inr hjoined
      · next hjoins =>
        obtain ⟨rfl, rfl⟩ := Step.done.inj h
        exact .inl ⟨rfl, rfl, fun _ => Bool.eq_false_iff.mpr hjoins⟩

theorem joinMore_eq_done (h : joinMore operand joins join first c = .done tree rest)
    (hjoin : ∀ operator left right, tree ≠ join operator left right) :
    tree = first ∧ rest = c ∧ joins c.current = false := by
  rw [joinMore, bind_of_done (cursor_apply c)] at h
  rcases joinFrom_eq_done h with ⟨htree, hrest, hjoins⟩ | ⟨operator, left, right, htree⟩
  · exact ⟨htree, hrest, hjoins (by simp [Cursor.tokens])⟩
  · exact absurd htree (hjoin operator left right)

/-- The exponent behind a base, if there is one. -/
def raiseMore (frames : Nat) (base : Tree) : Parse Tree := do
  if ← isAt .power then
    let _ ← advance
    let right ← unary frames
    return .binary (.text "^") base right
  else
    return base

theorem exponent_eq (n : Nat) : exponent (n + 1) = primary n >>= raiseMore n := by
  simp only [exponent]
  rfl

/-- How an expression goes on behind the name it starts with and what belongs to the name. -/
def continued (n : Nat) (base : Tree) : Parse Tree := do
  let power ← raiseMore (n + 2) base
  let product ← joinMore (unary (n + 4)) multipliesValues .binary power
  let sum ← joinMore (multiplicative (n + 5)) addsValues .binary product
  joinMore (additive (n + 6)) comparesValues .comparison sum

/-- An expression that starts with a name is what belongs to the name and then goes on. -/
theorem expression_of_name (hname : c.current.kind = .identifier) (n : Nat) :
    expression (n + 8) c = (behindName n c.current >>= continued n) c.advance := by
  have hprimary : primary (n + 2) c = behindName n c.current c.advance := by
    rw [primary_identifier hname, identifierExpression_behind hname]
  have hunary : unary (n + 4) c = (behindName n c.current >>= raiseMore (n + 2)) c.advance := by
    rw [unary_of_not_operator (show c.current.kind ≠ .operator by simp [hname]), exponent_eq]
    exact bind_apply_congr hprimary _
  have hmultiplicative : multiplicative (n + 5) = unary (n + 4) >>=
      joinMore (unary (n + 4)) multipliesValues .binary := by
    simp only [multiplicative, leftGrouped_eq]
  have hadditive : additive (n + 6) = multiplicative (n + 5) >>=
      joinMore (multiplicative (n + 5)) addsValues .binary := by
    simp only [additive, leftGrouped_eq]
  have hexpression : expression (n + 8) = additive (n + 6) >>=
      joinMore (additive (n + 6)) comparesValues .comparison := by
    simp only [expression, comparison, leftGrouped_eq]
  have hproduct := bind_apply_congr hunary (joinMore (unary (n + 4)) multipliesValues .binary)
  rw [← hmultiplicative] at hproduct
  have hsum := bind_apply_congr hproduct (joinMore (multiplicative (n + 5)) addsValues .binary)
  rw [← hadditive] at hsum
  rw [hexpression, bind_apply_congr hsum]
  simp only [bind_assoc]
  rfl

/-- In front of a token that carries no expression on, nothing more is read. -/
theorem continued_of_ends (h : continuesExpression c.current.kind = false) (n : Nat) (base : Tree) :
    continued n base c = .done base c := by
  simp only [continuesExpression, decide_eq_false_iff_not, not_or] at h
  obtain ⟨hoperator, hcomparison, hpower⟩ := h
  have hmultiplies : multipliesValues c.current = false :=
    Grammar.Form.joins_of_kind hoperator hcomparison .product
  have hadds : addsValues c.current = false :=
    Grammar.Form.joins_of_kind hoperator hcomparison .sum
  have hcompares : comparesValues c.current = false :=
    Grammar.Form.joins_of_kind hoperator hcomparison .comparison
  have hraise : raiseMore (n + 2) base c = .done base c := by
    rw [raiseMore, bind_of_done (isAt_apply _ c), decide_eq_false hpower, if_neg (by simp)]
    rfl
  rw [continued, bind_of_done hraise, bind_of_done (joinMore_of_not_joins hmultiplies),
    bind_of_done (joinMore_of_not_joins hadds)]
  exact joinMore_of_not_joins hcompares

/-- An expression that is no node of an operator has not gone on. -/
theorem continued_eq_done {n : Nat} (hc : c.IsLexical)
    (h : continued n base c = .done tree rest)
    (hbinary : ∀ operator left right, tree ≠ .binary operator left right)
    (hcomparison : ∀ operator left right, tree ≠ .comparison operator left right) :
    tree = base ∧ rest = c ∧ continuesExpression c.current.kind = false := by
  obtain ⟨power, afterPower, hpower, h⟩ := bind_eq_done.mp h
  obtain ⟨product, afterProduct, hproduct, h⟩ := bind_eq_done.mp h
  obtain ⟨sum, afterSum, hsum, h⟩ := bind_eq_done.mp h
  obtain ⟨rfl, rfl, hcompares⟩ := joinMore_eq_done h hcomparison
  obtain ⟨rfl, rfl, hadds⟩ := joinMore_eq_done hsum hbinary
  obtain ⟨rfl, rfl, hmultiplies⟩ := joinMore_eq_done hproduct hbinary
  rw [raiseMore, bind_of_done (isAt_apply _ c)] at hpower
  split at hpower
  · rw [bind_of_done (advance_apply c)] at hpower
    obtain ⟨right, mid, hright, hpower⟩ := bind_eq_done.mp hpower
    exact absurd (Step.done.inj hpower).1.symm (hbinary _ _ _)
  · next hkind =>
    obtain ⟨rfl, rfl⟩ := Step.done.inj hpower
    refine ⟨rfl, rfl, ?_⟩
    have hjoins : ∀ form : Grammar.Form, form.joins c.current = false := by
      intro form
      cases form with
      | comparison => exact hcompares
      | sum => exact hadds
      | product => exact hmultiplies
      | _ => rfl
    have hoperator : ¬ (c.current.kind = .operator ∨ c.current.kind = .comparison) := by
      intro hoperator
      have hlexical : c.current.IsLexical := hc.current.resolve_left fun hfinish => by
        simp [hfinish] at hoperator
      obtain ⟨form, hform⟩ := Grammar.Form.exists_joins hlexical hoperator
      rw [hjoins form] at hform
      cases hform
    rw [continuesExpression, decide_eq_false_iff_not, ← or_assoc]
    rintro (hjoined | hraised)
    · exact hoperator hjoined
    · exact hkind (decide_eq_true hraised)

end Continuation

section Commitment

/-- The statements that a name begins and that are no expressions, apart from calls of methods, each
with what stands in front of the part that is still to be read. -/
inductive Commitment
  | assignment
  | elementAssignment (index : Tree)
  | functionDeclaration (params : List Tree)

/-- The tokens from a name on begin such a statement, up to the part that is still to be read. -/
inductive Commits (c : Cursor) : Commitment → Cursor → Prop
  | assignment (hassign : c.advance.current.kind = .assign) :
      Commits c .assignment c.advance.advance
  | elementAssignment {index mid} (hleft : c.advance.current.kind = .leftBracket)
      (hindex : unbounded expression c.advance.advance = .done index mid)
      (hright : mid.current.kind = .rightBracket) (hassign : mid.advance.current.kind = .assign) :
      Commits c (.elementAssignment index) mid.advance.advance
  | functionDeclaration {ps params start} (hparams : Grammar.Parameters ps params)
      (htokens : c.advance.tokens = ps ++ start.tokens)
      (hopens : start.current.kind = .leftBrace) : Commits c (.functionDeclaration params) start

/-- What is still to be read of a statement that the parser is committed to. -/
def Commitment.finish (name : Token) : Commitment → Parse Tree
  | assignment => do
    let value ← unbounded expression
    return .assignment name.literal.tree value
  | elementAssignment index => do
    let value ← unbounded expression
    return .elementAssignment name.literal.tree index value
  | functionDeclaration params => do
    let body ← unbounded block
    return .functionDeclaration name.literal.tree (.list params) (.list body)

variable {c start : Cursor} {commitment : Commitment}

theorem kind_of_parameters {ps : List Token} {params : List Tree} {d : Cursor}
    (h : Grammar.Parameters ps params) (htokens : d.tokens = ps ++ start.tokens) :
    d.current.kind = .leftParen := by
  cases h with
  | none hleft _ => rwa [(List.cons.inj htokens).1]
  | some hleft _ _ => rwa [(List.cons.inj htokens).1]

/-- Where the parser is committed to a statement, the first reading is the rest of it. -/
theorem lead_of_commits {left n : Nat} (hc : c.HasAtMost left)
    (hname : c.current.kind = .identifier) (hn : 8 * left ≤ n) (h : Commits c commitment start) :
    identifierLead (n + 1) c = (do
      let tree ← commitment.finish c.current
      return some tree) start := by
  have hnext := hc.advance_sub (by simp [hname])
  have hroom : 8 * (left - 1) + 1 ≤ n := by
    have hpos := hc.pos
    omega
  simp only [identifierLead]
  rw [bind_of_done (expectKind_of_kind hname), bind_of_done (current_apply _)]
  cases h with
  | assignment hassign =>
      rw [hassign]
      dsimp only
      rw [bind_of_done (advance_apply _),
        bind_apply_congr (settles_expression.within hnext.advance hroom), Commitment.finish,
        bind_assoc]
      rfl
  | @elementAssignment index mid hleft hindex hright hassign =>
      have hmid : mid.HasAtMost (left - 1) :=
        (forward_expression _).of_done (K := (Cursor.HasAtMost · (left - 1)))
          (fun _ h => h.advance) hnext.advance hindex
      rw [hleft]
      dsimp only
      rw [bind_of_done (advance_apply _),
        bind_apply_congr (settles_expression.within hnext.advance hroom), bind_of_done hindex,
        bind_of_done (expectAs_of_kind hright _), bind_of_done (isAt_apply _ _),
        decide_eq_true hassign, if_pos rfl, bind_of_done (advance_apply _),
        bind_apply_congr (settles_expression.within hmid.advance.advance hroom),
        Commitment.finish, bind_assoc]
      rfl
  | @functionDeclaration ps params _ hparams htokens hopens =>
      have hread : parametersIfPresent c.advance = .done (some params) start := by
        have hbehind : c.advance = start.prepend ps :=
          Cursor.tokens_injective (by rw [htokens, Cursor.tokens_prepend])
        rw [hbehind]
        exact parametersIfPresent_of_parameters hparams start
      have hstart : start.HasAtMost (left - 1) :=
        forward_parametersIfPresent.of_done (K := (Cursor.HasAtMost · (left - 1)))
          (fun _ h => h.advance) hnext hread
      rw [kind_of_parameters hparams htokens]
      dsimp only
      rw [bind_of_done hread, bind_of_done (isAt_apply _ _), decide_eq_true hopens]
      dsimp only
      rw [bind_apply_congr (settles_block.within hstart hroom), Commitment.finish, bind_assoc]
      rfl

end Commitment

section Agreement

variable {c : Cursor}

/-- How the first reading of a statement ends that commits to nothing: as the expression is refused,
with the call of a method that the expression is, or with nothing. -/
inductive Agrees (c : Cursor) : Step (Option Tree) → Prop
  | refused {why rest} (h : unbounded expression c = .refused why rest) :
      Agrees c (.refused why rest)
  | methodCall {array method args rest}
      (h : unbounded expression c = .done (.methodExpression array method args) rest) :
      Agrees c (.done (some (.methodCall array method args)) rest)
  | nothing {seen} (h : ∀ array method args rest,
      unbounded expression c ≠ .done (.methodExpression array method args) rest) :
      Agrees c (.done none seen)

/-- Behind a name only a dot, a member and a parenthesis make an expression that calls a method. -/
theorem calls_of_behindName {n : Nat} {name : Token} {array method args : Tree} {rest : Cursor}
    (h : behindName n name c = .done (.methodExpression array method args) rest) :
    c.current.kind = .dot ∧
      (c.advance.current.kind = .identifier ∨ c.advance.current.kind = .keyword) ∧
      c.advance.advance.current.kind = .leftParen := by
  rw [behindName, bind_of_done (current_apply c)] at h
  cases hkind : c.current.kind with
  | leftBracket =>
      rw [hkind] at h
      dsimp only at h
      rw [bind_of_done (advance_apply _)] at h
      obtain ⟨index, mid, hindex, h⟩ := bind_eq_done.mp h
      obtain ⟨right, last, hright, h⟩ := bind_eq_done.mp h
      cases h
  | dot =>
      rw [hkind] at h
      dsimp only at h
      rw [bind_of_done (advance_apply _), bind_of_done (current_apply _)] at h
      split at h
      · next hmember =>
        rw [bind_of_done (advance_apply _), bind_of_done (isAt_apply _ _)] at h
        split at h
        · cases h
        · obtain ⟨args, mid, hargs, -⟩ := bind_eq_done.mp h
          refine ⟨rfl, hmember, ?_⟩
          by_contra hleft
          cases n with
          | zero =>
              rw [arguments_zero] at hargs
              cases hargs
          | succ n =>
              simp only [arguments] at hargs
              rw [bind_apply, expectAs_of_ne hleft] at hargs
              cases hargs
      · cases h
  | leftParen =>
      rw [hkind] at h
      dsimp only at h
      obtain ⟨args, mid, hargs, h⟩ := bind_eq_done.mp h
      cases h
  | _ =>
      rw [hkind] at h
      cases h

theorem unbounded_expression_of_name (hname : c.current.kind = .identifier) :
    unbounded expression c = (behindName (8 * c.tokens.length) c.current >>=
      continued (8 * c.tokens.length)) c.advance :=
  expression_of_name hname _

theorem calls_of_expression (hc : c.IsLexical) (hname : c.current.kind = .identifier)
    {array method args : Tree} {rest : Cursor}
    (h : unbounded expression c = .done (.methodExpression array method args) rest) :
    c.advance.current.kind = .dot ∧
      (c.advance.advance.current.kind = .identifier ∨
        c.advance.advance.current.kind = .keyword) ∧
      c.advance.advance.advance.current.kind = .leftParen := by
  rw [unbounded_expression_of_name hname] at h
  obtain ⟨base, mid, hbase, h⟩ := bind_eq_done.mp h
  have hmid : mid.IsLexical :=
    (forward_behindName _ _).of_done (K := Cursor.IsLexical) (fun _ h => h.advance) hc.advance hbase
  obtain ⟨rfl, -, -⟩ := continued_eq_done hmid h (by simp) (by simp)
  exact calls_of_behindName hbase

theorem not_method_of_kind (hc : c.IsLexical) (hname : c.current.kind = .identifier)
    (hkind : c.advance.current.kind ≠ .dot) (array method args : Tree) (rest : Cursor) :
    unbounded expression c ≠ .done (.methodExpression array method args) rest :=
  fun h => hkind (calls_of_expression hc hname h).1

/-- Frames enough for a name and the tokens behind it are enough for what is behind it. -/
theorem Settles.behind {parser : Nat → Parse α} (h : Settles parser) (hc : c.IsLexical)
    {d : Cursor} (hd : d.HasAtMost (c.tokens.length - 1)) {n : Nat} (hn : 8 * c.tokens.length ≤ n) :
    parser n d = unbounded parser d :=
  h.within hd (by have hpos := hc.isClosed.hasAtMost.pos; omega)

/-- The first reading of what may be an element. -/
theorem agrees_of_element (hc : c.IsLexical) (hname : c.current.kind = .identifier)
    (hleft : c.advance.current.kind = .leftBracket)
    (hnone : ∀ commitment start, ¬ Commits c commitment start) {n : Nat}
    (hn : 8 * c.tokens.length ≤ n) : Agrees c (identifierLead (n + 1) c) := by
  have hinner := (hc.isClosed.hasAtMost.advance_sub (by simp [hname])).advance
  have hnothing := not_method_of_kind hc hname (by simp [hleft])
  have hexpression := unbounded_expression_of_name hname
  rw [bind_apply, behindName, bind_of_done (current_apply _), hleft] at hexpression
  dsimp only at hexpression
  rw [bind_of_done (advance_apply _), bind_apply,
    settles_expression.behind hc hinner (Nat.le_refl _)] at hexpression
  simp only [identifierLead]
  rw [bind_of_done (expectKind_of_kind hname), bind_of_done (current_apply _), hleft]
  dsimp only
  rw [bind_of_done (advance_apply _), bind_apply, settles_expression.behind hc hinner hn]
  -- Both readings come to the index with frames enough, so they read the same one.
  cases hindex : unbounded expression c.advance.advance with
  | refused why rest =>
      rw [hindex] at hexpression
      exact .refused hexpression
  | done index mid =>
      rw [hindex] at hexpression
      dsimp only at hexpression ⊢
      by_cases hright : mid.current.kind = .rightBracket
      · rw [bind_of_done (expectAs_of_kind hright _), bind_of_done (isAt_apply _ _)]
        split
        · next hassign =>
          exact absurd (.elementAssignment hleft hindex hright (of_decide_eq_true hassign))
            (hnone _ _)
        · exact .nothing hnothing
      · rw [bind_apply, expectAs_of_ne hright] at hexpression ⊢
        exact .refused hexpression

/-- The first reading of what may be a call of a method. -/
theorem agrees_of_method (hc : c.IsLexical) (hname : c.current.kind = .identifier)
    (hdot : c.advance.current.kind = .dot) {n : Nat} (hn : 8 * c.tokens.length ≤ n) :
    Agrees c (identifierLead (n + 1) c) := by
  have hinner := (hc.isClosed.hasAtMost.advance_sub (by simp [hname])).advance.advance
  simp only [identifierLead]
  rw [bind_of_done (expectKind_of_kind hname), bind_of_done (current_apply _), hdot]
  dsimp only
  rw [bind_of_done (advance_apply _), bind_of_done (current_apply _)]
  split
  case isFalse hmember =>
    exact .nothing fun array method args rest h => hmember (calls_of_expression hc hname h).2.1
  case isTrue hmember =>
    rw [bind_of_done (advance_apply _), bind_of_done (isAt_apply _ _)]
    split
    case isFalse hcalls =>
      exact .nothing fun array method args rest h =>
        hcalls (decide_eq_true (calls_of_expression hc hname h).2.2)
    case isTrue hcalls =>
      have hexpression := unbounded_expression_of_name hname
      rw [bind_apply, behindName, bind_of_done (current_apply _), hdot] at hexpression
      dsimp only at hexpression
      rw [bind_of_done (advance_apply _), bind_of_done (current_apply _), if_pos hmember,
        bind_of_done (advance_apply _), bind_of_done (isAt_apply _ _), hcalls,
        if_neg (by simp), bind_apply,
        arguments_words (of_decide_eq_true hcalls) _ _ "'('",
        (settles_arguments "'('").behind hc hinner (Nat.le_refl _)] at hexpression
      rw [bind_apply, (settles_arguments "'('").behind hc hinner hn]
      cases hargs : unbounded (arguments · "'('") c.advance.advance.advance with
      | refused why rest =>
          rw [hargs] at hexpression
          exact .refused hexpression
      | done args rest =>
          rw [hargs] at hexpression
          dsimp only at hexpression ⊢
          rw [pure_apply] at hexpression
          dsimp only at hexpression
          rw [bind_of_done (current_apply rest)]
          have hrest : rest.IsLexical :=
            (forward_arguments _ _).of_done (K := Cursor.IsLexical) (fun _ h => h.advance)
              hc.advance.advance.advance hargs
          -- A token is taken for a continuation where the operators of the expression go on.
          cases hcontinues : continuesExpression rest.current.kind with
          | true =>
              refine .nothing fun array method others last h => ?_
              rw [hexpression] at h
              obtain ⟨-, -, hends⟩ :=
                continued_eq_done hrest h (by simp) (by simp)
              rw [hcontinues] at hends
              cases hends
          | false => exact .methodCall (hexpression.trans (continued_of_ends hcontinues _ _))

/-- The first reading of what may be a declaration. -/
theorem agrees_of_parameters (hc : c.IsLexical) (hname : c.current.kind = .identifier)
    (hleft : c.advance.current.kind = .leftParen)
    (hnone : ∀ commitment start, ¬ Commits c commitment start) (n : Nat) :
    Agrees c (identifierLead (n + 1) c) := by
  have hnothing := not_method_of_kind hc hname (by simp [hleft])
  simp only [identifierLead]
  rw [bind_of_done (expectKind_of_kind hname), bind_of_done (current_apply _), hleft]
  dsimp only
  obtain ⟨params?, mid, hparams⟩ := (lenient_parameters hleft).exists_done
  rw [bind_of_done hparams, bind_of_done (isAt_apply _ _)]
  cases params? with
  | none => exact .nothing hnothing
  | some params =>
      by_cases hopens : mid.current.kind = .leftBrace
      · -- The scan for names has found parameters, so the tokens commit to a declaration.
        obtain ⟨ps, htaken, hps⟩ := Grammar.takes_of_parametersIfPresent hc.advance hparams
        have htokens : c.advance.tokens = ps ++ mid.tokens := by
          rw [htaken.eq, Cursor.tokens_prepend]
        exact absurd (.functionDeclaration hps htokens hopens) (hnone _ _)
      · rw [decide_eq_false hopens]
        exact .nothing hnothing

/-- A first reading that commits to nothing agrees with the expression. -/
theorem agrees_of_not_commits (hc : c.IsLexical) (hname : c.current.kind = .identifier)
    (hnone : ∀ commitment start, ¬ Commits c commitment start) {n : Nat}
    (hn : 8 * c.tokens.length ≤ n) : Agrees c (identifierLead (n + 1) c) := by
  cases hkind : c.advance.current.kind with
  | assign => exact absurd (.assignment hkind) (hnone _ _)
  | leftBracket => exact agrees_of_element hc hname hkind hnone hn
  | dot => exact agrees_of_method hc hname hkind hn
  | leftParen => exact agrees_of_parameters hc hname hkind hnone n
  | _ =>
      simp only [identifierLead]
      rw [bind_of_done (expectKind_of_kind hname), bind_of_done (current_apply _), hkind]
      exact .nothing (not_method_of_kind hc hname (by simp [hkind]))

end Agreement

section Transparency

variable {c : Cursor}

/-- To look ahead behind a name shows nowhere in the statement that is read: it is settled by the
tokens, and by what is read as an expression from the name on. -/
structure Transparent (c : Cursor) : Prop where
  /-- A statement that the tokens commit to is that one, or it is refused as the rest of it is. -/
  commits : ∀ commitment start, Commits c commitment start →
    unbounded statement c = commitment.finish c.current start
  /-- An assignment has its sign behind the name. -/
  assignment : ∀ name value rest, unbounded statement c = .done (.assignment name value) rest →
    ∃ start, Commits c .assignment start
  /-- An assignment to an element has the index in brackets and its sign behind the name. -/
  elementAssignment : ∀ array index value rest,
    unbounded statement c = .done (.elementAssignment array index value) rest →
      ∃ start, Commits c (.elementAssignment index) start
  /-- A declaration has parameters and an opening brace behind the name. -/
  functionDeclaration : ∀ name params body rest,
    unbounded statement c = .done (.functionDeclaration name params body) rest →
      ∃ names start, params = .list names ∧ Commits c (.functionDeclaration names) start
  /-- The call of a method is one where the expression would be that call, up to the same cursor. -/
  methodCall : ∀ array method args rest,
    unbounded statement c = .done (.methodCall array method args) rest ↔
      unbounded expression c = .done (.methodExpression array method args) rest
  /-- In every other case the statement is the expression, or it is refused as the expression is. -/
  otherwise : (∀ commitment start, ¬ Commits c commitment start) →
    (∀ array method args rest,
      unbounded expression c ≠ .done (.methodExpression array method args) rest) →
    unbounded statement c = (do
      let value ← unbounded expression
      return .expressionStatement value : Parse Tree) c
  /-- Under a nesting limit all of this is read in the same way, unless the parser gives up. -/
  limit : ∀ d, StandsIn c d →
    SettledAt statement d ∧ SettledAt expression d ∧ SettledAt block d

theorem unbounded_statement_of_name (hname : c.current.kind = .identifier) :
    unbounded statement c = match identifierLead (8 * c.tokens.length + 7) c with
      | .done (some tree) rest => .done tree rest
      | .done none _ => (do
          let value ← expression (8 * c.tokens.length + 7)
          return .expressionStatement value : Parse Tree) c
      | .refused why rest => .refused why rest :=
  TracksStatements.statement_of_name hname _

/-- Where the tokens commit to a statement, it is that one. -/
theorem statement_of_commits (hc : c.IsClosed) (hname : c.current.kind = .identifier)
    {commitment : Commitment} {start : Cursor} (h : Commits c commitment start) :
    unbounded statement c = commitment.finish c.current start := by
  have hlead := lead_of_commits (n := 8 * c.tokens.length + 6) hc.hasAtMost hname (by omega) h
  rw [unbounded_statement_of_name hname, hlead, bind_apply]
  cases commitment.finish c.current start <;> rfl

/-- Where they commit to none, it is a call of a method with the expression or the expression. -/
theorem statement_of_not_commits (hc : c.IsLexical) (hname : c.current.kind = .identifier)
    (hnone : ∀ commitment start, ¬ Commits c commitment start) :
    (∃ array method args rest,
      unbounded statement c = .done (.methodCall array method args) rest ∧
        unbounded expression c = .done (.methodExpression array method args) rest) ∨
    (∀ array method args rest,
      unbounded expression c ≠ .done (.methodExpression array method args) rest) ∧
      unbounded statement c = (do
        let value ← unbounded expression
        return .expressionStatement value : Parse Tree) c := by
  have hagrees := agrees_of_not_commits (n := 8 * c.tokens.length + 6) hc hname hnone (by omega)
  rw [unbounded_statement_of_name hname]
  generalize identifierLead (8 * c.tokens.length + 6 + 1) c = lead at hagrees ⊢
  cases hagrees with
  | refused h => exact .inr ⟨by simp [h], by rw [bind_apply (unbounded expression), h]⟩
  | methodCall h => exact .inl ⟨_, _, _, _, rfl, h⟩
  | nothing h =>
      refine .inr ⟨h, bind_apply_congr ?_ _⟩
      exact settles_expression.eq_unbounded hc.isClosed (by omega)

/-- The statements that a commitment can end with. -/
inductive Commitment.Heads : Commitment → Tree → Prop
  | assignment (name value) : Heads .assignment (.assignment name value)
  | elementAssignment (array index value) :
      Heads (.elementAssignment index) (.elementAssignment array index value)
  | functionDeclaration (name params body) :
      Heads (.functionDeclaration params) (.functionDeclaration name (.list params) body)

theorem heads_of_finish {commitment : Commitment} {name : Token} {start rest : Cursor}
    {tree : Tree} (h : commitment.finish name start = .done tree rest) : commitment.Heads tree := by
  cases commitment with
  | assignment =>
      obtain ⟨value, mid, -, h⟩ := bind_eq_done.mp h
      exact (Step.done.inj h).1 ▸ .assignment _ value
  | elementAssignment index =>
      obtain ⟨value, mid, -, h⟩ := bind_eq_done.mp h
      exact (Step.done.inj h).1 ▸ .elementAssignment _ index value
  | functionDeclaration params =>
      obtain ⟨body, mid, -, h⟩ := bind_eq_done.mp h
      exact (Step.done.inj h).1 ▸ .functionDeclaration _ params _

/-- A statement that starts with a name is one that the tokens commit to, the call of a method, or
an expression. -/
theorem statement_cases (hc : c.IsLexical) (hname : c.current.kind = .identifier) {tree : Tree}
    {rest : Cursor} (h : unbounded statement c = .done tree rest) :
    (∃ commitment start, Commits c commitment start ∧ commitment.Heads tree) ∨
    (∃ array method args, tree = .methodCall array method args ∧
      unbounded expression c = .done (.methodExpression array method args) rest) ∨
    ∃ value, tree = .expressionStatement value := by
  by_cases hcommits : ∃ commitment start, Commits c commitment start
  · obtain ⟨commitment, start, hcommits⟩ := hcommits
    rw [statement_of_commits hc.isClosed hname hcommits] at h
    exact .inl ⟨commitment, start, hcommits, heads_of_finish h⟩
  · have hnone : ∀ commitment start, ¬ Commits c commitment start :=
      fun commitment start h => hcommits ⟨commitment, start, h⟩
    rcases statement_of_not_commits hc hname hnone with
      ⟨array, method, args, last, hstatement, hexpression⟩ | ⟨-, hstatement⟩
    · obtain ⟨rfl, rfl⟩ := Step.done.inj (hstatement.symm.trans h)
      exact .inr (.inl ⟨array, method, args, rfl, hexpression⟩)
    · rw [hstatement] at h
      obtain ⟨value, mid, -, h⟩ := bind_eq_done.mp h
      exact .inr (.inr ⟨value, (Step.done.inj h).1.symm⟩)

/-- Where an expression would be the call of a method, the tokens commit to nothing. -/
theorem not_commits_of_method (hc : c.IsLexical) (hname : c.current.kind = .identifier)
    {array method args : Tree} {rest : Cursor}
    (h : unbounded expression c = .done (.methodExpression array method args) rest)
    (commitment : Commitment) (start : Cursor) : ¬ Commits c commitment start := by
  have hdot := (calls_of_expression hc hname h).1
  intro hcommits
  have hkind : c.advance.current.kind ≠ .dot := by
    cases hcommits with
    | assignment hassign => simp [hassign]
    | elementAssignment hleft => simp [hleft]
    | functionDeclaration hparams htokens => simp [kind_of_parameters hparams htokens]
  exact hkind hdot

theorem methodCall_iff (hc : c.IsLexical) (hname : c.current.kind = .identifier)
    (array method args : Tree) (rest : Cursor) :
    unbounded statement c = .done (.methodCall array method args) rest ↔
      unbounded expression c = .done (.methodExpression array method args) rest := by
  constructor
  · intro h
    rcases statement_cases hc hname h with
      ⟨commitment, start, -, hheads⟩ | ⟨_, _, _, htree, hexpression⟩ | ⟨value, htree⟩
    · cases hheads
    · obtain ⟨rfl, rfl, rfl⟩ := Tree.methodCall.inj htree
      exact hexpression
    · cases htree
  · intro h
    rcases statement_of_not_commits hc hname (not_commits_of_method hc hname h) with
      ⟨_, _, _, _, hstatement, hexpression⟩ | ⟨hnone, -⟩
    · obtain ⟨htree, rfl⟩ := Step.done.inj (hexpression.symm.trans h)
      obtain ⟨rfl, rfl, rfl⟩ := Tree.methodExpression.inj htree
      exact hstatement
    · exact absurd h (hnone _ _ _ _)

/-- What is neither the call of a method nor an expression is a statement that the tokens commit
to. -/
theorem exists_commits (hc : c.IsLexical) (hname : c.current.kind = .identifier) {tree : Tree}
    {rest : Cursor} (h : unbounded statement c = .done tree rest)
    (hmethod : ∀ array method args, tree ≠ .methodCall array method args)
    (hvalue : ∀ value, tree ≠ .expressionStatement value) :
    ∃ commitment start, Commits c commitment start ∧ commitment.Heads tree := by
  rcases statement_cases hc hname h with hcommits | ⟨_, _, _, htree, -⟩ | ⟨_, htree⟩
  · exact hcommits
  · exact absurd htree (hmethod _ _ _)
  · exact absurd htree (hvalue _)

/-- From any name on among the tokens of a text, to look ahead shows nowhere in the statement. -/
theorem transparent_of_scan {source : String} {tokens : List Token}
    (hscan : Token.scan source = .ok tokens) (front : List Token) {c : Cursor}
    (htokens : tokens = front ++ c.tokens) (hname : c.current.kind = .identifier) :
    Transparent c := by
  have hc : c.IsLexical := by
    obtain ⟨body, closing, hbody, hclosing, hlexical⟩ := Token.scan_lexical hscan
    have hwhole : (c.prepend front).IsLexical :=
      ⟨body, closing, by rw [Cursor.tokens_prepend, ← htokens, hbody], hclosing, hlexical⟩
    exact hwhole.of_prepend
  refine ⟨?_, ?_, ?_, ?_, methodCall_iff hc hname, ?_, ?_⟩
  · exact fun commitment start h => statement_of_commits hc.isClosed hname h
  · intro name value rest h
    obtain ⟨commitment, start, hcommits, hheads⟩ := exists_commits hc hname h nofun nofun
    cases hheads
    exact ⟨start, hcommits⟩
  · intro array index value rest h
    obtain ⟨commitment, start, hcommits, hheads⟩ := exists_commits hc hname h nofun nofun
    cases hheads
    exact ⟨start, hcommits⟩
  · intro name params body rest h
    obtain ⟨commitment, start, hcommits, hheads⟩ := exists_commits hc hname h nofun nofun
    cases hheads
    exact ⟨_, start, rfl, hcommits⟩
  · intro hnone hmethod
    rcases statement_of_not_commits hc hname hnone with ⟨_, _, _, _, -, h⟩ | ⟨-, h⟩
    · exact absurd h (hmethod _ _ _ _)
    · exact h
  · intro d hd
    have hclosed := hd.closed hc.isClosed
    exact ⟨settles_statement.settledAt hclosed, settles_expression.settledAt hclosed,
      settles_block.settledAt hclosed⟩

/-- The call of a method that an expression goes on behind. -/
theorem transparent_of_scan_continued :
    let front : List Token := [⟨.identifier, .text "b", ⟨1, 1⟩⟩, ⟨.semicolon, .text ";", ⟨1, 2⟩⟩]
    let c : Cursor := ⟨⟨.identifier, .text "a", ⟨1, 4⟩⟩,
      [⟨.dot, .text ".", ⟨1, 5⟩⟩, ⟨.identifier, .text "f", ⟨1, 6⟩⟩,
        ⟨.leftParen, .text "(", ⟨1, 7⟩⟩, ⟨.rightParen, .text ")", ⟨1, 8⟩⟩,
        ⟨.operator, .text "-", ⟨1, 10⟩⟩, ⟨.identifier, .text "b", ⟨1, 12⟩⟩,
        ⟨.finish, .absent, ⟨1, 13⟩⟩]⟩
    Token.scan "b; a.f() - b" = .ok (front ++ c.tokens) ∧ c.current.kind = .identifier ∧
      Transparent c := by
  intro front c
  have hscan : Token.scan "b; a.f() - b" = .ok (front ++ c.tokens) := by decide +kernel
  exact ⟨hscan, rfl, transparent_of_scan hscan front rfl rfl⟩

end Transparency

end Sprig.Parse
