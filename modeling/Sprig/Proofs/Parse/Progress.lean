import Sprig.Proofs.Parse.Step

/-!
# Every parser takes tokens and comes to an end

The parsers of expressions and of statements leave fewer tokens ahead than they found, whenever they
are done in front of a closing token. Where a parser comes by way of others to itself again, it has
taken a token in between, and no way between two tokens is longer than eight parsers. So a number of
frames that grows with the tokens ahead is enough, and with as many no parser gives up.

## Implementation notes

Both facts follow from how many tokens are ahead, so they are proved together: a step leaves at most
so many tokens when it is done, and when it refuses with room for the nesting then for another
reason. The bounds are stated for any number of tokens that the ones ahead do not exceed.
-/

namespace Sprig

/-- The cursor stands in front of a closing token or on one, with at most so many tokens ahead, the
current one included. -/
structure Cursor.HasAtMost (c : Cursor) (left : Nat) : Prop where
  closed : c.IsClosed
  length_le : c.tokens.length ≤ left

theorem Cursor.IsClosed.hasAtMost {c : Cursor} (h : c.IsClosed) : c.HasAtMost c.tokens.length :=
  ⟨h, Nat.le_refl _⟩

namespace Cursor.HasAtMost

variable {c : Cursor} {left more : Nat}

theorem mono (h : c.HasAtMost left) (hle : left ≤ more) : c.HasAtMost more :=
  ⟨h.closed, Nat.le_trans h.length_le hle⟩

theorem pos (h : c.HasAtMost left) : 0 < left :=
  Nat.lt_of_lt_of_le (Nat.succ_pos c.later.length) h.length_le

theorem advance (h : c.HasAtMost left) : c.advance.HasAtMost left :=
  ⟨h.closed.advance, Nat.le_trans c.length_tokens_advance_le h.length_le⟩

theorem advance_sub (h : c.HasAtMost left) (hkind : c.current.kind ≠ .finish) :
    c.advance.HasAtMost (left - 1) :=
  ⟨h.closed.advance, Nat.le_sub_one_of_lt
    (Nat.lt_of_lt_of_le (h.closed.length_tokens_advance hkind) h.length_le)⟩

end Cursor.HasAtMost

/-- Whether a step is done with a value and a cursor of a property, or refuses, and not because of
the nesting if there is room for it. -/
def Step.Ends {α : Type} (P : α → Cursor → Prop) (roomy : Prop) : Step α → Prop
  | .done a rest => P a rest
  | .refused why _ => roomy → why ≠ .nestedTooDeeply

/-- Whether a step is done with at most so many tokens ahead, or refuses, and not because of the
nesting if there is room for it. -/
def Step.Leaves {α : Type} (left : Nat) (roomy : Prop) (s : Step α) : Prop :=
  s.Ends (fun _ rest => rest.HasAtMost left) roomy

theorem Step.Ends.mono {α : Type} {s : Step α} {P Q : α → Cursor → Prop} {roomy roomier : Prop}
    (h : s.Ends P roomy) (hP : ∀ a rest, P a rest → Q a rest) (hroom : roomier → roomy) :
    s.Ends Q roomier := by
  cases s with
  | done a rest => exact hP a rest h
  | refused why rest => exact fun hroomier => h (hroom hroomier)

theorem Step.Leaves.mono {α : Type} {s : Step α} {left more : Nat} {roomy roomier : Prop}
    (h : s.Leaves left roomy) (hle : left ≤ more) (hroom : roomier → roomy) :
    s.Leaves more roomier :=
  Step.Ends.mono h (fun _ _ hrest => hrest.mono hle) hroom

namespace Parse

variable {α β : Type} {P : α → Cursor → Prop} {Q : β → Cursor → Prop} {roomy : Prop}
  {left n : Nat} {c : Cursor}

section Steps

theorem ends_bind {first : Parse α} {next : α → Parse β} (h : (first c).Ends P roomy)
    (hnext : ∀ a rest, P a rest → (next a rest).Ends Q roomy) :
    ((first >>= next) c).Ends Q roomy := by
  rw [bind_apply]
  cases hfirst : first c with
  | done a rest =>
      rw [hfirst] at h
      exact hnext a rest h
  | refused why rest =>
      rw [hfirst] at h
      exact h

/-- From as many tokens as one parser leaves, the next one goes on. -/
theorem leaves_bind {first : Parse α} {next : α → Parse β} {mid : Nat}
    (h : (first c).Leaves mid roomy)
    (hnext : ∀ a {rest : Cursor}, rest.HasAtMost mid → (next a rest).Leaves left roomy) :
    ((first >>= next) c).Leaves left roomy :=
  ends_bind h fun a _ hrest => hnext a hrest

theorem leaves_tooDeep (h : ¬roomy) : ((tooDeep : Parse α) c).Leaves left roomy :=
  fun hroomy => absurd hroomy h

theorem leaves_refuse (what : Expectation) : ((refuse what : Parse α) c).Leaves left roomy :=
  fun _ => nofun

theorem leaves_advance (hc : c.HasAtMost left) (hkind : c.current.kind ≠ .finish) :
    (advance c).Leaves (left - 1) roomy :=
  hc.advance_sub hkind

theorem leaves_expect {kind : Token.Kind} (hkind : kind ≠ .finish)
    (literal? : Option Token.Literal) (what : Expectation) (hc : c.HasAtMost left) :
    (expect kind literal? what c).Leaves (left - 1) roomy := by
  unfold expect
  split
  · next hfits =>
    simp only [fits, decide_eq_true_eq] at hfits
    exact hc.advance_sub (hfits.1 ▸ hkind)
  · exact leaves_refuse what

theorem leaves_expectKind {kind : Token.Kind} (hkind : kind ≠ .finish) (hc : c.HasAtMost left) :
    (expectKind kind c).Leaves (left - 1) roomy := leaves_expect hkind _ _ hc

theorem leaves_expectAs {kind : Token.Kind} (hkind : kind ≠ .finish) (words : String)
    (hc : c.HasAtMost left) : (expectAs kind words c).Leaves (left - 1) roomy :=
  leaves_expect hkind _ _ hc

theorem leaves_expectKeyword (word : String) (hc : c.HasAtMost left) :
    (expectKeyword word c).Leaves (left - 1) roomy := leaves_expect (by simp) _ _ hc

end Steps

section Sequences

variable {operand item statement : Parse Tree}

theorem leaves_joinFrom {joins : Token → Bool} {join : Tree → Tree → Tree → Tree}
    (h : ∀ {c : Cursor}, c.HasAtMost left → (operand c).Leaves left roomy) (budget : List Token)
    (tree : Tree) (hc : c.HasAtMost left) :
    (joinFrom operand joins join budget tree c).Leaves left roomy := by
  induction budget generalizing c tree with
  | nil => exact hc
  | cons t budget ih =>
      rw [joinFrom, bind_of_done (current_apply c)]
      split
      · rw [bind_of_done (advance_apply c)]
        exact leaves_bind (h hc.advance) fun right _ hrest => ih _ hrest
      · exact hc

theorem leaves_leftGrouped {joins : Token → Bool} {join : Tree → Tree → Tree → Tree} {frames : Nat}
    (h : ∀ {c : Cursor} {left}, c.HasAtMost left →
      (operand c).Leaves (left - 1) (8 * left ≤ frames))
    (hc : c.HasAtMost left) :
    (leftGrouped operand joins join c).Leaves (left - 1) (8 * left ≤ frames) := by
  refine leaves_bind (h hc) fun first rest hrest => ?_
  rw [bind_of_done (cursor_apply rest)]
  refine leaves_joinFrom (fun hd => ?_) rest.tokens first hrest
  exact (h hd).mono (by omega) (by omega)

theorem leaves_moreItems
    (h : ∀ {c : Cursor}, c.HasAtMost left → (item c).Leaves left roomy) (budget : List Token)
    (hc : c.HasAtMost left) : (moreItems item budget c).Leaves left roomy := by
  induction budget generalizing c with
  | nil => exact hc
  | cons t budget ih =>
      rw [moreItems, bind_of_done (isAt_apply _ c)]
      split
      · rw [bind_of_done (advance_apply c)]
        refine leaves_bind (h hc.advance) fun first _ hrest => ?_
        exact leaves_bind (ih hrest) fun others _ hlast => hlast
      · exact hc

theorem leaves_itemsUntil
    (h : ∀ {c : Cursor}, c.HasAtMost left → (item c).Leaves left roomy) (close : Token.Kind)
    (hc : c.HasAtMost left) : (itemsUntil close item c).Leaves left roomy := by
  rw [itemsUntil, bind_of_done (isAt_apply _ c)]
  split
  · exact hc
  · refine leaves_bind (h hc) fun first rest hrest => ?_
    rw [bind_of_done (cursor_apply rest)]
    exact leaves_bind (leaves_moreItems h _ hrest) fun others _ hlast => hlast

theorem leaves_names (budget : List Token) (hc : c.HasAtMost left) :
    (names budget c).Leaves left roomy := by
  induction budget generalizing c with
  | nil => exact hc
  | cons t budget ih =>
      rw [names]
      refine leaves_bind (leaves_expectAs (by simp) _ hc) fun name rest hrest => ?_
      have hrest := hrest.mono (Nat.sub_le left 1)
      rw [bind_of_done (isAt_apply _ rest)]
      split
      · rw [bind_of_done (advance_apply rest)]
        exact leaves_bind (ih hrest.advance) fun others _ hlast => hlast
      · exact hrest

theorem leaves_parameterList (hc : c.HasAtMost left) :
    (parameterList c).Leaves (left - 1) roomy := by
  rw [parameterList]
  refine leaves_bind (leaves_expectAs (by simp) _ hc) fun _ rest hrest => ?_
  rw [bind_of_done (isAt_apply _ rest)]
  split
  · exact hrest.advance
  · rw [bind_of_done (cursor_apply rest)]
    refine leaves_bind (leaves_names _ hrest) fun params _ hlast => ?_
    exact leaves_bind (leaves_expectAs (by simp) _ hlast) fun _ _ hend => hend.mono (Nat.sub_le _ _)

theorem leaves_namesIfPresent (budget : List Token) (hc : c.HasAtMost left) :
    (namesIfPresent budget c).Leaves left roomy := by
  induction budget generalizing c with
  | nil => exact hc
  | cons t budget ih =>
      rw [namesIfPresent, bind_of_done (isAt_apply _ c)]
      split
      · rw [bind_of_done (advance_apply c), bind_of_done (isAt_apply _ _)]
        split
        · rw [bind_of_done (advance_apply _)]
          exact leaves_bind (ih hc.advance.advance) fun others _ hlast => hlast
        · exact hc.advance
      · exact hc

theorem leaves_closedParameters (params? : Option (List Tree)) (hc : c.HasAtMost left) :
    (closedParameters params? c).Leaves left roomy := by
  cases params? with
  | none => exact hc
  | some params =>
      rw [closedParameters, bind_of_done (isAt_apply _ c)]
      split
      · exact hc.advance
      · exact hc

theorem leaves_parametersIfPresent (hc : c.HasAtMost left) :
    (parametersIfPresent c).Leaves (left - 1) roomy := by
  rw [parametersIfPresent_eq]
  refine leaves_bind (leaves_expectKind (by simp) hc) fun _ rest hrest => ?_
  rw [bind_of_done (cursor_apply rest), bind_of_done (isAt_apply _ rest)]
  split
  · exact leaves_closedParameters _ hrest
  · exact leaves_bind (leaves_namesIfPresent _ hrest)
      fun params? _ => leaves_closedParameters params?

theorem leaves_blockStatements
    (h : ∀ {c : Cursor}, c.HasAtMost left → (statement c).Leaves left roomy) (budget : List Token)
    (hc : c.HasAtMost left) : (blockStatements statement budget c).Leaves left roomy := by
  induction budget generalizing c with
  | nil => exact hc
  | cons t budget ih =>
      rw [blockStatements, bind_of_done (current_apply c)]
      split
      · exact hc
      split
      · exact leaves_refuse _
      split
      · exact ih hc.advance
      · refine leaves_bind (h hc) fun first _ hrest => ?_
        exact leaves_bind (ih hrest) fun others _ hlast => hlast

theorem leaves_programStatements
    (h : ∀ {c : Cursor}, c.HasAtMost left → (statement c).Leaves left roomy) (budget : List Token)
    (hc : c.HasAtMost left) : (programStatements statement budget c).Leaves left roomy := by
  induction budget generalizing c with
  | nil => exact hc
  | cons t budget ih =>
      rw [programStatements, bind_of_done (current_apply c)]
      split
      · exact hc
      split
      · exact ih hc.advance
      · refine leaves_bind (h hc) fun first _ hrest => ?_
        exact leaves_bind (ih hrest) fun others _ hlast => hlast

end Sequences

/-- What the parsers of expressions leave, and how many frames are room enough for each. -/
structure LeavesExpressions (n : Nat) : Prop where
  expression : ∀ {c : Cursor} {left}, c.HasAtMost left →
    (expression n c).Leaves (left - 1) (8 * left ≤ n)
  comparison : ∀ {c : Cursor} {left}, c.HasAtMost left →
    (comparison n c).Leaves (left - 1) (8 * left ≤ n + 1)
  additive : ∀ {c : Cursor} {left}, c.HasAtMost left →
    (additive n c).Leaves (left - 1) (8 * left ≤ n + 2)
  multiplicative : ∀ {c : Cursor} {left}, c.HasAtMost left →
    (multiplicative n c).Leaves (left - 1) (8 * left ≤ n + 3)
  unary : ∀ {c : Cursor} {left}, c.HasAtMost left →
    (unary n c).Leaves (left - 1) (8 * left ≤ n + 4)
  exponent : ∀ {c : Cursor} {left}, c.HasAtMost left →
    (exponent n c).Leaves (left - 1) (8 * left ≤ n + 5)
  primary : ∀ {c : Cursor} {left}, c.HasAtMost left →
    (primary n c).Leaves (left - 1) (8 * left ≤ n + 6)
  arrayLiteral : ∀ {c : Cursor} {left}, c.HasAtMost left →
    (arrayLiteral n c).Leaves (left - 1) (8 * left ≤ n + 7)
  identifierExpression : ∀ {c : Cursor} {left}, c.HasAtMost left →
    (identifierExpression n c).Leaves (left - 1) (8 * left ≤ n + 7)
  arguments : ∀ words {c : Cursor} {left}, c.HasAtMost left →
    (arguments n words c).Leaves (left - 1) (8 * left ≤ n + 7)

namespace LeavesExpressions

theorem primary_succ (h : LeavesExpressions n) (hc : c.HasAtMost left) :
    (Parse.primary (n + 1) c).Leaves (left - 1) (8 * left ≤ n + 7) := by
  simp only [Parse.primary]
  rw [bind_of_done (current_apply c)]
  cases hkind : c.current.kind with
  | leftParen =>
      refine leaves_bind (leaves_advance hc (by simp [hkind])) fun _ _ hrest => ?_
      refine leaves_bind ((h.expression hrest).mono (Nat.sub_le _ _) (by omega)) ?_
      intro inner _ hlast
      exact leaves_bind (leaves_expectAs (by simp) _ hlast) fun _ _ hend =>
        hend.mono (Nat.sub_le _ _)
  | number | string => exact hc.advance_sub (by simp [hkind])
  | keyword =>
      dsimp only
      split
      · exact hc.advance_sub (by simp [hkind])
      split
      · exact hc.advance_sub (by simp [hkind])
      · exact leaves_refuse _
  | leftBracket => exact h.arrayLiteral hc
  | identifier => exact h.identifierExpression hc
  | _ => exact leaves_refuse _

/-- The items between brackets or parentheses. -/
theorem items (h : LeavesExpressions n) (close : Token.Kind) (hc : c.HasAtMost left) :
    (itemsUntil close (Parse.expression n) c).Leaves left (8 * left ≤ n) :=
  leaves_itemsUntil (fun hd => (h.expression hd).mono (Nat.sub_le _ _) id) close hc

theorem arguments_succ (h : LeavesExpressions n) (words : String) (hc : c.HasAtMost left) :
    (Parse.arguments (n + 1) words c).Leaves (left - 1) (8 * left ≤ n + 8) := by
  simp only [Parse.arguments]
  refine leaves_bind (leaves_expectAs (by simp) _ hc) fun _ _ hrest => ?_
  refine leaves_bind ((h.items _ hrest).mono (Nat.le_refl _) (by omega)) fun items _ hlast => ?_
  exact leaves_bind (leaves_expectAs (by simp) _ hlast) fun _ _ hend => hend.mono (Nat.sub_le _ _)

theorem identifierExpression_succ (h : LeavesExpressions n) (hc : c.HasAtMost left) :
    (Parse.identifierExpression (n + 1) c).Leaves (left - 1) (8 * left ≤ n + 8) := by
  have harguments : ∀ {words} {d : Cursor}, d.HasAtMost (left - 1) →
      (Parse.arguments n words d).Leaves (left - 1) (8 * left ≤ n + 8) := fun hd =>
    (h.arguments _ hd).mono (Nat.sub_le _ _) (by omega)
  simp only [Parse.identifierExpression]
  refine leaves_bind (leaves_expectKind (by simp) hc) fun name rest hrest => ?_
  rw [bind_of_done (current_apply rest)]
  cases rest.current.kind with
  | leftBracket =>
      dsimp only
      rw [bind_of_done (advance_apply rest)]
      refine leaves_bind ((h.expression hrest.advance).mono (Nat.sub_le _ _) (by omega)) ?_
      intro index _ hlast
      exact leaves_bind (leaves_expectAs (by simp) _ hlast) fun _ _ hend =>
        hend.mono (Nat.sub_le _ _)
  | dot =>
      dsimp only
      rw [bind_of_done (advance_apply rest), bind_of_done (current_apply _)]
      split
      · rw [bind_of_done (advance_apply _), bind_of_done (isAt_apply _ _)]
        split
        · exact hrest.advance.advance
        · exact leaves_bind (harguments hrest.advance.advance) fun args _ hlast => hlast
      · exact leaves_refuse _
  | leftParen => exact leaves_bind (harguments hrest) fun args _ hlast => hlast
  | _ => exact hrest

/-- With one more frame the parsers of expressions have room for one more way between tokens. -/
theorem succ (h : LeavesExpressions n) : LeavesExpressions (n + 1) where
  expression hc := by
    simp only [Parse.expression]
    exact h.comparison hc
  comparison hc := by
    simp only [Parse.comparison]
    exact leaves_leftGrouped h.additive hc
  additive hc := by
    simp only [Parse.additive]
    exact leaves_leftGrouped h.multiplicative hc
  multiplicative hc := by
    simp only [Parse.multiplicative]
    exact leaves_leftGrouped h.unary hc
  unary {c left} hc := by
    simp only [Parse.unary]
    rw [bind_of_done (isAtWord_apply _ _ c)]
    split
    · next hminus =>
      simp only [fits_word, decide_eq_true_eq] at hminus
      refine leaves_bind (leaves_advance hc (by simp [hminus.1])) fun _ _ hrest => ?_
      exact leaves_bind ((h.unary hrest).mono (Nat.sub_le _ _) (by omega)) fun _ _ hlast => hlast
    · exact h.exponent hc
  exponent {c left} hc := by
    simp only [Parse.exponent]
    refine leaves_bind (h.primary hc) fun base rest hrest => ?_
    rw [bind_of_done (isAt_apply _ rest)]
    split
    · rw [bind_of_done (advance_apply rest)]
      refine leaves_bind ((h.unary hrest.advance).mono (Nat.sub_le _ _) (by omega)) ?_
      exact fun _ _ hlast => hlast
    · exact hrest
  primary hc := h.primary_succ hc
  arrayLiteral {c left} hc := by
    simp only [Parse.arrayLiteral]
    refine leaves_bind (leaves_expectKind (by simp) hc) fun _ _ hrest => ?_
    refine leaves_bind ((h.items _ hrest).mono (Nat.le_refl _) (by omega)) fun items _ hlast => ?_
    exact leaves_bind (leaves_expectAs (by simp) _ hlast) fun _ _ hend => hend.mono (Nat.sub_le _ _)
  identifierExpression hc := h.identifierExpression_succ hc
  arguments words _ _ hc := h.arguments_succ words hc

end LeavesExpressions

theorem leaves_expressions (n : Nat) : LeavesExpressions n := by
  -- Without a frame there is no room, since a token is ahead.
  have hnone : ∀ {parser : Parse Tree} {k : Nat} {c : Cursor} {left : Nat}, parser = tooDeep →
      k < 8 → c.HasAtMost left → (parser c).Leaves (left - 1) (8 * left ≤ 0 + k) := by
    rintro _ k c left rfl hk hc
    have hpos := hc.pos
    exact leaves_tooDeep (by omega)
  induction n with
  | zero =>
      refine ⟨hnone expression_zero (k := 0) (by omega), hnone comparison_zero (by omega),
        hnone additive_zero (by omega), hnone multiplicative_zero (by omega),
        hnone unary_zero (by omega), hnone exponent_zero (by omega), hnone primary_zero (by omega),
        hnone arrayLiteral_zero (by omega), hnone identifierExpression_zero (by omega), ?_⟩
      intro words c left hc
      have hpos := hc.pos
      rw [arguments_zero]
      exact leaves_tooDeep (by omega)
  | succ n ih => exact ih.succ

/-- What the parsers of statements leave, and how many frames are room enough for each. -/
structure LeavesStatements (n : Nat) : Prop where
  statement : ∀ {c : Cursor} {left}, c.HasAtMost left →
    (statement n c).Leaves (left - 1) (8 * left + 1 ≤ n)
  /-- Where no statement is found, the parser is back where it started. -/
  identifierStatement : ∀ {c : Cursor} {left}, c.HasAtMost left → (identifierStatement n c).Ends
    (fun tree? rest => (tree?.isSome → rest.HasAtMost (left - 1)) ∧ (tree? = none → rest = c))
    (8 * left ≤ n)
  functionDeclaration : ∀ {c : Cursor} {left}, c.HasAtMost left →
    (functionDeclaration n c).Leaves (left - 1) (8 * left ≤ n)
  returnStatement : ∀ {c : Cursor} {left}, c.HasAtMost left →
    (returnStatement n c).Leaves (left - 1) (8 * left ≤ n)
  printStatement : ∀ {c : Cursor} {left}, c.HasAtMost left →
    (printStatement n c).Leaves (left - 1) (8 * left ≤ n)
  ifStatement : ∀ {c : Cursor} {left}, c.HasAtMost left →
    (ifStatement n c).Leaves (left - 1) (8 * left ≤ n)
  whileStatement : ∀ {c : Cursor} {left}, c.HasAtMost left →
    (whileStatement n c).Leaves (left - 1) (8 * left ≤ n)
  block : ∀ {c : Cursor} {left}, c.HasAtMost left →
    (block n c).Leaves (left - 1) (8 * left ≤ n)

namespace LeavesStatements

/-- An expression behind the first token of a statement. -/
theorem inner (hc : c.HasAtMost (left - 1)) :
    (Parse.expression n c).Leaves (left - 1) (8 * left ≤ n + 1) :=
  ((leaves_expressions n).expression hc).mono (Nat.sub_le _ _) (by omega)

/-- A block behind the first token of a statement. -/
theorem innerBlock (h : LeavesStatements n) (hc : c.HasAtMost (left - 1)) :
    (Parse.block n c).Leaves (left - 1) (8 * left ≤ n + 1) :=
  (h.block hc).mono (Nat.sub_le _ _) (by omega)

theorem statement_succ (h : LeavesStatements n) (hc : c.HasAtMost left) :
    (Parse.statement (n + 1) c).Leaves (left - 1) (8 * left + 1 ≤ n + 1) := by
  have hroom : 8 * left + 1 ≤ n + 1 → 8 * left ≤ n := by omega
  have hexpression : ((do
      let value ← Parse.expression n
      return .expressionStatement value : Parse Tree) c).Leaves (left - 1) (8 * left + 1 ≤ n + 1) :=
    leaves_bind (((leaves_expressions n).expression hc).mono (Nat.le_refl _) hroom)
      fun _ _ hrest => hrest
  simp only [Parse.statement]
  rw [bind_of_done (current_apply c)]
  cases hkind : c.current.kind with
  | giveBack => exact (h.returnStatement hc).mono (Nat.le_refl _) hroom
  | keyword =>
      dsimp only
      split
      · exact (h.functionDeclaration hc).mono (Nat.le_refl _) hroom
      split
      · exact (h.printStatement hc).mono (Nat.le_refl _) hroom
      split
      · exact (h.ifStatement hc).mono (Nat.le_refl _) hroom
      split
      · exact (h.whileStatement hc).mono (Nat.le_refl _) hroom
      · exact hexpression
  | identifier =>
      have hnamed := h.identifierStatement hc
      dsimp only
      rw [bind_apply]
      cases htree : Parse.identifierStatement n c with
      | refused why rest =>
          rw [htree] at hnamed
          exact fun hframes => hnamed (hroom hframes)
      | done tree? rest =>
          rw [htree] at hnamed
          cases tree? with
          | some tree => exact hnamed.1 rfl
          | none =>
              obtain rfl := hnamed.2 rfl
              exact hexpression
  | _ => exact hexpression

theorem identifierStatement_succ (h : LeavesStatements n) (hc : c.HasAtMost left) :
    (Parse.identifierStatement (n + 1) c).Ends
      (fun tree? rest => (tree?.isSome → rest.HasAtMost (left - 1)) ∧ (tree? = none → rest = c))
      (8 * left ≤ n + 1) := by
  simp only [Parse.identifierStatement]
  rw [bind_of_done (cursor_apply c)]
  refine ends_bind (leaves_expectKind (by simp) hc) fun name rest hrest => ?_
  rw [bind_of_done (current_apply rest)]
  cases rest.current.kind with
  | assign =>
      dsimp only
      rw [bind_of_done (advance_apply rest)]
      exact ends_bind (inner hrest.advance) fun value _ hlast => ⟨fun _ => hlast, by simp⟩
  | leftBracket =>
      dsimp only
      rw [bind_of_done (advance_apply rest)]
      refine ends_bind (inner hrest.advance) fun index _ hlast => ?_
      refine ends_bind (leaves_expectAs (by simp) _ hlast) fun _ last hlast => ?_
      have hlast := hlast.mono (Nat.sub_le _ _)
      rw [bind_of_done (isAt_apply _ last)]
      split
      · rw [bind_of_done (advance_apply last)]
        exact ends_bind (inner hlast.advance) fun value _ hend => ⟨fun _ => hend, by simp⟩
      · exact ⟨by simp, fun _ => rfl⟩
  | dot =>
      dsimp only
      rw [bind_of_done (advance_apply rest), bind_of_done (cursor_apply _)]
      split
      · rw [bind_of_done (advance_apply _)]
        refine ends_bind (((leaves_expressions n).arguments _ hrest.advance.advance).mono
          (Nat.sub_le _ _) (by omega)) fun args last hlast => ?_
        rw [bind_of_done (current_apply last)]
        split
        · exact ⟨by simp, fun _ => rfl⟩
        · exact ⟨fun _ => hlast, by simp⟩
      · exact ⟨by simp, fun _ => rfl⟩
  | leftParen =>
      refine ends_bind (leaves_parametersIfPresent hrest) fun params? last hlast => ?_
      rw [bind_of_done (isAt_apply _ last)]
      cases params? with
      | none => exact ⟨by simp, fun _ => rfl⟩
      | some params =>
          cases decide (last.current.kind = .leftBrace) with
          | false => exact ⟨by simp, fun _ => rfl⟩
          | true =>
              refine ends_bind (h.innerBlock (hlast.mono (Nat.sub_le _ _))) ?_
              exact fun body _ hend => ⟨fun _ => hend, by simp⟩
  | _ => exact ⟨by simp, fun _ => rfl⟩

/-- An expression in parentheses behind the first token of a statement, and what follows it. -/
theorem leaves_parens {next : Tree → Parse α} (words others : String)
    (hc : c.HasAtMost (left - 1))
    (hnext : ∀ value {d : Cursor}, d.HasAtMost (left - 1) →
      (next value d).Leaves (left - 1) (8 * left ≤ n + 1)) : ((do
        let _ ← expectAs .leftParen words
        let value ← Parse.expression n
        let _ ← expectAs .rightParen others
        next value : Parse α) c).Leaves (left - 1) (8 * left ≤ n + 1) := by
  refine leaves_bind (leaves_expectAs (by simp) _ hc) fun _ _ hopened => ?_
  refine leaves_bind (inner (hopened.mono (Nat.sub_le _ _))) fun value _ hlast => ?_
  refine leaves_bind (leaves_expectAs (by simp) _ hlast) fun _ _ hclosed => ?_
  exact hnext value (hclosed.mono (Nat.sub_le _ _))

/-- With one more frame the parsers of statements have room for one more way between tokens. -/
theorem succ (h : LeavesStatements n) : LeavesStatements (n + 1) where
  statement hc := h.statement_succ hc
  identifierStatement hc := h.identifierStatement_succ hc
  functionDeclaration hc := by
    simp only [Parse.functionDeclaration]
    refine leaves_bind (leaves_expectKeyword _ hc) fun _ _ hrest => ?_
    refine leaves_bind (leaves_expectAs (by simp) _ hrest) fun name _ hnamed => ?_
    refine leaves_bind (leaves_parameterList (hnamed.mono (Nat.sub_le _ _))) ?_
    intro params _ hlast
    exact leaves_bind (h.innerBlock (hlast.mono (Nat.sub_le _ _))) fun body _ hend => hend
  returnStatement hc := by
    simp only [Parse.returnStatement]
    refine leaves_bind (leaves_expectKind (by simp) hc) fun _ rest hrest => ?_
    rw [bind_of_done (current_apply rest)]
    split
    · exact hrest
    · exact leaves_bind (inner hrest) fun value _ hlast => hlast
  printStatement hc := by
    simp only [Parse.printStatement]
    refine leaves_bind (leaves_expectKeyword _ hc) fun _ _ hrest => ?_
    exact leaves_parens _ _ hrest fun value _ hlast => hlast
  ifStatement hc := by
    simp only [Parse.ifStatement]
    refine leaves_bind (leaves_expectKeyword _ hc) fun _ _ hrest => ?_
    refine leaves_parens _ _ hrest fun condition _ hlast => ?_
    refine leaves_bind (h.innerBlock hlast) fun body rest hbody => ?_
    rw [bind_of_done (isAtWord_apply _ _ rest)]
    split
    · rw [bind_of_done (advance_apply rest), bind_of_done (isAtWord_apply _ _ _)]
      split
      · refine leaves_bind ((h.ifStatement hbody.advance).mono (Nat.sub_le _ _) (by omega)) ?_
        exact fun inner _ hend => hend
      · exact leaves_bind (h.innerBlock hbody.advance) fun others _ hend => hend
    · exact hbody
  whileStatement hc := by
    simp only [Parse.whileStatement]
    refine leaves_bind (leaves_expectKeyword _ hc) fun _ _ hrest => ?_
    refine leaves_parens _ _ hrest fun condition _ hlast => ?_
    exact leaves_bind (h.innerBlock hlast) fun body _ hend => hend
  block {c left} hc := by
    have hpos := hc.pos
    simp only [Parse.block]
    refine leaves_bind (leaves_expectAs (by simp) _ hc) fun _ rest hrest => ?_
    rw [bind_of_done (cursor_apply rest)]
    refine leaves_bind (leaves_blockStatements (fun hd => ?_) _ hrest) fun statements _ hlast => ?_
    · exact (h.statement hd).mono (Nat.sub_le _ _) (by omega)
    · exact leaves_bind (leaves_expectKind (by simp) hlast) fun _ _ hend =>
        hend.mono (Nat.sub_le _ _)

end LeavesStatements

theorem leaves_statements (n : Nat) : LeavesStatements n := by
  induction n with
  | zero =>
      have hnone : ∀ {parser : Parse Tree} {c : Cursor} {left : Nat}, parser = tooDeep →
          c.HasAtMost left → (parser c).Leaves (left - 1) (8 * left ≤ 0) := by
        rintro _ c left rfl hc
        have hpos := hc.pos
        exact leaves_tooDeep (by omega)
      refine ⟨fun hc => (hnone statement_zero hc).mono (Nat.le_refl _) (by omega), fun hc => ?_,
        hnone functionDeclaration_zero, hnone returnStatement_zero, hnone printStatement_zero,
        hnone ifStatement_zero, hnone whileStatement_zero, fun hc => ?_⟩
      · have hpos := hc.pos
        rw [identifierStatement_zero]
        exact fun hroom => absurd hroom (by omega)
      · have hpos := hc.pos
        rw [block_zero]
        exact leaves_tooDeep (by omega)
  | succ n ih => exact ih.succ

/-- With room for the nesting a program is read without giving up. -/
theorem leaves_program (n : Nat) (hc : c.HasAtMost left) :
    (program n c).Leaves left (8 * left + 1 ≤ n) :=
  leaves_programStatements (fun hd => ((leaves_statements n).statement hd).mono (Nat.sub_le _ _) id)
    c.tokens hc

/-- Whether a parser takes a token whenever it is done in front of a closing token. -/
def Shortens (parser : Parse α) : Prop :=
  ∀ {c rest a}, c.IsClosed → parser c = .done a rest → rest.tokens.length < c.tokens.length

theorem shortens_of_leaves {parser : Parse α} {roomy : Nat → Prop}
    (h : ∀ {c : Cursor} {left}, c.HasAtMost left → (parser c).Leaves (left - 1) (roomy left)) :
    Shortens parser := by
  intro c rest a hc hdone
  have hleaves := h hc.hasAtMost
  rw [hdone] at hleaves
  exact Nat.lt_of_le_pred hc.hasAtMost.pos hleaves.length_le

theorem shortens_expectAs {kind : Token.Kind} (hkind : kind ≠ .finish) (words : String) :
    Shortens (expectAs kind words) :=
  @shortens_of_leaves _ _ (fun _ => True) fun hc => leaves_expectAs hkind words hc

theorem shortens_expression (n : Nat) : Shortens (expression n) :=
  shortens_of_leaves (leaves_expressions n).expression

theorem shortens_statement (n : Nat) : Shortens (statement n) :=
  shortens_of_leaves (leaves_statements n).statement

end Parse

end Sprig
