import Sprig.Proofs.Grammar.Expression
import Sprig.Proofs.Parse.Step

/-!
# The parsers of expressions on given tokens

For each way in which an expression can go on, what its parser makes of the tokens when the parsers
of the parts make something of theirs. Loops are told by what one round does.
-/

namespace Sprig.Parse

open Grammar

variable {n : Nat} {c : Cursor} {t left right : Token} {ts us vs : List Token} {e : Tree}
  {es : List Tree} {x : String}

theorem fits_of_is {kind : Token.Kind} (h : t.Is kind x) :
    fits kind (some (.text x)) t = true := by
  rw [fits_word, decide_eq_true_eq]
  exact h

theorem fits_of_not_is {kind : Token.Kind} (h : ¬ t.Is kind x) :
    fits kind (some (.text x)) t = false := by
  rw [fits_word, decide_eq_false_iff_not]
  exact h

section Loops

variable {operand item : Parse Tree} {joins : Token → Bool} {join : Tree → Tree → Tree → Tree}
  {start : Cursor} {first : Tree}

theorem leftGrouped_of_done (h : operand start = .done first c) :
    leftGrouped operand joins join start = joinFrom operand joins join c.tokens first c := by
  rw [leftGrouped, bind_of_done h, bind_of_done (cursor_apply c)]

/-- A loop stops at a token that is no operator of its form. -/
theorem joinFrom_of_not_joins (h : joins c.current = false) (budget : List Token) (first : Tree) :
    joinFrom operand joins join budget first c = .done first c := by
  cases budget with
  | nil => rfl
  | cons u budget =>
      rw [joinFrom, bind_of_done (current_apply c), h, if_neg (by simp)]
      rfl

/-- A loop goes on at an operator of its form. -/
theorem joinFrom_cons {op : Token} {second : Tree} (hjoins : joins op = true)
    (hop : op.kind ≠ .finish) (h : operand (c.prepend ts) = .done second c) (u : Token)
    (budget : List Token) (first : Tree) :
    joinFrom operand joins join (u :: budget) first (c.prepend (op :: ts)) =
      joinFrom operand joins join budget (join op.literal.tree first second) c := by
  rw [joinFrom, bind_of_done (current_apply _), Cursor.current_prepend_cons, if_pos hjoins,
    bind_of_done (advance_prepend_cons hop c ts), bind_of_done h]

/-- A list of items ends at a token that is no comma. -/
theorem moreItems_of_not_comma (h : c.current.kind ≠ .comma) (budget : List Token) :
    moreItems item budget c = .done [] c := by
  cases budget with
  | nil => rfl
  | cons u budget =>
      rw [moreItems, bind_of_done (isAt_apply _ _), decide_eq_false h, if_neg (by simp)]
      rfl

theorem moreItems_cons {comma : Token} (hcomma : comma.kind = .comma)
    (hitem : item ((c.prepend vs).prepend us) = .done e (c.prepend vs)) {budget : List Token}
    (hrest : moreItems item budget (c.prepend vs) = .done es c) (u : Token) :
    moreItems item (u :: budget) (c.prepend (comma :: us ++ vs)) = .done (e :: es) c := by
  rw [moreItems, bind_of_done (isAt_apply _ _), List.cons_append, Cursor.current_prepend_cons,
    decide_eq_true hcomma, if_pos rfl,
    bind_of_done (advance_prepend_cons (by simp [hcomma]) c (us ++ vs)), Cursor.prepend_append,
    bind_of_done hitem, bind_of_done hrest]
  rfl

/-- No items stand in front of the closing token. -/
theorem itemsUntil_of_close {close : Token.Kind} (h : c.current.kind = close) :
    itemsUntil close item c = .done [] c := by
  rw [itemsUntil, bind_of_done (isAt_apply _ _), decide_eq_true h, if_pos rfl]
  rfl

theorem itemsUntil_of_item {close : Token.Kind} (h : start.current.kind ≠ close)
    (hitem : item start = .done e (c.prepend vs))
    (hrest : moreItems item (c.prepend vs).tokens (c.prepend vs) = .done es c) :
    itemsUntil close item start = .done (e :: es) c := by
  rw [itemsUntil, bind_of_done (isAt_apply _ _), decide_eq_false h, if_neg (by simp),
    bind_of_done hitem, bind_of_done (cursor_apply _), bind_of_done hrest]
  rfl

end Loops

theorem unary_minus (ht : t.Is .operator "-") (h : unary n (c.prepend ts) = .done e c) :
    unary (n + 1) (c.prepend (t :: ts)) = .done (.unary (.text "-") e) c := by
  simp only [unary]
  rw [bind_of_done (isAtWord_apply _ _ _), Cursor.current_prepend_cons, if_pos (fits_of_is ht),
    bind_of_done (advance_prepend_cons (by simp [ht.1]) c ts), bind_of_done h]
  rfl

theorem unary_of_not_operator {start : Cursor} (h : start.current.kind ≠ .operator) :
    unary (n + 1) start = exponent n start := by
  simp only [unary]
  rw [bind_of_done (isAtWord_apply _ _ _), fits_of_not_is (fun hminus => h hminus.1),
    if_neg (by simp)]

theorem exponent_of_not_power {start : Cursor} (h : primary n start = .done e c)
    (hc : c.current.kind ≠ .power) : exponent (n + 1) start = .done e c := by
  simp only [exponent]
  rw [bind_of_done h, bind_of_done (isAt_apply _ _), decide_eq_false hc, if_neg (by simp)]
  rfl

theorem exponent_power {start : Cursor} {base : Tree}
    (hbase : primary n start = .done base (c.prepend (t :: ts))) (ht : t.kind = .power)
    (h : unary n (c.prepend ts) = .done e c) :
    exponent (n + 1) start = .done (.binary (.text "^") base e) c := by
  simp only [exponent]
  rw [bind_of_done hbase, bind_of_done (isAt_apply _ _), Cursor.current_prepend_cons,
    decide_eq_true ht, if_pos rfl, bind_of_done (advance_prepend_cons (by simp [ht]) c ts),
    bind_of_done h]
  rfl

theorem primary_parens (hleft : left.kind = .leftParen)
    (h : expression n ((c.prepend [right]).prepend ts) = .done e (c.prepend [right]))
    (hright : right.kind = .rightParen) :
    primary (n + 1) (c.prepend (left :: ts ++ [right])) = .done e c := by
  simp only [primary]
  rw [bind_of_done (current_apply _), List.cons_append, Cursor.current_prepend_cons]
  simp only [hleft]
  rw [bind_of_done (advance_prepend_cons (by simp [hleft]) c _), Cursor.prepend_append,
    bind_of_done h, bind_of_done (expectAs_prepend_cons hright (by simp) _ c [])]
  rfl

theorem primary_number {v : Float} (hkind : t.kind = .number) (hliteral : t.literal = .number v) :
    primary (n + 1) (c.prepend [t]) = .done (.number (.scalar (.number v))) c := by
  simp only [primary]
  rw [bind_of_done (current_apply _), Cursor.current_prepend_cons]
  simp only [hkind]
  rw [bind_of_done (advance_prepend_cons (by simp [hkind]) c []), hliteral]
  rfl

theorem primary_string (ht : t.Is .string x) :
    primary (n + 1) (c.prepend [t]) = .done (.string (.text x)) c := by
  simp only [primary]
  rw [bind_of_done (current_apply _), Cursor.current_prepend_cons]
  simp only [ht.1]
  rw [bind_of_done (advance_prepend_cons (by simp [ht.1]) c []), ht.2]
  rfl

theorem primary_true (ht : t.Is .keyword "true") :
    primary (n + 1) (c.prepend [t]) = .done (.boolean (.scalar (.boolean true))) c := by
  simp only [primary]
  rw [bind_of_done (current_apply _), Cursor.current_prepend_cons]
  simp only [ht.1, ht.2, if_true]
  rw [bind_of_done (advance_prepend_cons (by simp [ht.1]) c [])]
  rfl

theorem primary_false (ht : t.Is .keyword "false") :
    primary (n + 1) (c.prepend [t]) = .done (.boolean (.scalar (.boolean false))) c := by
  simp only [primary]
  rw [bind_of_done (current_apply _), Cursor.current_prepend_cons]
  simp only [ht.1]
  rw [if_neg (by simp [ht.2]), if_pos ht.2,
    bind_of_done (advance_prepend_cons (by simp [ht.1]) c [])]
  rfl

theorem primary_array (hleft : left.kind = .leftBracket)
    (h : itemsUntil .rightBracket (expression n) ((c.prepend [right]).prepend ts) =
      .done es (c.prepend [right]))
    (hright : right.kind = .rightBracket) :
    primary (n + 2) (c.prepend (left :: ts ++ [right])) = .done (.arrayLiteral (.list es)) c := by
  simp only [primary]
  rw [bind_of_done (current_apply _), List.cons_append, Cursor.current_prepend_cons]
  simp only [hleft, arrayLiteral]
  rw [bind_of_done (expectKind_prepend_cons hleft (by simp) c _), Cursor.prepend_append,
    bind_of_done h, bind_of_done (expectAs_prepend_cons hright (by simp) _ c [])]
  rfl

/-- An expression that starts with a name is left to a parser of its own. -/
theorem primary_identifier {start : Cursor} (h : start.current.kind = .identifier) :
    primary (n + 1) start = identifierExpression n start := by
  simp only [primary]
  rw [bind_of_done (current_apply _), h]

/-- The arguments of a call are taken with their parentheses. -/
theorem arguments_parens (hleft : left.kind = .leftParen)
    (h : itemsUntil .rightParen (expression n) ((c.prepend [right]).prepend ts) =
      .done es (c.prepend [right]))
    (hright : right.kind = .rightParen) (words : String) :
    arguments (n + 1) words (c.prepend (left :: ts ++ [right])) = .done es c := by
  simp only [arguments]
  rw [List.cons_append, bind_of_done (expectAs_prepend_cons hleft (by simp) words c _),
    Cursor.prepend_append, bind_of_done h,
    bind_of_done (expectAs_prepend_cons hright (by simp) _ c [])]
  rfl

theorem identifierExpression_name (ht : t.Is .identifier x)
    (hc : c.current.kind ≠ .leftParen ∧ c.current.kind ≠ .leftBracket ∧ c.current.kind ≠ .dot) :
    identifierExpression (n + 1) (c.prepend [t]) = .done (.variable (.text x)) c := by
  obtain ⟨hparen, hbracket, hdot⟩ := hc
  simp only [identifierExpression]
  rw [bind_of_done (expectKind_prepend_cons ht.1 (by simp) c []),
    bind_of_done (current_apply _), ht.2, Cursor.prepend_nil]
  cases hkind : c.current.kind with
  | leftParen => exact absurd hkind hparen
  | leftBracket => exact absurd hkind hbracket
  | dot => exact absurd hkind hdot
  | _ => rfl

theorem identifierExpression_element (ht : t.Is .identifier x) (hleft : left.kind = .leftBracket)
    (h : expression n ((c.prepend [right]).prepend ts) = .done e (c.prepend [right]))
    (hright : right.kind = .rightBracket) :
    identifierExpression (n + 1) (c.prepend (t :: left :: ts ++ [right])) =
      .done (.elementAccess (.text x) e) c := by
  simp only [identifierExpression]
  rw [List.cons_append, bind_of_done (expectKind_prepend_cons ht.1 (by simp) c _),
    bind_of_done (current_apply _), List.cons_append, Cursor.current_prepend_cons, ht.2]
  simp only [hleft]
  rw [bind_of_done (advance_prepend_cons (by simp [hleft]) c _), Cursor.prepend_append,
    bind_of_done h, bind_of_done (expectAs_prepend_cons hright (by simp) _ c [])]
  rfl

theorem identifierExpression_length {dot member : Token} (ht : t.Is .identifier x)
    (hdot : dot.kind = .dot) (hmember : Member member "length")
    (hc : c.current.kind ≠ .leftParen) :
    identifierExpression (n + 1) (c.prepend [t, dot, member]) =
      .done (.arrayProperty (.text x) (.text "length")) c := by
  have hkind := hmember.kind_eq
  have hliteral := hmember.literal_eq
  simp only [identifierExpression]
  rw [bind_of_done (expectKind_prepend_cons ht.1 (by simp) c _),
    bind_of_done (current_apply _), Cursor.current_prepend_cons, ht.2]
  simp only [hdot]
  rw [bind_of_done (advance_prepend_cons (by simp [hdot]) c _), bind_of_done (current_apply _),
    Cursor.current_prepend_cons, if_pos hkind,
    bind_of_done (advance_prepend_cons (by rcases hkind with h | h <;> simp [h]) c []),
    bind_of_done (isAt_apply _ _), Cursor.prepend_nil, decide_eq_false hc, if_pos ⟨hliteral, rfl⟩,
    hliteral]
  rfl

theorem identifierExpression_method {dot member : Token} {m : String} (ht : t.Is .identifier x)
    (hdot : dot.kind = .dot) (hmember : Member member m) (hleft : left.kind = .leftParen)
    (h : ∀ words, arguments n words (c.prepend (left :: ts)) = .done es c) :
    identifierExpression (n + 1) (c.prepend (t :: dot :: member :: left :: ts)) =
      .done (.methodExpression (.text x) (.text m) (.list es)) c := by
  have hkind := hmember.kind_eq
  have hliteral := hmember.literal_eq
  simp only [identifierExpression]
  rw [bind_of_done (expectKind_prepend_cons ht.1 (by simp) c _),
    bind_of_done (current_apply _), Cursor.current_prepend_cons, ht.2]
  simp only [hdot]
  rw [bind_of_done (advance_prepend_cons (by simp [hdot]) c _), bind_of_done (current_apply _),
    Cursor.current_prepend_cons, if_pos hkind,
    bind_of_done (advance_prepend_cons (by rcases hkind with h | h <;> simp [h]) c _),
    bind_of_done (isAt_apply _ _), Cursor.current_prepend_cons, decide_eq_true hleft,
    if_neg (by simp), bind_of_done (h _), hliteral]
  rfl

theorem identifierExpression_call (ht : t.Is .identifier x) (hleft : left.kind = .leftParen)
    (h : ∀ words, arguments n words (c.prepend (left :: ts)) = .done es c) :
    identifierExpression (n + 1) (c.prepend (t :: left :: ts)) =
      .done (.call (.text x) (.list es)) c := by
  simp only [identifierExpression]
  rw [bind_of_done (expectKind_prepend_cons ht.1 (by simp) c _),
    bind_of_done (current_apply _), Cursor.current_prepend_cons, ht.2]
  simp only [hleft]
  rw [bind_of_done (h _)]
  rfl

end Sprig.Parse
