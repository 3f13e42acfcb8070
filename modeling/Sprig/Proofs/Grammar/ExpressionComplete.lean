import Sprig.Proofs.Grammar.Operator
import Sprig.Proofs.Parse.Expression

/-!
# Every expression of the grammar is parsed

A parser that stands in front of tokens that spell an expression of its form takes exactly these
tokens and makes that expression, provided the token behind them does not carry it on.

## Implementation notes

A chain of operators that group to the left is spelled from its last operator, but parsed from its
first operand. So for these forms the induction says more: as long as the token behind does not
carry on the operands, the parser has come to its loop with the chain as what is joined so far. For
a list of expressions it says where the first item ends, and that the loop takes the others.
-/

namespace Sprig.Grammar

open Parse

/-- The kinds of tokens that an expression without a sign in front of it starts with. -/
def startKinds : List Token.Kind :=
  [.leftParen, .number, .string, .keyword, .leftBracket, .identifier]

namespace Spells

variable {n : Nat} {form : Form} {ts : List Token} {e : Tree} {es : List Tree}

/-- An expression starts with a primary expression or, unless it is one or a power, with a sign. -/
theorem exists_head (h : Spells n form ts e) (hitems : form ≠ .items) :
    ∃ t us, ts = t :: us ∧
      (t.kind ∈ startKinds ∨ t.kind = .operator ∧ form ≠ .power ∧ form ≠ .primary) := by
  induction h with
  | @loosen n form ts e hprimary hitems _ ih =>
      obtain ⟨t, us, rfl, ht⟩ := ih (Form.tighter_ne_items hitems)
      refine ⟨t, us, rfl, ?_⟩
      rcases ht with ht | ⟨ht, -, hinner⟩
      · exact .inl ht
      · refine .inr ⟨ht, ?_, hprimary⟩
        rintro rfl
        exact hinner rfl
  | @join n form ls op rs kind word left right _ _ _ _ ih _ =>
      obtain ⟨t, us, rfl, ht⟩ := ih hitems
      exact ⟨t, us ++ op :: rs, rfl, ht⟩
  | negate hminus => exact ⟨_, _, rfl, .inr ⟨hminus.1, by simp, by simp⟩⟩
  | @raise n ls caret rs base exponent _ _ _ ih _ =>
      obtain ⟨t, us, rfl, ht⟩ := ih (by simp)
      refine ⟨t, us ++ caret :: rs, rfl, .inl ?_⟩
      rcases ht with ht | ⟨_, _, hinner⟩
      · exact ht
      · exact absurd rfl hinner
  | parens hleft => exact ⟨_, _, rfl, .inl (by simp [startKinds, hleft])⟩
  | number hkind => exact ⟨_, _, rfl, .inl (by simp [startKinds, hkind])⟩
  | string ht => exact ⟨_, _, rfl, .inl (by simp [startKinds, ht.1])⟩
  | yes ht => exact ⟨_, _, rfl, .inl (by simp [startKinds, ht.1])⟩
  | no ht => exact ⟨_, _, rfl, .inl (by simp [startKinds, ht.1])⟩
  | array hleft => exact ⟨_, _, rfl, .inl (by simp [startKinds, hleft])⟩
  | name ht => exact ⟨_, _, rfl, .inl (by simp [startKinds, ht.1])⟩
  | element ht => exact ⟨_, _, rfl, .inl (by simp [startKinds, ht.1])⟩
  | length ht => exact ⟨_, _, rfl, .inl (by simp [startKinds, ht.1])⟩
  | method ht => exact ⟨_, _, rfl, .inl (by simp [startKinds, ht.1])⟩
  | call ht => exact ⟨_, _, rfl, .inl (by simp [startKinds, ht.1])⟩
  | noItems => exact absurd rfl hitems
  | lastItem => exact absurd rfl hitems
  | moreItems => exact absurd rfl hitems

/-- A list of items that is not empty starts like its first item. -/
theorem exists_head_items (h : Spells n .items ts (.list (e :: es))) :
    ∃ t us, ts = t :: us ∧ (t.kind ∈ startKinds ∨ t.kind = .operator) := by
  cases h with
  | loosen _ hitems => exact absurd rfl hitems
  | lastItem item =>
      obtain ⟨t, us, rfl, ht⟩ := item.exists_head (by simp)
      exact ⟨t, us, rfl, ht.imp_right And.left⟩
  | @moreItems _ _ comma vs _ _ _ item =>
      obtain ⟨t, us, rfl, ht⟩ := item.exists_head (by simp)
      exact ⟨t, us ++ comma :: vs, rfl, ht.imp_right And.left⟩

/-- The last token of an expression behind other tokens is that of the expression. -/
theorem getLast?_append (h : Spells n form ts e) (hitems : form ≠ .items) (us : List Token) :
    (us ++ ts).getLast? = ts.getLast? := by
  obtain ⟨t, vs, rfl, -⟩ := h.exists_head hitems
  rw [List.getLast?_append, List.getLast?_cons, Option.some_or]

theorem getLast?_append_cons (h : Spells n form ts e) (hitems : form ≠ .items) (us : List Token)
    (t : Token) : (us ++ t :: ts).getLast? = ts.getLast? := by
  rw [← List.singleton_append, ← List.append_assoc, h.getLast?_append hitems]

theorem eq_nil_of_items_nil (h : Spells n .items ts (.list [])) : ts = [] := by
  cases h with
  | loosen _ hitems => exact absurd rfl hitems
  | noItems => rfl

end Spells

/-- How tokens that spell a form are parsed in front of a cursor. -/
structure Parsed (n : Nat) (form : Form) (ts : List Token) (e : Tree) : Prop where
  /-- An expression is parsed when the token behind it does not carry it on. -/
  whole : form ≠ .items → ∀ c, (∀ last ∈ ts.getLast?, Stops form last c.current) →
    form.parser n (c.prepend ts) = .done e c
  /-- A chain is joined so far when the token behind it does not carry on its operands. -/
  chain : form.operators ≠ [] → ∀ m, n = m + 1 → ∀ c,
    (∀ last ∈ ts.getLast?, Stops form.tighter last c.current) → ∃ budget : List Token,
      c.tokens.length ≤ budget.length ∧ form.parser n (c.prepend ts) =
        joinFrom (form.tighter.parser m) form.joins form.join budget e c
  /-- The items of a list are parsed one by one. -/
  items : form = .items → ∀ first rest, e = .list (first :: rest) → ∃ us vs, ts = us ++ vs ∧
    ∀ c, Ends .expression c.current → c.current.kind ≠ .comma →
      Parse.expression n ((c.prepend vs).prepend us) = .done first (c.prepend vs) ∧
      ∀ budget : List Token, vs.length ≤ budget.length →
        moreItems (Parse.expression n) budget (c.prepend vs) = .done rest c

namespace Parsed

variable {n : Nat} {form : Form} {ts : List Token} {e : Tree} {es : List Tree}

theorem of_whole (hoperators : form.operators = []) (hitems : form ≠ .items)
    (h : ∀ c, (∀ last ∈ ts.getLast?, Stops form last c.current) →
      form.parser n (c.prepend ts) = .done e c) : Parsed n form ts e where
  whole _ := h
  chain hne := absurd hoperators hne
  items hform := absurd hform hitems

theorem of_primary (h : ∀ c, (∀ last ∈ ts.getLast?, Stops .primary last c.current) →
    primary n (c.prepend ts) = .done e c) : Parsed n .primary ts e :=
  of_whole rfl (by simp) h

theorem of_chain (hoperators : form.operators ≠ []) (hts : ts ≠ [])
    (h : ∀ c, (∀ last ∈ ts.getLast?, Stops form.tighter last c.current) →
      ∃ budget : List Token, c.tokens.length ≤ budget.length ∧
        form.parser (n + 1) (c.prepend ts) =
          joinFrom (form.tighter.parser n) form.joins form.join budget e c) :
    Parsed (n + 1) form ts e where
  whole _ c hstops := by
    obtain ⟨budget, -, hloop⟩ := h c fun last hlast => (hstops last hlast).tighter
    have hlast := hstops _ (List.getLast?_eq_some_getLast hts)
    rw [hloop, joinFrom_of_not_joins (hlast.joins form (Nat.le_refl _))]
  chain _ m hm c hstops := by
    obtain rfl : n = m := by omega
    exact h c hstops
  items hform := absurd (hform ▸ rfl) hoperators

theorem expression (h : Parsed n .expression ts e) (c : Cursor)
    (hends : Ends .expression c.current) : Parse.expression n (c.prepend ts) = .done e c :=
  h.whole (by simp) c fun last _ => .of_ends hends last

/-- An expression in front of a closing bracket is taken up to the bracket. -/
theorem expression_closed (h : Parsed n .expression ts e) {right : Token}
    (hright : right.kind ∈ closerKinds) (c : Cursor) :
    Parse.expression n ((c.prepend [right]).prepend ts) = .done e (c.prepend [right]) :=
  h.expression _ (.of_closer hright _)

/-- Items in front of a closing bracket are taken up to the bracket. -/
theorem itemsUntil_closed (h : Parsed n .items ts (.list es))
    (hspells : Spells n .items ts (.list es)) {right : Token} {close : Token.Kind}
    (hclose : close = .rightParen ∨ close = .rightBracket)
    (hright : right.kind = close) (c : Cursor) :
    itemsUntil close (Parse.expression n) ((c.prepend [right]).prepend ts) =
      .done es (c.prepend [right]) := by
  cases es with
  | nil =>
      obtain rfl := hspells.eq_nil_of_items_nil
      exact itemsUntil_of_close hright
  | cons e es =>
      have hcloser : right.kind ∈ closerKinds := by
        rcases hclose with rfl | rfl <;> simp [closerKinds, hright]
      have hcomma : right.kind ≠ .comma := by
        rcases hclose with rfl | rfl <;> simp [hright]
      obtain ⟨t, ws, hts, ht⟩ := hspells.exists_head_items
      obtain ⟨us, vs, htokens, hitem⟩ := h.items rfl e es rfl
      obtain ⟨hfirst, hmore⟩ := hitem (c.prepend [right]) (.of_closer hcloser _) hcomma
      rw [htokens, Cursor.prepend_append]
      refine itemsUntil_of_item ?_ hfirst (hmore _ (by simp))
      rw [← Cursor.prepend_append, ← htokens, hts, Cursor.current_prepend_cons]
      rintro rfl
      rcases hclose with hclose | hclose <;> simp [startKinds, hclose] at ht

/-- What is parsed in the next tighter form is parsed in a form: there is no operator behind it. -/
theorem of_tighter {n : Nat} {form : Form} {ts : List Token} {e : Tree} (hprimary : form ≠ .primary)
    (hitems : form ≠ .items) (hspells : Spells n form.tighter ts e)
    (h : Parsed n form.tighter ts e) : Parsed (n + 1) form ts e := by
  have htighter := Form.tighter_ne_items hitems
  by_cases hoperators : form.operators = []
  · refine .of_whole hoperators hitems ?_
    intro c hstops
    have hinner := h.whole htighter c fun last hlast => (hstops last hlast).tighter
    cases form with
    | expression =>
        simp only [Form.parser, Parse.expression]
        exact hinner
    | negation =>
        obtain ⟨t, us, rfl, ht⟩ := hspells.exists_head htighter
        refine (unary_of_not_operator ?_).trans hinner
        intro hkind
        rw [Cursor.current_prepend_cons] at hkind
        rcases ht with ht | ⟨-, hpower, -⟩
        · simp [startKinds, hkind] at ht
        · exact hpower rfl
    | power =>
        obtain ⟨t, us, rfl, -⟩ := hspells.exists_head htighter
        have hlast := hstops _ (List.getLast?_eq_some_getLast (by simp))
        exact exponent_of_not_power hinner (hlast.raises (Nat.le_refl _))
    | _ => simp_all [Form.operators]
  · obtain ⟨t, us, rfl, -⟩ := hspells.exists_head htighter
    refine .of_chain hoperators (by simp) ?_
    intro c hstops
    rw [Form.parser_succ hoperators, leftGrouped_of_done (h.whole htighter c hstops)]
    exact ⟨c.tokens, Nat.le_refl _, rfl⟩

/-- A chain goes on with an operator and an operand. -/
theorem of_join {n : Nat} {form : Form} {ls rs : List Token} {op : Token} {kind : Token.Kind}
    {word : String} {left right : Tree} (hmem : (kind, word) ∈ form.operators)
    (hop : op.Is kind word) (hfront : Parsed (n + 1) form ls left)
    (hspells : Spells n form.tighter rs right) (hback : Parsed n form.tighter rs right) :
    Parsed (n + 1) form (ls ++ op :: rs) (form.node word left right) := by
  have hoperators : form.operators ≠ [] := List.ne_nil_of_mem hmem
  have htighter := Form.tighter_ne_items (Form.ne_items_of_operators hoperators)
  have hfinish : op.kind ≠ .finish := by
    rcases Form.kind_of_operator hmem hop with hkind | hkind <;> simp [hkind]
  refine .of_chain hoperators (by simp) ?_
  intro c hstops
  rw [hspells.getLast?_append_cons htighter] at hstops
  -- The loop of the chain in front has come to the operator, and goes on for one round.
  obtain ⟨budget, hbudget, hloop⟩ :=
    hfront.chain hoperators n rfl (c.prepend (op :: rs))
      fun last _ => .of_ends (.of_operator hmem hop) last
  cases budget with
  | nil => simp [Cursor.tokens] at hbudget
  | cons t budget =>
      refine ⟨budget, ?_, ?_⟩
      · simp only [Cursor.tokens_prepend, List.length_append, List.length_cons] at hbudget
        omega
      · rw [Cursor.prepend_append, hloop,
          joinFrom_cons ((Form.joins_operator hmem hop form).mpr rfl) hfinish
            (hback.whole htighter c hstops),
          hop.2, show (Token.Literal.text word).tree = .text word from rfl, Form.join_text]

end Parsed

/-- Tokens that spell an expression are parsed as that expression. -/
theorem Spells.parsed {n : Nat} {form : Form} {ts : List Token} {e : Tree}
    (h : Spells n form ts e) : Parsed n form ts e := by
  induction h with
  | loosen hprimary hitems inner ih => exact .of_tighter hprimary hitems inner ih
  | join _ hmem hop back ihfront ihback => exact .of_join hmem hop ihfront back ihback
  | @negate n minus ts e hminus operand ih =>
      refine .of_whole rfl (by simp) ?_
      intro c hstops
      rw [← List.nil_append (minus :: ts), operand.getLast?_append_cons (by simp)] at hstops
      exact unary_minus hminus (ih.whole (by simp) c hstops)
  | raise _ hcaret back ihfront ihback =>
      refine .of_whole rfl (by simp) ?_
      intro c hstops
      rw [back.getLast?_append_cons (by simp)] at hstops
      rw [Cursor.prepend_append]
      exact exponent_power
        (ihfront.whole (by simp) _ fun last _ => .of_ends (.of_power hcaret.1) last) hcaret.1
        (ihback.whole (by simp) c fun last hlast => (hstops last hlast).negation)
  | parens hleft _ hright ih =>
      refine .of_primary fun c _ => ?_
      exact primary_parens hleft (ih.expression_closed (by simp [closerKinds, hright]) c) hright
  | number hkind hliteral => exact .of_primary fun c _ => primary_number hkind hliteral
  | string ht => exact .of_primary fun c _ => primary_string ht
  | yes ht => exact .of_primary fun c _ => primary_true ht
  | no ht => exact .of_primary fun c _ => primary_false ht
  | array hleft inner hright ih =>
      refine .of_primary fun c _ => ?_
      exact primary_array hleft (ih.itemsUntil_closed inner (.inr rfl) hright c) hright
  | name ht =>
      refine .of_primary fun c hstops => ?_
      rw [primary_identifier ht.1]
      exact identifierExpression_name ht ((hstops _ rfl).opens ht.1)
  | element ht hleft _ hright ih =>
      refine .of_primary fun c _ => ?_
      rw [primary_identifier ht.1]
      exact identifierExpression_element ht hleft
        (ih.expression_closed (by simp [closerKinds, hright]) c) hright
  | length ht hdot hmember =>
      refine .of_primary fun c hstops => ?_
      rw [primary_identifier ht.1]
      refine identifierExpression_length ht hdot hmember ?_
      rcases hmember with hmember | hmember
      · exact ((hstops _ rfl).opens hmember.1).1
      · exact (hstops _ rfl).calls hmember
  | method ht hdot hmember hleft args hright ih =>
      refine .of_primary fun c _ => ?_
      rw [primary_identifier ht.1]
      exact identifierExpression_method ht hdot hmember hleft
        (arguments_parens hleft (ih.itemsUntil_closed args (.inl rfl) hright c) hright)
  | call ht hleft args hright ih =>
      refine .of_primary fun c _ => ?_
      rw [primary_identifier ht.1]
      exact identifierExpression_call ht hleft
        (arguments_parens hleft (ih.itemsUntil_closed args (.inl rfl) hright c) hright)
  | noItems =>
      refine ⟨fun h => absurd rfl h, fun h => absurd rfl h, ?_⟩
      rintro - first rest ⟨⟩
  | @lastItem n ts e _ ih =>
      refine ⟨fun h => absurd rfl h, fun h => absurd rfl h, ?_⟩
      rintro - first rest ⟨⟩
      refine ⟨ts, [], by simp, fun c hends hcomma => ⟨ih.expression c hends, ?_⟩⟩
      intro budget _
      exact moreItems_of_not_comma hcomma budget
  | @moreItems n ts comma us e f es _ hcomma _ ihitem ihrest =>
      refine ⟨fun h => absurd rfl h, fun h => absurd rfl h, ?_⟩
      rintro - first rest ⟨⟩
      obtain ⟨vs, ws, rfl, hrest⟩ := ihrest.items rfl f es rfl
      refine ⟨ts, comma :: vs ++ ws, by simp, fun c hends hend => ?_⟩
      obtain ⟨hfirst, hmore⟩ := hrest c hends hend
      constructor
      · exact ihitem.expression _ (.of_closer (by simp [closerKinds, hcomma]) _)
      · intro budget hbudget
        cases budget with
        | nil => simp at hbudget
        | cons t budget =>
            refine moreItems_cons hcomma hfirst (hmore budget ?_) t
            simp only [List.length_append, List.length_cons] at hbudget
            omega

end Sprig.Grammar
