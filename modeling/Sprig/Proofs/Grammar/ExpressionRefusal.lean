import Sprig.Proofs.Grammar.Begin

/-!
# What the parser of an expression takes before it refuses

When the parser of an expression refuses a token, the tokens it took up to there begin an
expression of its form.

## Implementation notes

Giving up because of the nesting is no refusal of a token, so nothing is said about it.
-/

namespace Sprig.Grammar

open Parse Cursor

variable {α β : Type}

/-- Where the step refuses a token, the tokens from the start up to that one have a property. -/
def RefusesBehind (B : List Token → Prop) (start : Cursor) (s : Step α) : Prop :=
  ∀ what rest, s = .refused (.expected what) rest → ∃ us, Takes start us rest ∧ B us

/-- Where the parser refuses a token, the tokens that it took have a property. -/
def Viable (parser : Parse α) (B : List Token → Prop) : Prop :=
  ∀ ⦃c⦄, c.IsLexical → RefusesBehind B c (parser c)

section Steps

variable {B B' : List Token → Prop} {start c : Cursor} {ls : List Token} {parser : Parse α}

theorem refusesBehind_done (a : α) (rest : Cursor) :
    RefusesBehind B start (.done a rest) := fun _ _ h => by cases h

theorem refusesBehind_refuse (hls : Takes start ls c) (hB : B ls) (what : Expectation) :
    RefusesBehind B start (refuse what c : Step α) := by
  rintro _ _ ⟨⟩
  exact ⟨ls, hls, hB⟩

theorem refusesBehind_expect (hls : Takes start ls c) (hB : B ls) (kind : Token.Kind)
    (literal? : Option Token.Literal) (what : Expectation) :
    RefusesBehind B start (expect kind literal? what c) := by
  unfold expect
  split
  · exact refusesBehind_done _ _
  · exact refusesBehind_refuse hls hB what

theorem refusesBehind_expectAs (hls : Takes start ls c) (hB : B ls) (kind : Token.Kind)
    (words : String) : RefusesBehind B start (expectAs kind words c) :=
  refusesBehind_expect hls hB kind _ _

theorem refusesBehind_expectKind (hls : Takes start ls c) (hB : B ls) (kind : Token.Kind) :
    RefusesBehind B start (expectKind kind c) := refusesBehind_expect hls hB kind _ _

theorem refusesBehind_bind {first : Parse α} {next : α → Parse β}
    (h : RefusesBehind B start (first c))
    (hnext : ∀ a mid, first c = .done a mid → RefusesBehind B start (next a mid)) :
    RefusesBehind B start ((first >>= next) c) := by
  rw [bind_apply]
  intro what rest hrefused
  cases hfirst : first c with
  | done a mid =>
      rw [hfirst] at hrefused
      exact hnext a mid hfirst what rest hrefused
  | refused why mid =>
      rw [hfirst] at hrefused
      obtain ⟨rfl, rfl⟩ := Step.refused.inj hrefused
      exact h what mid hfirst

/-- What a step takes, it takes behind the tokens in front of it. -/
theorem RefusesBehind.behind {s : Step α} (h : RefusesBehind B' c s) (hls : Takes start ls c)
    (hB : ∀ us, B' us → B (ls ++ us)) : RefusesBehind B start s := by
  intro what rest hrefused
  obtain ⟨us, hus, hbegins⟩ := h what rest hrefused
  exact ⟨ls ++ us, hls.trans hus, hB us hbegins⟩

theorem Viable.behind (h : Viable parser B') (hls : Takes start ls c)
    (hB : ∀ us, B' us → B (ls ++ us)) : RefusesBehind B start (parser c) :=
  (h hls.lexical).behind hls hB

theorem Viable.mono (h : Viable parser B') (hB : ∀ us, B' us → B us) : Viable parser B :=
  fun _ hc => h.behind (.refl hc) hB

theorem viable_tooDeep : Viable (tooDeep : Parse α) B := by
  rintro c - what rest h
  cases h

end Steps

section Loops

variable {n : Nat} {form : Form} {start c : Cursor} {ls : List Token} {first : Tree}

theorem refusesBehind_joinFrom (hoperators : form.operators ≠ [])
    (hoperand : Viable (form.tighter.parser n) form.tighter.Begins) (budget : List Token)
    (hls : Takes start ls c) (hfirst : Spells (n + 1) form ls first) :
    RefusesBehind form.Begins start
      (joinFrom (form.tighter.parser n) form.joins form.join budget first c) := by
  have htighter := Form.tighter_ne_items (Form.ne_items_of_operators hoperators)
  induction budget generalizing ls first c with
  | nil => exact refusesBehind_done _ _
  | cons t budget ih =>
      rw [joinFrom, bind_of_done (current_apply c)]
      cases hjoins : form.joins c.current with
      | false => exact refusesBehind_done _ _
      | true =>
          have hfinish : c.current.kind ≠ .finish := by
            intro hkind
            rw [Form.joins_of_kind (by simp [hkind]) (by simp [hkind])] at hjoins
            cases hjoins
          obtain ⟨hop, hlexical⟩ := hls.lexical.takes_advance hfinish
          obtain ⟨⟨kind, word⟩, hmem, hkind, hliteral⟩ := (Form.joins_iff hlexical form).mp hjoins
          rw [if_pos rfl, bind_of_done (advance_apply c)]
          refine refusesBehind_bind (hoperand.behind (hls.trans hop) fun us hus => ?_) ?_
          · rw [List.append_assoc, List.singleton_append]
            exact .join hfirst hmem ⟨hkind, hliteral⟩ hus
          · intro right mid hright
            obtain ⟨rs, hrs, hwhole⟩ := sound_forms n htighter hop.lexical hright
            rw [hliteral, show (Token.Literal.text word).tree = .text word from rfl,
              Form.join_text]
            have hjoin := Spells.join hfirst hmem ⟨hkind, hliteral⟩ hwhole.spells
            rw [← List.singleton_append, ← List.append_assoc] at hjoin
            exact ih ((hls.trans hop).trans hrs) hjoin

theorem viable_leftGrouped (hoperators : form.operators ≠ [])
    (hoperand : Viable (form.tighter.parser n) form.tighter.Begins) :
    Viable (form.parser (n + 1)) form.Begins := by
  have hitems := Form.ne_items_of_operators hoperators
  have hprimary : form ≠ .primary := by
    rintro rfl
    exact hoperators rfl
  intro c hc
  rw [Form.parser_succ hoperators, leftGrouped]
  refine refusesBehind_bind (hoperand.behind (.refl hc) fun us => .loosen hprimary hitems) ?_
  intro first mid hfirst
  obtain ⟨ls, hls, hwhole⟩ := sound_forms n (Form.tighter_ne_items hitems) hc hfirst
  rw [bind_of_done (cursor_apply mid)]
  exact refusesBehind_joinFrom hoperators hoperand _ hls (.loosen hprimary hitems hwhole.spells)

theorem refusesBehind_moreItems (hitem : Viable (Parse.expression n) Form.expression.Begins)
    (budget : List Token) (hls : Takes start ls c) (hfirst : Spells n .expression ls first) :
    RefusesBehind BeginsItems start (moreItems (Parse.expression n) budget c) := by
  induction budget generalizing start ls first c with
  | nil => exact refusesBehind_done _ _
  | cons t budget ih =>
      rw [moreItems, bind_of_done (isAt_apply _ c)]
      split
      · next hcomma =>
        rw [decide_eq_true_eq] at hcomma
        obtain ⟨hseparated, -⟩ := hls.lexical.takes_advance (by simp [hcomma])
        have hbehind : ∀ us, BeginsItems us → BeginsItems (ls ++ [c.current] ++ us) := by
          intro us hus
          rw [List.append_assoc]
          exact .more hfirst hcomma hus
        rw [bind_of_done (advance_apply c)]
        refine refusesBehind_bind (hitem.behind (hls.trans hseparated) fun us hus =>
          hbehind us (.of_expression hus)) fun second mid hsecond => ?_
        obtain ⟨us, hus, hwhole⟩ := sound_expression n hseparated.lexical hsecond
        refine refusesBehind_bind ?_ fun _ _ _ => refusesBehind_done _ _
        exact (ih hus hwhole.spells).behind (hls.trans hseparated) hbehind
      · exact refusesBehind_done _ _

theorem viable_itemsUntil (hitem : Viable (Parse.expression n) Form.expression.Begins)
    (close : Token.Kind) :
    Viable (itemsUntil close (Parse.expression n)) Form.items.Begins := by
  intro c hc
  rw [itemsUntil, bind_of_done (isAt_apply _ c)]
  split
  · exact refusesBehind_done _ _
  · refine refusesBehind_bind (hitem.behind (.refl hc) fun us hus =>
      (BeginsItems.of_expression hus).begins) fun first mid hfirst => ?_
    obtain ⟨ls, hls, hwhole⟩ := sound_expression n hc hfirst
    rw [bind_of_done (cursor_apply mid)]
    refine refusesBehind_bind ?_ fun _ _ _ => refusesBehind_done _ _
    exact (refusesBehind_moreItems hitem _ hls hwhole.spells).behind (.refl hc)
      fun us => BeginsItems.begins

end Loops

section Levels

variable {n : Nat}

theorem viable_unary (hnegation : Viable (unary n) Form.negation.Begins)
    (hpower : Viable (exponent n) Form.power.Begins) :
    Viable (unary (n + 1)) Form.negation.Begins := by
  intro c hc
  simp only [unary]
  rw [bind_of_done (isAtWord_apply _ _ c)]
  split
  · next hminus =>
    rw [fits_word, decide_eq_true_eq] at hminus
    obtain ⟨htaken, -⟩ := hc.takes_advance (by simp [hminus.1])
    rw [bind_of_done (advance_apply c)]
    exact refusesBehind_bind (hnegation.behind htaken fun us => .negate hminus)
      fun _ _ _ => refusesBehind_done _ _
  · exact hpower.behind (.refl hc) fun us h => .loosen (by simp) (by simp) h

theorem viable_exponent (hprimary : Viable (primary n) Form.primary.Begins)
    (hnegation : Viable (unary n) Form.negation.Begins) :
    Viable (exponent (n + 1)) Form.power.Begins := by
  intro c hc
  simp only [exponent]
  refine refusesBehind_bind
    (hprimary.behind (.refl hc) fun us h => .loosen (by simp) (by simp) h) ?_
  intro base mid hbase
  obtain ⟨ls, hls, hwhole⟩ := sound_forms n (show Form.primary ≠ .items by simp) hc hbase
  rw [bind_of_done (isAt_apply _ mid)]
  split
  · next hpower =>
    rw [decide_eq_true_eq] at hpower
    obtain ⟨hcaret, hlexical⟩ := hls.lexical.takes_advance (by simp [hpower])
    obtain ⟨word, hword, hadmits⟩ := hlexical.text (by simp [hpower])
    have hsign : mid.current.Is .power "^" := by
      refine ⟨hpower, hword.trans ?_⟩
      rw [hpower] at hadmits
      simpa [Token.Kind.admits] using hadmits
    rw [bind_of_done (advance_apply mid)]
    refine refusesBehind_bind (hnegation.behind (hls.trans hcaret) fun us hus => ?_)
      fun _ _ _ => refusesBehind_done _ _
    rw [List.append_assoc]
    exact .raise hwhole.spells hsign hus
  · exact refusesBehind_done _ _

theorem viable_arguments (hitem : Viable (Parse.expression n) Form.expression.Begins)
    (words : String) : Viable (arguments (n + 1) words) BeginsArguments := by
  intro c hc
  simp only [arguments]
  refine refusesBehind_bind (refusesBehind_expectAs (.refl hc) .nil _ _) fun left mid hleft => ?_
  obtain ⟨hleft, hopened, -⟩ := takes_of_expectAs hc (by simp) hleft
  refine refusesBehind_bind ((viable_itemsUntil hitem _).behind hopened fun us =>
    .of_items hleft) fun args last hargs => ?_
  obtain ⟨us, hus, hspells⟩ := sound_itemsUntil (sound_expression n) _ hopened.lexical hargs
  exact refusesBehind_bind (refusesBehind_expectAs (hopened.trans hus)
    (.of_items hleft hspells.begins) _ _) fun _ _ _ => refusesBehind_done _ _

theorem viable_arrayLiteral (hitem : Viable (Parse.expression n) Form.expression.Begins) :
    Viable (arrayLiteral (n + 1)) Form.primary.Begins := by
  intro c hc
  simp only [arrayLiteral]
  refine refusesBehind_bind (refusesBehind_expectKind (.refl hc) (.nil (by simp)) _) ?_
  intro left mid hleft
  obtain ⟨hleft, hopened, -⟩ := takes_of_expectKind hc (by simp) hleft
  refine refusesBehind_bind ((viable_itemsUntil hitem _).behind hopened fun us =>
    .array hleft) fun items last hitems => ?_
  obtain ⟨us, hus, hspells⟩ := sound_itemsUntil (sound_expression n) _ hopened.lexical hitems
  exact refusesBehind_bind (refusesBehind_expectAs (hopened.trans hus)
    (.array hleft hspells.begins) _ _) fun _ _ _ => refusesBehind_done _ _

theorem viable_identifierExpression
    (hitem : Viable (Parse.expression n) Form.expression.Begins)
    (hargs : ∀ words, Viable (arguments n words) BeginsArguments) :
    Viable (identifierExpression (n + 1)) Form.primary.Begins := by
  intro c hc
  simp only [identifierExpression]
  refine refusesBehind_bind (refusesBehind_expectKind (.refl hc) (.nil (by simp)) _) ?_
  intro name mid hname
  obtain ⟨hkind, hnamed, hlexical⟩ := takes_of_expectKind hc (by simp) hname
  obtain ⟨x, hliteral, -⟩ := hlexical.text (by simp [hkind])
  have hx : name.Is .identifier x := ⟨hkind, hliteral⟩
  rw [bind_of_done (current_apply mid)]
  cases hnext : mid.current.kind with
  | leftBracket =>
      obtain ⟨hopened, -⟩ := hnamed.lexical.takes_advance (by simp [hnext])
      dsimp only
      rw [bind_of_done (advance_apply mid)]
      refine refusesBehind_bind (hitem.behind (hnamed.trans hopened) fun us =>
        .element hx hnext) fun index last hindex => ?_
      obtain ⟨us, hus, hwhole⟩ := sound_expression n hopened.lexical hindex
      exact refusesBehind_bind (refusesBehind_expectAs ((hnamed.trans hopened).trans hus)
        (.element hx hnext hwhole.spells.begins) _ _) fun _ _ _ => refusesBehind_done _ _
  | dot =>
      obtain ⟨hdotted, -⟩ := hnamed.lexical.takes_advance (by simp [hnext])
      dsimp only
      rw [bind_of_done (advance_apply mid), bind_of_done (current_apply _)]
      split
      · next hmember =>
        obtain ⟨hmembered, hword⟩ :=
          hdotted.lexical.takes_advance (by rcases hmember with h | h <;> simp [h])
        obtain ⟨m, hm, -⟩ := hword.text (by rcases hmember with h | h <;> simp [h])
        have hmember : Member mid.advance.current m :=
          hmember.imp (fun h => ⟨h, hm⟩) (fun h => ⟨h, hm⟩)
        rw [bind_of_done (advance_apply _), bind_of_done (isAt_apply _ _)]
        split
        · exact refusesBehind_done _ _
        · exact refusesBehind_bind ((hargs _).behind (hnamed.trans (hdotted.trans hmembered))
            fun us => .method hx hnext hmember) fun _ _ _ => refusesBehind_done _ _
      · exact refusesBehind_refuse (hnamed.trans hdotted) (.dotted hx hnext) _
  | leftParen =>
      exact refusesBehind_bind ((hargs _).behind hnamed fun us => .call hx)
        fun _ _ _ => refusesBehind_done _ _
  | _ => exact refusesBehind_done _ _

theorem viable_primary (hexpression : Viable (Parse.expression n) Form.expression.Begins)
    (harray : Viable (arrayLiteral n) Form.primary.Begins)
    (hidentifier : Viable (identifierExpression n) Form.primary.Begins) :
    Viable (primary (n + 1)) Form.primary.Begins := by
  intro c hc
  have hrefuse : ∀ what, RefusesBehind Form.primary.Begins c (refuse what c : Step Tree) :=
    refusesBehind_refuse (.refl hc) (.nil (by simp))
  simp only [primary]
  rw [bind_of_done (current_apply c)]
  cases hkind : c.current.kind with
  | leftParen =>
      obtain ⟨hopened, -⟩ := hc.takes_advance (by simp [hkind])
      dsimp only
      rw [bind_of_done (advance_apply c)]
      refine refusesBehind_bind (hexpression.behind hopened fun us => .parens hkind) ?_
      intro inner mid hinner
      obtain ⟨us, hus, hwhole⟩ := sound_expression n hopened.lexical hinner
      exact refusesBehind_bind (refusesBehind_expectAs (hopened.trans hus)
        (.parens hkind hwhole.spells.begins) _ _) fun _ _ _ => refusesBehind_done _ _
  | number => exact refusesBehind_done _ _
  | string => exact refusesBehind_done _ _
  | keyword =>
      dsimp only
      split
      · exact refusesBehind_done _ _
      · split
        · exact refusesBehind_done _ _
        · exact hrefuse _
  | leftBracket => exact harray hc
  | identifier => exact hidentifier hc
  | _ => exact hrefuse _

end Levels

/-- The parser of every form of expression takes tokens that begin an expression of the form before
it refuses. -/
theorem viable_forms (n : Nat) :
    (∀ form : Form, form ≠ .items → Viable (form.parser n) form.Begins) ∧
    (∀ words, Viable (arguments n words) BeginsArguments) ∧
    Viable (arrayLiteral n) Form.primary.Begins ∧
    Viable (identifierExpression n) Form.primary.Begins := by
  induction n with
  | zero =>
      simp only [Form.parser_zero, arguments_zero, arrayLiteral_zero, identifierExpression_zero]
      exact ⟨fun _ _ => viable_tooDeep, fun _ => viable_tooDeep, viable_tooDeep, viable_tooDeep⟩
  | succ n ih =>
      obtain ⟨hforms, hargs, harray, hidentifier⟩ := ih
      have hexpression : Viable (Parse.expression n) Form.expression.Begins :=
        hforms .expression (by simp)
      refine ⟨fun form hform => ?_, viable_arguments hexpression, viable_arrayLiteral hexpression,
        viable_identifierExpression hexpression hargs⟩
      cases form with
      | expression =>
          simp only [Form.parser, Parse.expression]
          exact (hforms .comparison (by simp)).mono fun us h => .loosen (by simp) (by simp) h
      | comparison => exact viable_leftGrouped (by decide) (hforms .sum (by decide))
      | sum => exact viable_leftGrouped (by decide) (hforms .product (by decide))
      | product => exact viable_leftGrouped (by decide) (hforms .negation (by decide))
      | negation => exact viable_unary (hforms .negation (by simp)) (hforms .power (by simp))
      | power => exact viable_exponent (hforms .primary (by simp)) (hforms .negation (by simp))
      | primary => exact viable_primary hexpression harray hidentifier
      | items => exact absurd rfl hform

theorem viable_expression (n : Nat) : Viable (Parse.expression n) Form.expression.Begins :=
  (viable_forms n).1 .expression (by simp)

theorem viable_arguments_forms (n : Nat) (words : String) :
    Viable (arguments n words) BeginsArguments := (viable_forms n).2.1 words

end Sprig.Grammar
