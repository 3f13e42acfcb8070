import Sprig.Proofs.Grammar.ExpressionComplete

/-!
# What is parsed as an expression spells it

When the parser of an expression is done, the tokens it took spell the expression it made, and the
token behind them does not carry the expression on.

## Implementation notes

A loop that runs out of rounds would stop in front of an operator. It starts with as many rounds as
there are tokens ahead, and every round takes one.
-/

namespace Sprig.Grammar

open Parse Cursor

/-- Whenever the parser is done on tokens that a text can spell, it took tokens that stand in a
relation to its value and to the token behind them. -/
def Sound {α : Type} (parser : Parse α) (spells : Token → List Token → α → Prop) : Prop :=
  ∀ ⦃c a rest⦄, c.IsLexical → parser c = .done a rest →
    ∃ ts, Takes c ts rest ∧ spells rest.current ts a

theorem sound_tooDeep {α : Type} (spells : Token → List Token → α → Prop) :
    Sound tooDeep spells := by
  intro c a rest _ h
  cases h

/-- Tokens spell an expression of a form, and the token behind them does not carry it on. -/
structure Whole (n : Nat) (form : Form) (next : Token) (ts : List Token) (e : Tree) : Prop where
  spells : Spells n form ts e
  stops : ∀ last ∈ ts.getLast?, Stops form last next

namespace Whole

variable {n : Nat} {form : Form} {next t : Token} {ts us : List Token} {e : Tree}

theorem loosen (h : Whole n form.tighter next ts e) (hprimary : form ≠ .primary)
    (hitems : form ≠ .items) (hpower : form ≠ .power) (hjoins : form.joins next = false) :
    Whole (n + 1) form next ts e where
  spells := .loosen hprimary hitems h.spells
  stops last hlast := (h.stops last hlast).of_tighter hpower hjoins

/-- The last token of a form in front of an expression is that of the expression. -/
theorem getLast?_append (h : Whole n form next ts e) (hitems : form ≠ .items) :
    (us ++ ts).getLast? = ts.getLast? := h.spells.getLast?_append hitems us

/-- A primary expression that ends in a closing bracket is whole in front of every token. -/
theorem of_closed (h : Spells n .primary (ts ++ [t]) e)
    (ht : t.kind = .rightParen ∨ t.kind = .rightBracket) : Whole n .primary next (ts ++ [t]) e where
  spells := h
  stops last hlast := by
    rw [List.getLast?_concat, Option.mem_some] at hlast
    subst hlast
    rcases ht with ht | ht <;> exact .primary_of_kind (by simp [ht]) (by simp [ht])

/-- A primary expression of one token is whole in front of a token that does not carry it on. -/
theorem of_token (h : Spells n .primary [t] e) (hstops : Stops .primary t next) :
    Whole n .primary next [t] e where
  spells := h
  stops last hlast := by
    obtain rfl : t = last := by simpa using hlast
    exact hstops

end Whole

section Loops

variable {n : Nat} {form : Form}

/-- A loop takes operators and operands that carry on the chain it has joined so far. -/
theorem takes_of_joinFrom (hoperators : form.operators ≠ [])
    (hoperand : Sound (form.tighter.parser n) (Whole n form.tighter)) (budget : List Token)
    {ls : List Token} {left e : Tree} {c rest : Cursor} (hc : c.IsLexical)
    (hbudget : c.tokens.length ≤ budget.length) (hleft : Spells (n + 1) form ls left)
    (hstops : ∀ last ∈ ls.getLast?, Stops form.tighter last c.current)
    (h : joinFrom (form.tighter.parser n) form.joins form.join budget left c = .done e rest) :
    ∃ ts, Takes c ts rest ∧ Whole (n + 1) form rest.current (ls ++ ts) e := by
  have hpower : form ≠ .power := by
    rintro rfl
    exact hoperators rfl
  have htighter := Form.tighter_ne_items (Form.ne_items_of_operators hoperators)
  induction budget generalizing ls left c with
  | nil => simp [tokens] at hbudget
  | cons t budget ih =>
      rw [joinFrom, bind_of_done (current_apply c)] at h
      cases hjoins : form.joins c.current with
      | false =>
          rw [hjoins, if_neg (by simp)] at h
          obtain ⟨rfl, rfl⟩ := Step.done.inj h
          refine ⟨[], .refl hc, ?_⟩
          rw [List.append_nil]
          exact ⟨hleft, fun last hlast => (hstops last hlast).of_tighter hpower hjoins⟩
      | true =>
          rw [hjoins, if_pos rfl] at h
          obtain ⟨op, afterOp, hadvance, h⟩ := bind_eq_done.mp h
          obtain ⟨right, afterRight, hright, h⟩ := bind_eq_done.mp h
          have hfinish : c.current.kind ≠ .finish := by
            intro hkind
            rw [Form.joins_of_kind (by simp [hkind]) (by simp [hkind])] at hjoins
            cases hjoins
          obtain ⟨rfl, hop, hlexical⟩ := takes_of_advance hc hfinish hadvance
          obtain ⟨⟨kind, word⟩, hmem, hkind, hliteral⟩ := (Form.joins_iff hlexical form).mp hjoins
          obtain ⟨rs, hrs, hwhole⟩ := hoperand hop.lexical hright
          have hround := hop.trans hrs
          rw [hliteral, show (Token.Literal.text word).tree = .text word from rfl,
            Form.join_text] at h
          have hchain : Spells (n + 1) form (ls ++ c.current :: rs) (form.node word left right) :=
            .join hleft hmem ⟨hkind, hliteral⟩ hwhole.spells
          obtain ⟨ts, hts, he⟩ := ih hrs.lexical
            (by
              have hlength := hround.length_tokens
              simp only [List.length_append, List.length_cons] at hlength hbudget
              omega)
            hchain
            (by
              intro last hlast
              rw [← List.singleton_append, ← List.append_assoc,
                hwhole.getLast?_append htighter] at hlast
              exact hwhole.stops last hlast)
            h
          exact ⟨_, hround.trans hts, by simpa using he⟩

theorem sound_leftGrouped (hoperators : form.operators ≠ [])
    (hoperand : Sound (form.tighter.parser n) (Whole n form.tighter)) :
    Sound (form.parser (n + 1)) (Whole (n + 1) form) := by
  intro c e rest hc h
  rw [Form.parser_succ hoperators] at h
  obtain ⟨first, afterFirst, hfirst, h⟩ := bind_eq_done.mp h
  rw [bind_of_done (cursor_apply _)] at h
  obtain ⟨ls, hls, hwhole⟩ := hoperand hc hfirst
  have hstart : Spells (n + 1) form ls first := by
    refine .loosen ?_ ?_ hwhole.spells
    · rintro rfl
      exact hoperators rfl
    · rintro rfl
      exact hoperators rfl
  obtain ⟨ts, hts, he⟩ :=
    takes_of_joinFrom hoperators hoperand _ hls.lexical (Nat.le_refl _) hstart hwhole.stops h
  exact ⟨ls ++ ts, hls.trans hts, he⟩

/-- A list of items goes on with a comma before every further item. -/
theorem takes_of_moreItems (hitem : Sound (Parse.expression n) (Whole n .expression))
    (budget : List Token) {ls : List Token} {first : Tree} {es : List Tree} {c rest : Cursor}
    (hc : c.IsLexical) (hfirst : Spells n .expression ls first)
    (h : moreItems (Parse.expression n) budget c = .done es rest) :
    ∃ ts, Takes c ts rest ∧ Spells n .items (ls ++ ts) (.list (first :: es)) := by
  induction budget generalizing ls first es c with
  | nil =>
      obtain ⟨rfl, rfl⟩ := Step.done.inj h
      exact ⟨[], .refl hc, by simpa using Spells.lastItem hfirst⟩
  | cons t budget ih =>
      rw [moreItems, bind_of_done (isAt_apply _ c)] at h
      split at h
      · next hcomma =>
        have hcomma : c.current.kind = .comma := by simpa using hcomma
        obtain ⟨comma, afterComma, hadvance, h⟩ := bind_eq_done.mp h
        obtain ⟨second, afterSecond, hsecond, h⟩ := bind_eq_done.mp h
        obtain ⟨others, last, hothers, h⟩ := bind_eq_done.mp h
        obtain ⟨rfl, rfl⟩ := Step.done.inj h
        obtain ⟨rfl, htaken, -⟩ := takes_of_advance hc (by simp [hcomma]) hadvance
        obtain ⟨us, hus, hwhole⟩ := hitem htaken.lexical hsecond
        obtain ⟨ts, hts, hitems⟩ := ih hus.lexical hwhole.spells hothers
        have hmore := Spells.moreItems hfirst hcomma hitems
        exact ⟨_, (htaken.trans hus).trans hts, by simpa using hmore⟩
      · obtain ⟨rfl, rfl⟩ := Step.done.inj h
        exact ⟨[], .refl hc, by simpa using Spells.lastItem hfirst⟩

theorem sound_itemsUntil (hitem : Sound (Parse.expression n) (Whole n .expression))
    (close : Token.Kind) :
    Sound (itemsUntil close (Parse.expression n))
      (fun _ ts es => Spells n .items ts (.list es)) := by
  intro c es rest hc h
  rw [itemsUntil, bind_of_done (isAt_apply _ c)] at h
  split at h
  · obtain ⟨rfl, rfl⟩ := Step.done.inj h
    exact ⟨[], .refl hc, .noItems⟩
  · obtain ⟨first, afterFirst, hfirst, h⟩ := bind_eq_done.mp h
    rw [bind_of_done (cursor_apply _)] at h
    obtain ⟨others, last, hothers, h⟩ := bind_eq_done.mp h
    obtain ⟨rfl, rfl⟩ := Step.done.inj h
    obtain ⟨ls, hls, hwhole⟩ := hitem hc hfirst
    obtain ⟨ts, hts, hitems⟩ := takes_of_moreItems hitem _ hls.lexical hwhole.spells hothers
    exact ⟨ls ++ ts, hls.trans hts, hitems⟩

end Loops

section Levels

variable {n : Nat}

theorem sound_unary (hnegation : Sound (unary n) (Whole n .negation))
    (hpower : Sound (exponent n) (Whole n .power)) :
    Sound (unary (n + 1)) (Whole (n + 1) .negation) := by
  intro c e rest hc h
  simp only [unary] at h
  rw [bind_of_done (isAtWord_apply _ _ c)] at h
  split at h
  · next hminus =>
    rw [fits_word, decide_eq_true_eq] at hminus
    obtain ⟨minus, afterMinus, hadvance, h⟩ := bind_eq_done.mp h
    obtain ⟨operand, last, hoperand, h⟩ := bind_eq_done.mp h
    obtain ⟨rfl, rfl⟩ := Step.done.inj h
    obtain ⟨rfl, htaken, -⟩ := takes_of_advance hc (by simp [hminus.1]) hadvance
    obtain ⟨ts, hts, hwhole⟩ := hnegation htaken.lexical hoperand
    refine ⟨_, htaken.trans hts, .negate hminus hwhole.spells, ?_⟩
    rw [hwhole.getLast?_append (by simp)]
    exact hwhole.stops
  · obtain ⟨ts, hts, hwhole⟩ := hpower hc h
    exact ⟨ts, hts, hwhole.loosen (by simp) (by simp) (by simp) rfl⟩

theorem sound_exponent (hprimary : Sound (primary n) (Whole n .primary))
    (hnegation : Sound (unary n) (Whole n .negation)) :
    Sound (exponent (n + 1)) (Whole (n + 1) .power) := by
  intro c e rest hc h
  simp only [exponent] at h
  obtain ⟨base, afterBase, hbase, h⟩ := bind_eq_done.mp h
  obtain ⟨ls, hls, hwhole⟩ := hprimary hc hbase
  rw [bind_of_done (isAt_apply _ _)] at h
  split at h
  · next hpower =>
    rw [decide_eq_true_eq] at hpower
    obtain ⟨caret, afterCaret, hadvance, h⟩ := bind_eq_done.mp h
    obtain ⟨right, last, hright, h⟩ := bind_eq_done.mp h
    obtain ⟨rfl, rfl⟩ := Step.done.inj h
    obtain ⟨rfl, hcaret, hlexical⟩ := takes_of_advance hls.lexical (by simp [hpower]) hadvance
    obtain ⟨rs, hrs, hexponent⟩ := hnegation hcaret.lexical hright
    obtain ⟨word, hword, hadmits⟩ := hlexical.text (by simp [hpower])
    have hsign : afterBase.current.Is .power "^" := by
      refine ⟨hpower, hword.trans ?_⟩
      rw [hpower] at hadmits
      simpa [Token.Kind.admits] using hadmits
    refine ⟨_, hls.trans (hcaret.trans hrs), .raise hwhole.spells hsign hexponent.spells, ?_⟩
    rw [← List.append_assoc, hexponent.getLast?_append (by simp)]
    exact fun last hlast => (hexponent.stops last hlast).of_negation
  · next hpower =>
    obtain ⟨rfl, rfl⟩ := Step.done.inj h
    refine ⟨ls, hls, .loosen (by simp) (by simp) hwhole.spells, ?_⟩
    exact fun last hlast => (hwhole.stops last hlast).power (by simpa using hpower)

theorem sound_arguments (hitem : Sound (Parse.expression n) (Whole n .expression))
    (words : String) :
    Sound (arguments (n + 1) words) (fun _ ts es => ∃ left us right, ts = left :: us ++ [right] ∧
      left.kind = .leftParen ∧ Spells n .items us (.list es) ∧ right.kind = .rightParen) := by
  intro c es rest hc h
  simp only [arguments] at h
  obtain ⟨left, afterLeft, hleft, h⟩ := bind_eq_done.mp h
  obtain ⟨items, afterItems, hitems, h⟩ := bind_eq_done.mp h
  obtain ⟨right, last, hright, h⟩ := bind_eq_done.mp h
  obtain ⟨rfl, rfl⟩ := Step.done.inj h
  obtain ⟨hleft, htaken, -⟩ := takes_of_expectAs hc (by simp) hleft
  obtain ⟨us, hus, hspells⟩ := sound_itemsUntil hitem _ htaken.lexical hitems
  obtain ⟨hright, hclosed, -⟩ := takes_of_expectAs hus.lexical (by simp) hright
  exact ⟨_, (htaken.trans hus).trans hclosed, left, us, right, rfl, hleft, hspells, hright⟩

theorem sound_arrayLiteral (hitem : Sound (Parse.expression n) (Whole n .expression)) :
    Sound (arrayLiteral (n + 1)) (Whole (n + 2) .primary) := by
  intro c e rest hc h
  simp only [arrayLiteral] at h
  obtain ⟨left, afterLeft, hleft, h⟩ := bind_eq_done.mp h
  obtain ⟨items, afterItems, hitems, h⟩ := bind_eq_done.mp h
  obtain ⟨right, last, hright, h⟩ := bind_eq_done.mp h
  obtain ⟨rfl, rfl⟩ := Step.done.inj h
  obtain ⟨hleft, htaken, -⟩ := takes_of_expectKind hc (by simp) hleft
  obtain ⟨us, hus, hspells⟩ := sound_itemsUntil hitem _ htaken.lexical hitems
  obtain ⟨hright, hclosed, -⟩ := takes_of_expectAs hus.lexical (by simp) hright
  exact ⟨_, (htaken.trans hus).trans hclosed,
    .of_closed (.array hleft hspells hright) (.inr hright)⟩

/-- The parentheses around arguments take a level of their own. -/
theorem exists_of_arguments (hitem : ∀ m ≤ n, Sound (Parse.expression m) (Whole m .expression))
    {words : String} {c rest : Cursor} {es : List Tree} (hc : c.IsLexical)
    (h : arguments n words c = .done es rest) :
    ∃ m left us right, n = m + 1 ∧ Takes c (left :: us ++ [right]) rest ∧
      left.kind = .leftParen ∧ Spells m .items us (.list es) ∧ right.kind = .rightParen := by
  cases n with
  | zero => cases h
  | succ m =>
      obtain ⟨_, htaken, left, us, right, rfl, hleft, hitems, hright⟩ :=
        sound_arguments (hitem m (Nat.le_succ m)) words hc h
      exact ⟨m, left, us, right, rfl, htaken, hleft, hitems, hright⟩

theorem sound_identifierExpression
    (hitem : ∀ m ≤ n, Sound (Parse.expression m) (Whole m .expression)) :
    Sound (identifierExpression (n + 1)) (Whole (n + 2) .primary) := by
  intro c e rest hc h
  simp only [identifierExpression] at h
  obtain ⟨name, afterName, hname, h⟩ := bind_eq_done.mp h
  obtain ⟨hkind, htaken, hlexical⟩ := takes_of_expectKind hc (by simp) hname
  obtain ⟨x, hliteral, -⟩ := hlexical.text (by simp [hkind])
  have hname : name.Is .identifier x := ⟨hkind, hliteral⟩
  rw [bind_of_done (current_apply _), hliteral] at h
  cases hnext : afterName.current.kind with
  | leftBracket =>
      simp only [hnext] at h
      obtain ⟨left, afterLeft, hleft, h⟩ := bind_eq_done.mp h
      obtain ⟨index, afterIndex, hindex, h⟩ := bind_eq_done.mp h
      obtain ⟨right, last, hright, h⟩ := bind_eq_done.mp h
      obtain ⟨rfl, rfl⟩ := Step.done.inj h
      obtain ⟨rfl, hopened, -⟩ := takes_of_advance htaken.lexical (by simp [hnext]) hleft
      obtain ⟨ts, hts, hwhole⟩ := hitem n (Nat.le_refl n) hopened.lexical hindex
      obtain ⟨hright, hclosed, -⟩ := takes_of_expectAs hts.lexical (by simp) hright
      exact ⟨_, htaken.trans ((hopened.trans hts).trans hclosed),
        .of_closed (.element hname hnext hwhole.spells hright) (.inr hright)⟩
  | dot =>
      simp only [hnext] at h
      obtain ⟨dot, afterDot, hdot, h⟩ := bind_eq_done.mp h
      obtain ⟨rfl, hdotted, -⟩ := takes_of_advance htaken.lexical (by simp [hnext]) hdot
      rw [bind_of_done (current_apply _)] at h
      split at h
      · next hmember =>
        obtain ⟨member, afterMember, hadvance, h⟩ := bind_eq_done.mp h
        rw [bind_of_done (isAt_apply _ _)] at h
        obtain ⟨rfl, hmembered, hword⟩ :=
          takes_of_advance hdotted.lexical (by rcases hmember with h | h <;> simp [h]) hadvance
        obtain ⟨m, hm, hadmits⟩ :=
          hword.text (by rcases hmember with h | h <;> simp [h])
        have hmember : Member afterDot.current m :=
          hmember.imp (fun h => ⟨h, hm⟩) (fun h => ⟨h, hm⟩)
        rw [hm] at h
        split at h
        · next hlength =>
          obtain ⟨hm', hcalled⟩ := hlength
          obtain rfl := Token.Literal.text.inj hm'
          obtain ⟨rfl, rfl⟩ := Step.done.inj h
          refine ⟨_, htaken.trans (hdotted.trans hmembered), .length hname hnext hmember, ?_⟩
          intro last hlast
          obtain rfl : afterDot.current = last := by simpa using hlast
          -- The word `length` is no name, so a text spells this member as a word of the language.
          refine .primary (fun hidentifier => ?_) (fun _ => by simpa using hcalled)
          rw [hidentifier] at hadmits
          exact absurd hadmits (by decide)
        · obtain ⟨args, last, hargs, h⟩ := bind_eq_done.mp h
          obtain ⟨rfl, rfl⟩ := Step.done.inj h
          obtain ⟨k, left, us, right, rfl, htaken', hleft, hitems, hright⟩ :=
            exists_of_arguments hitem hmembered.lexical hargs
          exact ⟨_, htaken.trans (hdotted.trans (hmembered.trans htaken')),
            .of_closed (.method hname hnext hmember hleft hitems hright) (.inl hright)⟩
      · cases h
  | leftParen =>
      simp only [hnext] at h
      obtain ⟨args, last, hargs, h⟩ := bind_eq_done.mp h
      obtain ⟨rfl, rfl⟩ := Step.done.inj h
      obtain ⟨k, left, us, right, rfl, htaken', hleft, hitems, hright⟩ :=
        exists_of_arguments hitem htaken.lexical hargs
      exact ⟨_, htaken.trans htaken', .of_closed (.call hname hleft hitems hright) (.inl hright)⟩
  | _ =>
      simp only [hnext] at h
      obtain ⟨rfl, rfl⟩ := Step.done.inj h
      refine ⟨_, htaken, .of_token (.name hname) (.primary (fun _ => by simp [hnext]) ?_)⟩
      exact fun _ => by simp [hnext]

theorem sound_primary (hitem : ∀ m ≤ n, Sound (Parse.expression m) (Whole m .expression)) :
    Sound (primary (n + 1)) (Whole (n + 1) .primary) := by
  intro c e rest hc h
  simp only [primary] at h
  rw [bind_of_done (current_apply c)] at h
  cases hkind : c.current.kind with
  | leftParen =>
      simp only [hkind] at h
      obtain ⟨left, afterLeft, hleft, h⟩ := bind_eq_done.mp h
      obtain ⟨inner, afterInner, hinner, h⟩ := bind_eq_done.mp h
      obtain ⟨right, last, hright, h⟩ := bind_eq_done.mp h
      obtain ⟨rfl, rfl⟩ := Step.done.inj h
      obtain ⟨rfl, hopened, -⟩ := takes_of_advance hc (by simp [hkind]) hleft
      obtain ⟨ts, hts, hwhole⟩ := hitem n (Nat.le_refl n) hopened.lexical hinner
      obtain ⟨hright, hclosed, -⟩ := takes_of_expectAs hts.lexical (by simp) hright
      exact ⟨_, (hopened.trans hts).trans hclosed,
        .of_closed (.parens hkind hwhole.spells hright) (.inl hright)⟩
  | number =>
      simp only [hkind] at h
      obtain ⟨t, last, hadvance, h⟩ := bind_eq_done.mp h
      obtain ⟨rfl, rfl⟩ := Step.done.inj h
      obtain ⟨rfl, htaken, hlexical⟩ := takes_of_advance hc (by simp [hkind]) hadvance
      obtain ⟨x, hliteral⟩ := hlexical.number hkind
      rw [hliteral]
      exact ⟨_, htaken, .of_token (.number hkind hliteral)
        (.primary_of_kind (by simp [hkind]) (by simp [hkind]))⟩
  | string =>
      simp only [hkind] at h
      obtain ⟨t, last, hadvance, h⟩ := bind_eq_done.mp h
      obtain ⟨rfl, rfl⟩ := Step.done.inj h
      obtain ⟨rfl, htaken, hlexical⟩ := takes_of_advance hc (by simp [hkind]) hadvance
      obtain ⟨s, hliteral, -⟩ := hlexical.text (by simp [hkind])
      rw [hliteral]
      exact ⟨_, htaken, .of_token (.string ⟨hkind, hliteral⟩)
        (.primary_of_kind (by simp [hkind]) (by simp [hkind]))⟩
  | keyword =>
      simp only [hkind] at h
      have hstops : ∀ {word : String}, c.current.literal = .text word → word ≠ "length" →
          ∀ next, Stops .primary c.current next := by
        intro word hword hlength next
        refine .primary (fun h => by simp [hkind] at h) (fun h => ?_)
        exact absurd (Token.Literal.text.inj (hword.symm.trans h.2)) hlength
      split at h
      · next hword =>
        obtain ⟨t, last, hadvance, h⟩ := bind_eq_done.mp h
        obtain ⟨rfl, rfl⟩ := Step.done.inj h
        obtain ⟨rfl, htaken, -⟩ := takes_of_advance hc (by simp [hkind]) hadvance
        exact ⟨_, htaken, .of_token (.yes ⟨hkind, hword⟩) (hstops hword (by decide) _)⟩
      · split at h
        · next hword =>
          obtain ⟨t, last, hadvance, h⟩ := bind_eq_done.mp h
          obtain ⟨rfl, rfl⟩ := Step.done.inj h
          obtain ⟨rfl, htaken, -⟩ := takes_of_advance hc (by simp [hkind]) hadvance
          exact ⟨_, htaken, .of_token (.no ⟨hkind, hword⟩) (hstops hword (by decide) _)⟩
        · cases h
  | leftBracket =>
      simp only [hkind] at h
      cases n with
      | zero => cases h
      | succ n => exact sound_arrayLiteral (hitem n (Nat.le_succ n)) hc h
  | identifier =>
      simp only [hkind] at h
      cases n with
      | zero => cases h
      | succ n =>
          refine sound_identifierExpression (fun m hm => ?_) hc h
          exact hitem m (Nat.le_succ_of_le hm)
  | _ =>
      simp only [hkind] at h
      cases h

end Levels

/-- The parser of every form of expression takes tokens that spell the expression it makes. -/
theorem sound_forms (n : Nat) {form : Form} (hform : form ≠ .items) :
    Sound (form.parser n) (Whole n form) := by
  induction n using Nat.strongRecOn generalizing form with
  | ind n ih =>
      cases n with
      | zero =>
          rw [Form.parser_zero]
          exact sound_tooDeep _
      | succ n =>
          have hinner : ∀ {inner : Form}, inner ≠ .items → Sound (inner.parser n) (Whole n inner) :=
            fun hinner => ih n (Nat.lt_succ_self n) hinner
          cases form with
          | expression =>
              intro c e rest hc h
              simp only [Form.parser, Parse.expression] at h
              obtain ⟨ts, hts, hwhole⟩ := hinner (show Form.comparison ≠ .items by simp) hc h
              exact ⟨ts, hts, hwhole.loosen (by simp) (by simp) (by simp) rfl⟩
          | comparison => exact sound_leftGrouped (by decide) (hinner (by decide))
          | sum => exact sound_leftGrouped (by decide) (hinner (by decide))
          | product => exact sound_leftGrouped (by decide) (hinner (by decide))
          | negation =>
              exact sound_unary (hinner (show Form.negation ≠ .items by simp))
                (hinner (show Form.power ≠ .items by simp))
          | power =>
              exact sound_exponent (hinner (show Form.primary ≠ .items by simp))
                (hinner (show Form.negation ≠ .items by simp))
          | primary =>
              refine sound_primary (fun m hm => ?_)
              exact ih m (Nat.lt_succ_of_le hm) (show Form.expression ≠ .items by simp)
          | items => exact absurd rfl hform

theorem sound_expression (n : Nat) : Sound (Parse.expression n) (Whole n .expression) :=
  sound_forms n (show Form.expression ≠ .items by simp)

end Sprig.Grammar
