import Sprig.Proofs.Grammar.ExpressionComplete
import Sprig.Proofs.Parse.Parameters
import Sprig.Proofs.Parse.TrackExpression

/-!
# What a statement that starts with a name looks at

A statement that starts with a name is first read as an assignment, a call of a method or a
declaration. When it is none of these, the parser goes back to the name and reads an expression from
there. It never has looked further than the expression goes: wherever the first reading stopped, the
second one comes by.

## Implementation notes

The first reading is stated here without going back, so it ends where it made up its mind. The
second reading allows another nesting than the first one, so it may give up earlier.
-/

namespace Sprig

/-- The token ahead is the one behind the current one. -/
theorem Cursor.peek_one {c : Cursor} (h : c.current.kind ≠ .finish) :
    c.peek 1 = c.advance.current := by
  obtain ⟨t, later⟩ := c
  simp only [peek, advance, if_neg h]
  cases later <;> rfl

theorem Cursor.length_tokens_le_advance (c : Cursor) :
    c.tokens.length ≤ c.advance.tokens.length + 1 := by
  obtain ⟨t, later⟩ := c
  unfold advance
  split
  · simp
  · cases later <;> simp [tokens]

/-- Whether a step ends at a cursor with a property, or gives up because of the nesting. -/
def Step.Passes {α : Type} (K : Cursor → Prop) : Step α → Prop
  | .done _ rest => K rest
  | .refused why rest => why = .nestedTooDeeply ∨ K rest

namespace Parse

variable {α β : Type} {K : Cursor → Prop}

section Passes

variable {first : Parse α} {next : α → Parse β} {c rest : Cursor} {a : α}

theorem passes_tooDeep : ((tooDeep : Parse α) c).Passes K := .inl rfl

theorem passes_of_forward (h : Forward first) (hK : ∀ c, K c → K c.advance) (hc : K c) :
    (first c).Passes K := by
  have hkeeps := h K hK c hc
  cases hfirst : first c with
  | done a rest =>
      rw [hfirst] at hkeeps
      exact hkeeps.2
  | refused why rest =>
      rw [hfirst] at hkeeps
      exact .inr hkeeps.2

theorem passes_bind (h : (first c).Passes K) (hK : ∀ c, K c → K c.advance)
    (hnext : ∀ a, Forward (next a)) : ((first >>= next) c).Passes K := by
  rw [bind_apply]
  cases hfirst : first c with
  | done a rest =>
      rw [hfirst] at h
      exact passes_of_forward (hnext a) hK h
  | refused why rest =>
      rw [hfirst] at h
      exact h

/-- Whether a step ends at a cursor, or gives up because of the nesting. -/
def EndsAt (rest : Cursor) (s : Step α) : Prop :=
  (∃ a, s = .done a rest) ∨ ∃ other, s = .refused .nestedTooDeeply other

/-- From where a step ends, the next parser goes on. -/
theorem EndsAt.bind (h : EndsAt rest (first c))
    (hnext : ∀ a, (next a rest).Passes K) : ((first >>= next) c).Passes K := by
  rcases h with ⟨a, hdone⟩ | ⟨other, hrefused⟩
  · rw [bind_of_done hdone]
    exact hnext a
  · rw [bind_apply, hrefused]
    exact passes_tooDeep (c := other) (α := β)

theorem EndsAt.then {mid : Cursor} (h : EndsAt mid (first c))
    (hnext : ∀ a, EndsAt rest (next a mid)) : EndsAt rest ((first >>= next) c) := by
  rcases h with ⟨a, hdone⟩ | ⟨other, hrefused⟩
  · rw [bind_of_done hdone]
    exact hnext a
  · rw [bind_apply, hrefused]
    exact .inr ⟨other, rfl⟩

end Passes

section SameCursor

/-- What is done with some frames is done in the same way with others, if these suffice. -/
theorem endsAt_of_follows {V : α → α → Prop} {s t : Step α} {a : α} {rest : Cursor}
    (h : Follows (sameCursor True) V s t) (hdone : t = .done a rest) : EndsAt rest s := by
  subst hdone
  cases h with
  | tooDeep => exact .inr ⟨_, rfl⟩
  | beyond hbeyond => exact hbeyond.elim
  | done _ hnear => exact .inl ⟨_, by rw [hnear.1]⟩

theorem endsAt_expression {n m : Nat} {c rest : Cursor} {e : Tree} (hc : c.IsClosed)
    (h : expression m c = .done e rest) : EndsAt rest (expression n c) :=
  endsAt_of_follows ((tracks_expressions (.inr trivial)).expression.follows ⟨rfl, hc⟩) h

theorem endsAt_arguments {n m : Nat} {words : String} {c rest : Cursor} {es : List Tree}
    (hc : c.IsClosed) (h : arguments m words c = .done es rest) :
    EndsAt rest (arguments n words c) :=
  endsAt_of_follows (((tracks_expressions (.inr trivial)).arguments words).follows ⟨rfl, hc⟩) h

/-- In front of a parenthesis the words do not matter with which it is expected. -/
theorem arguments_words {c : Cursor} (h : c.current.kind = .leftParen) (n : Nat)
    (words other : String) : arguments n words c = arguments n other c := by
  cases n with
  | zero => rw [arguments_zero, arguments_zero]
  | succ n =>
      have hleft : expectAs .leftParen words c = expectAs .leftParen other c := by
        simp [expectAs, expect, fits_none, h]
      simp only [arguments]
      rw [bind_apply, hleft, ← bind_apply]

end SameCursor

section Names

variable {c : Cursor} {n : Nat}

theorem passes_leftGrouped {operand : Parse Tree} {joins : Token → Bool}
    {join : Tree → Tree → Tree → Tree} (h : (operand c).Passes K) (hforward : Forward operand)
    (hK : ∀ c, K c → K c.advance) : (leftGrouped operand joins join c).Passes K :=
  passes_bind h hK fun first => forward_bind (fun _ _ => keeps_cursor.mono fun _ _ => trivial)
    fun c => forward_joinFrom hforward c.tokens first

/-- Without frames a parser gives up, so what it comes by is settled with more. -/
theorem passes_of_succ {parser : Nat → Parse α} (hzero : parser 0 = tooDeep)
    (h : ∀ k, (parser (k + 1) c).Passes K) (n : Nat) : (parser n c).Passes K := by
  cases n with
  | zero => exact hzero ▸ passes_tooDeep
  | succ k => exact h k

/-- An expression that starts with a name is read by way of the parser for these. -/
theorem passes_expression (hname : c.current.kind = .identifier) (hK : ∀ c, K c → K c.advance)
    (h : ∀ k, (identifierExpression k c).Passes K) (n : Nat) : (expression n c).Passes K := by
  have hprimary := passes_of_succ primary_zero fun k => by
    rw [primary_identifier hname]
    exact h k
  have hexponent := passes_of_succ exponent_zero fun k => by
    simp only [exponent]
    refine passes_bind (hprimary k) hK fun base => ?_
    refine forward_bind (forward_isAt _) fun raised => forward_ite ?_ (forward_pure _)
    refine forward_bind forward_advance fun _ => ?_
    exact forward_bind (forward_unary k) fun _ => forward_pure _
  have hunary := passes_of_succ unary_zero fun k => by
    rw [unary_of_not_operator (show c.current.kind ≠ .operator by simp [hname])]
    exact hexponent k
  have hmultiplicative := passes_of_succ multiplicative_zero fun k => by
    simp only [multiplicative]
    exact passes_leftGrouped (hunary k) (forward_unary k) hK
  have hadditive := passes_of_succ additive_zero fun k => by
    simp only [additive]
    exact passes_leftGrouped (hmultiplicative k) (forward_multiplicative k) hK
  have hcomparison := passes_of_succ comparison_zero fun k => by
    simp only [comparison]
    exact passes_leftGrouped (hadditive k) (forward_additive k) hK
  refine passes_of_succ expression_zero (fun k => ?_) n
  simp only [expression]
  exact hcomparison k

/-- What an expression is read as behind a name. -/
def behindName (frames : Nat) (name : Token) : Parse Tree := do
  let token ← current
  match token.kind with
  | .leftBracket =>
    let _ ← advance
    let index ← expression frames
    let _ ← expectAs .rightBracket "']'"
    return .elementAccess name.literal.tree index
  | .dot =>
    let _ ← advance
    let member ← current
    if member.kind = .identifier ∨ member.kind = .keyword then
      let _ ← advance
      let called ← isAt .leftParen
      if member.literal = .text "length" ∧ called = false then
        return .arrayProperty name.literal.tree member.literal.tree
      else
        let args ← arguments frames ("'(' after '." ++ literalWords member.literal ++ "'")
        return .methodExpression name.literal.tree member.literal.tree (.list args)
    else
      refuse (.phrase "method or property name after '.'")
  | .leftParen =>
    let args ← arguments frames "'('"
    return .call name.literal.tree (.list args)
  | _ => return .variable name.literal.tree

theorem identifierExpression_behind (hname : c.current.kind = .identifier) (n : Nat) :
    identifierExpression (n + 1) c = behindName n c.current c.advance := by
  simp only [identifierExpression]
  rw [bind_of_done (expectKind_of_kind hname)]
  rfl

theorem forward_current : Forward current := fun _ _ _ hc => ⟨trivial, hc⟩

theorem forward_refuse (what : Expectation) : Forward (refuse what : Parse α) :=
  fun _ _ => keeps_refuse trivial

theorem forward_behindName (n : Nat) (name : Token) : Forward (behindName n name) := by
  refine forward_bind forward_current fun token => ?_
  split
  · refine forward_bind forward_advance fun _ => forward_bind (forward_expression n) fun _ => ?_
    exact forward_bind (forward_expectAs _ _) fun _ => forward_pure _
  · refine forward_bind forward_advance fun _ => forward_bind forward_current fun member => ?_
    refine forward_ite (forward_bind forward_advance fun _ => ?_) (forward_refuse _)
    refine forward_bind (forward_isAt _) fun called => forward_ite (forward_pure _) ?_
    exact forward_bind (forward_arguments n _) fun _ => forward_pure _
  · exact forward_bind (forward_arguments n _) fun _ => forward_pure _
  · exact forward_pure _

/-- An expression that starts with a name comes by the place behind the name, and then goes on from
there. -/
theorem passes_of_behindName (hname : c.current.kind = .identifier)
    (hK : ∀ c, K c → K c.advance)
    (h : ∀ k, (behindName k c.current c.advance).Passes K) (n : Nat) :
    (expression n c).Passes K := by
  refine passes_expression hname hK (passes_of_succ identifierExpression_zero fun k => ?_) n
  rw [identifierExpression_behind hname]
  exact h k

theorem passes_name (hname : c.current.kind = .identifier) (hK : ∀ c, K c → K c.advance)
    (hc : K c.advance) (n : Nat) : (expression n c).Passes K :=
  passes_of_behindName hname hK (fun k => passes_of_forward (forward_behindName k _) hK hc) n

/-- A name in front of a token that ends every expression is an expression. -/
theorem endsAt_name (hc : c.IsLexical) (hname : c.current.kind = .identifier)
    (hcloser : c.advance.current.kind ∈ Grammar.closerKinds) (n : Nat) :
    EndsAt c.advance (expression n c) := by
  obtain ⟨htaken, hlexical⟩ := hc.takes_advance (by simp [hname])
  obtain ⟨x, hx, -⟩ := hlexical.text (by simp [hname])
  have hprimary : Grammar.Spells 2 .primary [c.current] (.variable (.text x)) := .name ⟨hname, hx⟩
  have hspells := hprimary.negation_of_primary.expression_of_negation
  have hparsed := hspells.parsed.expression c.advance (.of_closer hcloser _)
  rw [← htaken.eq] at hparsed
  exact endsAt_expression hc.isClosed hparsed

/-- Items that follow one another, where the cursor behind the first one tells how many rounds there
are for the others. -/
def itemsFrom (n : Nat) (rounds : Cursor → List Token) : Parse (List Tree) := do
  let first ← expression n
  let c ← cursor
  let rest ← moreItems (expression n) (rounds c)
  return first :: rest

theorem forward_rest (n : Nat) (rounds : Cursor → List Token) (first : Tree) : Forward (do
    let c ← cursor
    let rest ← moreItems (expression n) (rounds c)
    return first :: rest) := by
  refine forward_bind (fun _ _ => keeps_cursor.mono fun _ _ => trivial) fun c => ?_
  exact forward_bind (forward_moreItems (forward_expression n) _) fun _ => forward_pure _

theorem forward_itemsFrom (n : Nat) (rounds : Cursor → List Token) :
    Forward (itemsFrom n rounds) :=
  forward_bind (forward_expression n) fun first => forward_rest n rounds first

theorem moreItems_comma (hcomma : c.current.kind = .comma) (t : Token) (rounds : List Token) :
    moreItems (expression n) (t :: rounds) c = itemsFrom n (fun _ => rounds) c.advance := by
  rw [moreItems, bind_of_done (isAt_apply _ c), decide_eq_true hcomma, if_pos rfl,
    bind_of_done (advance_apply c)]
  rfl

/-- A comma and the items behind it. -/
theorem rest_of_comma (n : Nat) (rounds : Cursor → List Token) (first : Tree)
    (hcomma : c.current.kind = .comma) (hrounds : (rounds c).length ≠ 0) :
    ∃ left : List Token, (rounds c).length = left.length + 1 ∧ (do
      let c ← cursor
      let rest ← moreItems (expression n) (rounds c)
      return first :: rest : Parse (List Tree)) c = (do
        let rest ← itemsFrom n (fun _ => left)
        return first :: rest : Parse (List Tree)) c.advance := by
  rw [bind_of_done (cursor_apply c)]
  generalize rounds c = rounds at *
  cases rounds with
  | nil => exact absurd rfl hrounds
  | cons u left =>
      refine ⟨left, rfl, ?_⟩
      rw [bind_apply, moreItems_comma hcomma, ← bind_apply]

/-- How names in front of a comma go on, when they are read as parameters. -/
theorem names_of_comma {t : Token} {names : List Token} {params? : Option (List Tree)}
    {rest : Cursor} (hname : c.current.kind = .identifier)
    (hnames : namesIfPresent (t :: names) c = .done params? rest) :
    (c.advance.current.kind = .comma ∧ ∃ others?,
        namesIfPresent names c.advance.advance = .done others? rest ∧
          (params?.isSome → others?.isSome)) ∨
      c.advance.current.kind ≠ .comma ∧ rest = c.advance := by
  by_cases hcomma : c.advance.current.kind = .comma
  · rw [namesIfPresent_of_more t names hname hcomma] at hnames
    obtain ⟨others?, last, hothers, hmap⟩ := bind_eq_done.mp hnames
    obtain ⟨rfl, rfl⟩ := Step.done.inj hmap
    exact .inl ⟨hcomma, others?, hothers, by simp⟩
  · rw [namesIfPresent_of_last t names hname hcomma] at hnames
    obtain ⟨-, rfl⟩ := Step.done.inj hnames
    exact .inr ⟨hcomma, rfl⟩

theorem names_of_other {names : List Token} {params? : Option (List Tree)} {rest : Cursor}
    (hname : c.current.kind ≠ .identifier)
    (hnames : namesIfPresent names c = .done params? rest) : params? = none ∧ rest = c := by
  cases names with
  | nil =>
      obtain ⟨rfl, rfl⟩ := Step.done.inj hnames
      exact ⟨rfl, rfl⟩
  | cons t names =>
      rw [namesIfPresent_of_not_name t names hname] at hnames
      obtain ⟨rfl, rfl⟩ := Step.done.inj hnames
      exact ⟨rfl, rfl⟩

/-- Names that are read as parameters are read as items too, up to a parenthesis behind them. -/
theorem endsAt_items {names : List Token} {rounds : Cursor → List Token}
    {params? : Option (List Tree)} {rest : Cursor} (hc : c.IsLexical)
    (hlength : c.tokens.length ≤ (rounds c.advance).length + 1)
    (hnames : namesIfPresent names c = .done params? rest) (hsome : params?.isSome)
    (hrest : rest.current.kind = .rightParen) : EndsAt rest (itemsFrom n rounds c) := by
  induction names generalizing c rounds params? with
  | nil =>
      obtain ⟨rfl, -⟩ := Step.done.inj hnames
      cases hsome
  | cons t names ih =>
      by_cases hname : c.current.kind = .identifier
      · obtain ⟨htaken, -⟩ := hc.takes_advance (by simp [hname])
        have hname' := htaken.length_tokens
        rcases names_of_comma hname hnames with ⟨hcomma, others?, hothers, hpresent⟩ | ⟨-, rfl⟩
        · obtain ⟨hseparated, -⟩ := htaken.lexical.takes_advance (by simp [hcomma])
          have hcomma' := hseparated.length_tokens
          simp only [List.length_cons, List.length_nil] at hname' hcomma'
          have htokens : 0 < c.advance.advance.tokens.length := by simp [Cursor.tokens]
          refine (endsAt_name hc hname (by simp [Grammar.closerKinds, hcomma]) n).then ?_
          intro first
          obtain ⟨left, hleft, hloop⟩ := rest_of_comma n rounds first hcomma (by omega)
          rw [hloop]
          exact (ih hseparated.lexical (by omega) hothers (hpresent hsome)).then
            fun rest => .inl ⟨_, rfl⟩
        · refine (endsAt_name hc hname (by simp [Grammar.closerKinds, hrest]) n).then ?_
          intro first
          rw [bind_of_done (cursor_apply _),
            bind_of_done (moreItems_of_not_comma (by simp [hrest]) _)]
          exact .inl ⟨_, rfl⟩
      · obtain ⟨rfl, -⟩ := names_of_other hname hnames
        cases hsome

/-- However far names are read as parameters, items are read as far. -/
theorem passes_items {names : List Token} {rounds : Cursor → List Token}
    {params? : Option (List Tree)} {rest : Cursor} (hc : c.IsLexical)
    (hlength : c.tokens.length ≤ (rounds c.advance).length + 1)
    (hnames : namesIfPresent names c = .done params? rest) (hK : ∀ c, K c → K c.advance)
    (hrest : K rest) : (itemsFrom n rounds c).Passes K := by
  induction names generalizing c rounds params? with
  | nil =>
      obtain ⟨-, rfl⟩ := Step.done.inj hnames
      exact passes_of_forward (forward_itemsFrom n rounds) hK hrest
  | cons t names ih =>
      by_cases hname : c.current.kind = .identifier
      · obtain ⟨htaken, -⟩ := hc.takes_advance (by simp [hname])
        have hname' := htaken.length_tokens
        rcases names_of_comma hname hnames with ⟨hcomma, others?, hothers, -⟩ | ⟨-, rfl⟩
        · obtain ⟨hseparated, -⟩ := htaken.lexical.takes_advance (by simp [hcomma])
          have hcomma' := hseparated.length_tokens
          simp only [List.length_cons, List.length_nil] at hname' hcomma'
          have htokens : 0 < c.advance.advance.tokens.length := by simp [Cursor.tokens]
          refine (endsAt_name hc hname (by simp [Grammar.closerKinds, hcomma]) n).bind ?_
          intro first
          obtain ⟨left, hleft, hloop⟩ := rest_of_comma n rounds first hcomma (by omega)
          rw [hloop]
          exact passes_bind (ih hseparated.lexical (by omega) hothers) hK fun _ => forward_pure _
        · exact passes_bind (passes_name hname hK hrest n) hK (forward_rest n rounds)
      · obtain ⟨-, rfl⟩ := names_of_other hname hnames
        exact passes_of_forward (forward_itemsFrom n rounds) hK hrest

theorem closedParameters_cases {params? names? : Option (List Tree)} {rest : Cursor}
    (h : closedParameters names? c = .done params? rest) :
    (c.current.kind = .rightParen ∧ names?.isSome ∧ rest = c.advance) ∨ rest = c := by
  cases names? with
  | none =>
      obtain ⟨-, rfl⟩ := Step.done.inj h
      exact .inr rfl
  | some names =>
      rw [closedParameters, bind_of_done (isAt_apply _ c)] at h
      split at h
      · next hright =>
        rw [bind_of_done (advance_apply c)] at h
        obtain ⟨-, rfl⟩ := Step.done.inj h
        exact .inl ⟨of_decide_eq_true hright, rfl, rfl⟩
      · obtain ⟨-, rfl⟩ := Step.done.inj h
        exact .inr rfl

/-- Arguments are read as far as the same tokens are read as parameters. -/
theorem passes_arguments {params? : Option (List Tree)} {rest : Cursor} (hc : c.IsLexical)
    (hparams : parametersIfPresent c = .done params? rest) (hK : ∀ c, K c → K c.advance)
    (hrest : K rest) (n : Nat) (words : String) : (arguments n words c).Passes K := by
  cases n with
  | zero =>
      rw [arguments_zero]
      exact passes_tooDeep
  | succ n =>
      rw [parametersIfPresent_eq] at hparams
      obtain ⟨left, mid, hleft, hparams⟩ := bind_eq_done.mp hparams
      obtain ⟨hkind, hopened, -⟩ := takes_of_expectKind hc (by simp) hleft
      rw [bind_of_done (cursor_apply mid), bind_of_done (isAt_apply _ mid)] at hparams
      simp only [arguments]
      rw [hopened.eq, bind_of_done (expectAs_prepend_cons hkind (by simp) words mid []),
        Cursor.prepend_nil]
      by_cases hright : mid.current.kind = .rightParen
      · rw [decide_eq_true hright, if_pos rfl, closedParameters, bind_of_done (isAt_apply _ mid),
          decide_eq_true hright, if_pos rfl, bind_of_done (advance_apply mid)] at hparams
        obtain ⟨-, rfl⟩ := Step.done.inj hparams
        rw [bind_of_done (itemsUntil_of_close hright), bind_of_done (expectAs_of_kind hright _)]
        exact hrest
      · rw [decide_eq_false hright, if_neg (by simp)] at hparams
        obtain ⟨names?, last, hnames, hclosed⟩ := bind_eq_done.mp hparams
        have hitems : itemsUntil .rightParen (expression n) mid =
            itemsFrom n Cursor.tokens mid := by
          rw [itemsUntil, bind_of_done (isAt_apply _ mid), decide_eq_false hright,
            if_neg (by simp)]
          rfl
        have hlength := mid.length_tokens_le_advance
        rw [bind_apply, hitems, ← bind_apply]
        rcases closedParameters_cases hclosed with ⟨hlast, hsome, rfl⟩ | rfl
        · refine (endsAt_items hopened.lexical hlength hnames hsome hlast).bind fun args => ?_
          rw [bind_of_done (expectAs_of_kind hlast _)]
          exact hrest
        · refine passes_bind (passes_items hopened.lexical hlength hnames hK hrest) hK ?_
          intro args
          exact forward_bind (forward_expectAs _ _) fun _ => forward_pure _

end Names

section Lead

/-- The first reading of a statement that starts with a name, which does not go back. -/
def identifierLead : (frames : Nat) → Parse (Option Tree)
  | 0 => tooDeep
  | frames + 1 => do
    let name ← expectKind .identifier
    let token ← current
    match token.kind with
    | .assign =>
      let _ ← advance
      let value ← expression frames
      return some (.assignment name.literal.tree value)
    | .leftBracket =>
      let _ ← advance
      let index ← expression frames
      let _ ← expectAs .rightBracket "']'"
      if ← isAt .assign then
        let _ ← advance
        let value ← expression frames
        return some (.elementAssignment name.literal.tree index value)
      else
        return none
    | .dot =>
      let _ ← advance
      let member ← current
      if member.kind = .identifier ∨ member.kind = .keyword then
        let _ ← advance
        if ← isAt .leftParen then
          let args ← arguments frames "'('"
          let after ← current
          if continuesExpression after.kind then
            return none
          else
            return some (.methodCall name.literal.tree member.literal.tree (.list args))
        else
          return none
      else
        return none
    | .leftParen =>
      let params ← parametersIfPresent
      let opens ← isAt .leftBrace
      match params, opens with
      | some params, true =>
        let body ← block frames
        return some (.functionDeclaration name.literal.tree (.list params) (.list body))
      | _, _ => return none
    | _ => return none

/-- A reading that goes back to a cursor when it has found nothing. -/
def goingBack (start : Cursor) (parser : Parse (Option Tree)) : Parse (Option Tree) := fun c =>
  match parser c with
  | .done none _ => .done none start
  | step => step

section GoingBack

variable {start : Cursor}

theorem goingBack_bind (first : Parse α) (next : α → Parse (Option Tree)) :
    goingBack start (first >>= next) = first >>= fun a => goingBack start (next a) := by
  funext c
  rw [goingBack, bind_apply, bind_apply]
  cases first c <;> rfl

theorem goingBack_some (tree : Tree) : goingBack start (pure (some tree)) = pure (some tree) := rfl

theorem goingBack_none : goingBack start (pure none) = (do
    moveTo start
    return none) := rfl

theorem goingBack_ite {p : Prop} [Decidable p] (yes no : Parse (Option Tree)) :
    goingBack start (if p then yes else no) =
      if p then goingBack start yes else goingBack start no := by
  split <;> rfl

end GoingBack

theorem bind_congr {first : Parse α} {next after : α → Parse β}
    (h : ∀ a d, next a d = after a d) (c : Cursor) : (first >>= next) c = (first >>= after) c := by
  have heq : next = after := funext fun a => funext fun d => h a d
  rw [heq]

/-- A statement that starts with a name is what the first reading makes of it, or the parser is back
on the name. -/
theorem identifierStatement_eq (n : Nat) (c : Cursor) :
    identifierStatement n c = goingBack c (identifierLead n) c := by
  cases n with
  | zero =>
      rw [identifierStatement_zero, identifierLead]
      rfl
  | succ n =>
      simp only [identifierStatement, identifierLead]
      rw [bind_of_done (cursor_apply c), goingBack_bind]
      refine bind_congr (fun name d => ?_) c
      rw [goingBack_bind, bind_of_done (current_apply d), bind_of_done (current_apply d)]
      cases hkind : d.current.kind with
      | dot =>
          dsimp only
          rw [goingBack_bind]
          refine bind_congr (fun _ d => ?_) d
          rw [bind_of_done (cursor_apply d), goingBack_bind, bind_of_done (current_apply d)]
          by_cases hmember : d.current.kind = .identifier ∨ d.current.kind = .keyword
          · have hnext : (d.peek 1).kind = d.advance.current.kind := by
              rw [Cursor.peek_one (by rcases hmember with h | h <;> simp [h])]
            rw [if_pos hmember, goingBack_bind, bind_of_done (advance_apply d), goingBack_bind,
              bind_of_done (isAt_apply _ _)]
            by_cases hcalls : d.advance.current.kind = .leftParen
            · rw [if_pos ⟨hmember, hnext.trans hcalls⟩, bind_of_done (advance_apply d),
                decide_eq_true hcalls, if_pos rfl]
              simp only [goingBack_bind, goingBack_ite, goingBack_some, goingBack_none]
            · rw [if_neg fun h => hcalls (hnext.symm.trans h.2), decide_eq_false hcalls,
                if_neg (by simp), goingBack_none]
              rfl
          · rw [if_neg fun h => hmember h.1, if_neg hmember, goingBack_none]
      | leftParen =>
          simp only [goingBack_bind]
          refine bind_congr (fun params? d => ?_) d
          refine bind_congr (fun opens d => ?_) d
          cases params? <;> cases opens <;>
            simp only [goingBack_bind, goingBack_some, goingBack_none]
      | _ => simp only [goingBack_bind, goingBack_ite, goingBack_some, goingBack_none]

/-- Where no other statement was found, the parser is back on the name. -/
theorem eq_of_identifierStatement {n : Nat} {c rest : Cursor}
    (h : identifierStatement n c = .done none rest) : rest = c := by
  rw [identifierStatement_eq, goingBack] at h
  cases hlead : identifierLead n c with
  | done tree? seen =>
      rw [hlead] at h
      cases tree? with
      | none =>
          obtain ⟨-, rfl⟩ := Step.done.inj h
          rfl
      | some tree => cases h
  | refused why seen =>
      rw [hlead] at h
      cases h

/-- Where the first reading stops behind a name if it makes no statement of it. -/
inductive LeadStops (n : Nat) (c : Cursor) : Cursor → Prop
  | element {index mid right rest} (hleft : c.current.kind = .leftBracket)
      (hindex : expression n c.advance = .done index mid)
      (hright : expectAs .rightBracket "']'" mid = .done right rest) : LeadStops n c rest
  | noMember (hdot : c.current.kind = .dot)
      (hmember : ¬ (c.advance.current.kind = .identifier ∨ c.advance.current.kind = .keyword)) :
      LeadStops n c c.advance
  | property (hdot : c.current.kind = .dot)
      (hmember : c.advance.current.kind = .identifier ∨ c.advance.current.kind = .keyword) :
      LeadStops n c c.advance.advance
  | method {args rest} (hdot : c.current.kind = .dot)
      (hmember : c.advance.current.kind = .identifier ∨ c.advance.current.kind = .keyword)
      (hcalls : c.advance.advance.current.kind = .leftParen)
      (hargs : arguments n "'('" c.advance.advance = .done args rest) : LeadStops n c rest
  | parameters {params? rest} (hleft : c.current.kind = .leftParen)
      (hparams : parametersIfPresent c = .done params? rest) : LeadStops n c rest
  | name : LeadStops n c c

/-- A first reading that makes no statement stops in one of these ways. -/
theorem stops_of_lead {n : Nat} {c seen : Cursor} (hname : c.current.kind = .identifier)
    (hlead : identifierLead (n + 1) c = .done none seen) : LeadStops n c.advance seen := by
  simp only [identifierLead] at hlead
  rw [bind_of_done (expectKind_of_kind hname), bind_of_done (current_apply _)] at hlead
  cases hkind : c.advance.current.kind with
  | assign =>
      rw [hkind] at hlead
      dsimp only at hlead
      rw [bind_of_done (advance_apply _)] at hlead
      obtain ⟨value, last, hvalue, hlead⟩ := bind_eq_done.mp hlead
      cases hlead
  | leftBracket =>
      rw [hkind] at hlead
      dsimp only at hlead
      rw [bind_of_done (advance_apply _)] at hlead
      obtain ⟨index, mid, hindex, hlead⟩ := bind_eq_done.mp hlead
      obtain ⟨right, last, hright, hlead⟩ := bind_eq_done.mp hlead
      rw [bind_of_done (isAt_apply _ _)] at hlead
      split at hlead
      · rw [bind_of_done (advance_apply _)] at hlead
        obtain ⟨value, _, hvalue, hlead⟩ := bind_eq_done.mp hlead
        cases hlead
      · obtain ⟨-, rfl⟩ := Step.done.inj hlead
        exact .element hkind hindex hright
  | dot =>
      rw [hkind] at hlead
      dsimp only at hlead
      rw [bind_of_done (advance_apply _), bind_of_done (current_apply _)] at hlead
      split at hlead
      · next hmember =>
        rw [bind_of_done (advance_apply _), bind_of_done (isAt_apply _ _)] at hlead
        split at hlead
        · next hcalls =>
          obtain ⟨args, last, hargs, hlead⟩ := bind_eq_done.mp hlead
          rw [bind_of_done (current_apply _)] at hlead
          split at hlead
          · obtain ⟨-, rfl⟩ := Step.done.inj hlead
            exact .method hkind hmember (of_decide_eq_true hcalls) hargs
          · cases hlead
        · obtain ⟨-, rfl⟩ := Step.done.inj hlead
          exact .property hkind hmember
      · next hmember =>
        obtain ⟨-, rfl⟩ := Step.done.inj hlead
        exact .noMember hkind hmember
  | leftParen =>
      rw [hkind] at hlead
      dsimp only at hlead
      obtain ⟨params?, mid, hparams, hlead⟩ := bind_eq_done.mp hlead
      rw [bind_of_done (isAt_apply _ _)] at hlead
      cases params? with
      | none =>
          obtain ⟨-, rfl⟩ := Step.done.inj hlead
          exact .parameters hkind hparams
      | some params =>
          cases hopens : decide (mid.current.kind = .leftBrace) with
          | false =>
              rw [hopens] at hlead
              obtain ⟨-, rfl⟩ := Step.done.inj hlead
              exact .parameters hkind hparams
          | true =>
              rw [hopens] at hlead
              obtain ⟨body, _, hbody, hlead⟩ := bind_eq_done.mp hlead
              cases hlead
  | _ =>
      rw [hkind] at hlead
      obtain ⟨-, rfl⟩ := Step.done.inj hlead
      exact .name

/-- Behind a name an expression comes by wherever the first reading stopped. -/
theorem passes_behindName {n : Nat} {c seen : Cursor} (hc : c.IsLexical) (h : LeadStops n c seen)
    (hK : ∀ c, K c → K c.advance) (hseen : K seen) (k : Nat) (name : Token) :
    (behindName k name c).Passes K := by
  cases h with
  | name => exact passes_of_forward (forward_behindName k name) hK hseen
  | parameters hleft hparams =>
      rw [behindName, bind_of_done (current_apply _), hleft]
      exact passes_bind (passes_arguments hc hparams hK hseen k _) hK fun _ => forward_pure _
  | element hleft hindex hright =>
      rw [behindName, bind_of_done (current_apply _), hleft]
      dsimp only
      rw [bind_of_done (advance_apply _)]
      refine (endsAt_expression hc.isClosed.advance hindex).bind fun _ => ?_
      rw [bind_of_done hright]
      exact hseen
  | noMember hdot hmember =>
      rw [behindName, bind_of_done (current_apply _), hdot]
      dsimp only
      rw [bind_of_done (advance_apply _), bind_of_done (current_apply _), if_neg hmember]
      exact .inr hseen
  | property hdot hmember =>
      rw [behindName, bind_of_done (current_apply _), hdot]
      dsimp only
      rw [bind_of_done (advance_apply _), bind_of_done (current_apply _), if_pos hmember,
        bind_of_done (advance_apply _)]
      refine passes_of_forward ?_ hK hseen
      refine forward_bind (forward_isAt _) fun called => forward_ite (forward_pure _) ?_
      exact forward_bind (forward_arguments k _) fun _ => forward_pure _
  | method hdot hmember hcalls hargs =>
      rw [behindName, bind_of_done (current_apply _), hdot]
      dsimp only
      rw [bind_of_done (advance_apply _), bind_of_done (current_apply _), if_pos hmember,
        bind_of_done (advance_apply _), bind_of_done (isAt_apply _ _), decide_eq_true hcalls,
        if_neg (by simp)]
      rw [arguments_words hcalls _ _ ("'(' after '." ++ _ ++ "'")] at hargs
      exact (endsAt_arguments hc.isClosed.advance.advance hargs).bind fun _ => hseen

/-- Where the first reading found nothing, the second one comes by. -/
theorem passes_of_lead {n m : Nat} {c seen : Cursor} (hc : c.IsLexical)
    (hname : c.current.kind = .identifier) (hlead : identifierLead n c = .done none seen)
    (hK : ∀ c, K c → K c.advance) (hseen : K seen) : (expression m c).Passes K := by
  cases n with
  | zero => cases hlead
  | succ n =>
      exact passes_of_behindName hname hK
        (fun k => passes_behindName hc.advance (stops_of_lead hname hlead) hK hseen k _) m

end Lead

end Parse

end Sprig
