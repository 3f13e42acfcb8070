import Mathlib.Data.List.Basic
import Sprig.Proofs.Grammar.ExpressionSound
import Sprig.Proofs.Grammar.StatementComplete

/-!
# What is parsed as a statement spells it

When the parser of a statement is done, the tokens it took spell the statement it made, and the
token behind them does not carry the statement on. So when a text is parsed, its tokens up to the
closing one are a derivation of the program, each used once and in order.

## Implementation notes

Before a statement that starts with a name is read as an expression, it was read as something else
and the parser went back to the name. That the expression is no bare call of a method follows from
the completeness of that first reading: it would not have gone back.
-/

namespace Sprig.Grammar

open Parse Cursor

section Parameters

/-- Names that are enumerated and that a text can spell stand between commas. -/
theorem Names.of_enumerates {ts : List Token} {params : List Tree} (h : Enumerates ts params)
    (hne : params ≠ []) (hlexical : ∀ t ∈ ts, t.kind ≠ .finish → t.IsLexical) :
    Names ts params := by
  induction params generalizing ts with
  | nil => exact absurd rfl hne
  | cons e params ih =>
      cases params with
      | nil =>
          obtain ⟨t, rfl, ht, rfl⟩ := h.exists_last
          obtain ⟨x, hx, -⟩ := (hlexical t (by simp) (by simp [ht])).text (by simp [ht])
          rw [hx]
          exact .last ⟨ht, hx⟩
      | cons f params =>
          obtain ⟨t, comma, us, rfl, ht, rfl, hcomma, hmore⟩ := h.exists_more
          obtain ⟨x, hx, -⟩ := (hlexical t (by simp) (by simp [ht])).text (by simp [ht])
          have hrest := ih hmore (List.cons_ne_nil _ _) fun u hu => hlexical u (by simp [hu])
          rw [hx]
          exact .more ⟨ht, hx⟩ hcomma hrest

theorem takes_of_names (budget : List Token) {c rest : Cursor} {params : List Tree}
    (hc : c.IsLexical) (hbudget : c.tokens.length ≤ budget.length)
    (h : names budget c = .done params rest) : ∃ ts, Takes c ts rest ∧ Names ts params := by
  obtain ⟨hne, -, ts, rfl, hnames⟩ := exists_of_names hc.isClosed budget hbudget h
  exact ⟨ts, ⟨rfl, hc.of_prepend⟩, .of_enumerates hnames hne fun t ht => hc.of_mem_prepend ht⟩

theorem sound_parameterList :
    Sound parameterList (fun _ ts params => Parameters ts params) := by
  intro c params rest hc h
  obtain ⟨left, ts, right, rfl, hleft, hnames, hright⟩ := exists_of_parameterList hc.isClosed h
  refine ⟨_, ⟨rfl, hc.of_prepend⟩, ?_⟩
  cases params with
  | nil =>
      obtain rfl := hnames.eq_nil
      exact .none hleft hright
  | cons e params =>
      have hlexical : ∀ t ∈ ts, t.kind ≠ .finish → t.IsLexical := fun t ht =>
        hc.of_mem_prepend (by simp [ht])
      exact .some hleft (.of_enumerates hnames (List.cons_ne_nil _ _) hlexical) hright

/-- When the parentheses hold parameters, they are taken. -/
theorem takes_of_parametersIfPresent {c rest : Cursor} {params : List Tree} (hc : c.IsLexical)
    (h : parametersIfPresent c = .done (some params) rest) :
    ∃ ts, Takes c ts rest ∧ Parameters ts params := by
  by_cases hleft : c.current.kind = .leftParen
  · exact sound_parameterList hc (((lenient_parameters hleft).some_iff _ _).mp h)
  · rw [parametersIfPresent_of_ne hleft] at h
    cases h

end Parameters

/-- The token behind an expression does not carry it on. -/
theorem Whole.not_carriesOn {n : Nat} {next : Token} {ts : List Token} {e : Tree}
    (h : Whole n .expression next ts e) (hnext : next.kind = .finish ∨ next.IsLexical)
    (us : List Token) : ∀ last ∈ (us ++ ts).getLast?, ¬ CarriesOn last next := by
  intro last hlast
  rw [h.getLast?_append (by simp)] at hlast
  obtain ⟨hraises, hjoins, hopens, hcalls⟩ := h.stops last hlast
  have hchain : ¬ (next.kind = .operator ∨ next.kind = .comparison) := by
    intro hkind
    rcases hnext with hfinish | hlexical
    · simp [hfinish] at hkind
    · obtain ⟨form, hform⟩ := Form.exists_joins hlexical hkind
      rw [hjoins form (by cases form <;> decide)] at hform
      cases hform
  rintro (hkind | hkind | hkind | ⟨hlast, hkind⟩ | ⟨hlast, hkind⟩)
  · exact hchain (.inl hkind)
  · exact hchain (.inr hkind)
  · exact hraises (by decide) hkind
  · obtain ⟨hparen, hbracket, hdot⟩ := hopens hlast
    rcases hkind with hkind | hkind | hkind
    · exact hparen hkind
    · exact hbracket hkind
    · exact hdot hkind
  · exact hcalls hlast hkind

theorem Whole.not_continues {n : Nat} {next : Token} {ts : List Token} {e : Tree}
    (h : Whole n .expression next ts e) (hnext : next.kind = .finish ∨ next.IsLexical) :
    continuesExpression next.kind = false := by
  obtain ⟨t, us, rfl, -⟩ := h.spells.exists_head (by simp)
  have hcarries := h.not_carriesOn hnext [] _ (List.getLast?_eq_some_getLast (by simp))
  apply Bool.eq_false_iff.mpr
  intro hcontinues
  simp only [continuesExpression, decide_eq_true_eq] at hcontinues
  rcases hcontinues with hkind | hkind | hkind
  · exact hcarries (.inl hkind)
  · exact hcarries (.inr (.inl hkind))
  · exact hcarries (.inr (.inr (.inl hkind)))

/-- Tokens spell a statement, and the token behind them does not carry it on. -/
structure Stated (n : Nat) (next : Token) (ts : List Token) (tree : Tree) : Prop where
  states : States MayAdjoin n .statement ts tree
  adjoins : MayAdjoin tree ts next

section Sequences

variable {n : Nat}

/-- A statement takes a token, so the rounds that are left suffice for the tokens that are left. -/
theorem Stated.length_lt {next : Token} {ts : List Token} {tree : Tree} {c rest : Cursor}
    (h : Stated n next ts tree) (htaken : Takes c ts rest) :
    rest.tokens.length < c.tokens.length := by
  obtain ⟨t, us, rfl, -⟩ := h.states.exists_head (by simp)
  have hlength := htaken.length_tokens
  simp only [List.length_cons] at hlength
  omega

/-- A sequence goes on behind a statement with a token that does not carry the statement on. -/
theorem Stated.more {tree : Tree} {trees : List Tree} {ts us : List Token} {mid rest : Cursor}
    (h : Stated n mid.current ts tree) (htaken : Takes mid us rest)
    (hrest : States MayAdjoin n .sequence us (.list trees)) :
    States MayAdjoin n .sequence (ts ++ us) (.list (tree :: trees)) := by
  refine .more h.states (fun t ht => .inr ?_) hrest
  obtain ⟨vs, rfl⟩ := List.head?_eq_some_iff.mp ht
  have hadjoins := h.adjoins
  rw [htaken.eq] at hadjoins
  exact hadjoins

theorem takes_of_blockStatements (hstatement : Sound (statement n) (Stated n))
    (budget : List Token) {c rest : Cursor} {trees : List Tree} (hc : c.IsLexical)
    (hbudget : c.tokens.length ≤ budget.length)
    (h : blockStatements (statement n) budget c = .done trees rest) :
    ∃ ts, Takes c ts rest ∧ States MayAdjoin n .sequence ts (.list trees) := by
  induction budget generalizing c trees with
  | nil => simp [tokens] at hbudget
  | cons u budget ih =>
      rw [blockStatements, bind_of_done (current_apply c)] at h
      split at h
      · obtain ⟨rfl, rfl⟩ := Step.done.inj h
        exact ⟨[], .refl hc, .empty⟩
      · split at h
        · cases h
        · split at h
          · next hsemicolon =>
            obtain ⟨t, mid, hadvance, h⟩ := bind_eq_done.mp h
            obtain ⟨rfl, htaken, -⟩ := takes_of_advance hc (by simp [hsemicolon]) hadvance
            have hlength := htaken.length_tokens
            simp only [List.length_cons, List.length_nil] at hlength hbudget
            obtain ⟨ts, hts, hstates⟩ := ih htaken.lexical (by omega) h
            exact ⟨_, htaken.trans hts, .semicolon hsemicolon hstates⟩
          · obtain ⟨first, mid, hfirst, h⟩ := bind_eq_done.mp h
            obtain ⟨others, last, hothers, h⟩ := bind_eq_done.mp h
            obtain ⟨rfl, rfl⟩ := Step.done.inj h
            obtain ⟨ts, hts, hstated⟩ := hstatement hc hfirst
            have hlength := hstated.length_lt hts
            simp only [List.length_cons] at hbudget
            obtain ⟨us, hus, hstates⟩ := ih hts.lexical (by omega) hothers
            exact ⟨_, hts.trans hus, hstated.more hus hstates⟩

theorem takes_of_programStatements (hstatement : Sound (statement n) (Stated n))
    (budget : List Token) {c rest : Cursor} {trees : List Tree} (hc : c.IsLexical)
    (hbudget : c.tokens.length ≤ budget.length)
    (h : programStatements (statement n) budget c = .done trees rest) :
    ∃ ts, Takes c ts rest ∧ States MayAdjoin n .sequence ts (.list trees) ∧
      rest.current.kind = .finish := by
  induction budget generalizing c trees with
  | nil => simp [tokens] at hbudget
  | cons u budget ih =>
      rw [programStatements, bind_of_done (current_apply c)] at h
      split at h
      · next hfinish =>
        obtain ⟨rfl, rfl⟩ := Step.done.inj h
        exact ⟨[], .refl hc, .empty, hfinish⟩
      · split at h
        · next hsemicolon =>
          obtain ⟨t, mid, hadvance, h⟩ := bind_eq_done.mp h
          obtain ⟨rfl, htaken, -⟩ := takes_of_advance hc (by simp [hsemicolon]) hadvance
          have hlength := htaken.length_tokens
          simp only [List.length_cons, List.length_nil] at hlength hbudget
          obtain ⟨ts, hts, hstates, hend⟩ := ih htaken.lexical (by omega) h
          exact ⟨_, htaken.trans hts, .semicolon hsemicolon hstates, hend⟩
        · obtain ⟨first, mid, hfirst, h⟩ := bind_eq_done.mp h
          obtain ⟨others, last, hothers, h⟩ := bind_eq_done.mp h
          obtain ⟨rfl, rfl⟩ := Step.done.inj h
          obtain ⟨ts, hts, hstated⟩ := hstatement hc hfirst
          have hlength := hstated.length_lt hts
          simp only [List.length_cons] at hbudget
          obtain ⟨us, hus, hstates, hend⟩ := ih hts.lexical (by omega) hothers
          exact ⟨_, hts.trans hus, hstated.more hus hstates, hend⟩

end Sequences

section Statements

variable {n : Nat}

theorem sound_block (hstatement : Sound (statement n) (Stated n)) :
    Sound (block (n + 1))
      (fun _ ts trees => States MayAdjoin (n + 1) .block ts (.list trees)) := by
  intro c trees rest hc h
  simp only [block] at h
  obtain ⟨left, afterLeft, hleft, h⟩ := bind_eq_done.mp h
  obtain ⟨hleft, hopened, -⟩ := takes_of_expectAs hc (by simp) hleft
  rw [bind_of_done (cursor_apply _)] at h
  obtain ⟨inner, afterInner, hinner, h⟩ := bind_eq_done.mp h
  obtain ⟨right, last, hright, h⟩ := bind_eq_done.mp h
  obtain ⟨rfl, rfl⟩ := Step.done.inj h
  obtain ⟨ts, hts, hstates⟩ :=
    takes_of_blockStatements hstatement _ hopened.lexical (Nat.le_refl _) hinner
  obtain ⟨hright, hclosed, -⟩ := takes_of_expectKind hts.lexical (by simp) hright
  exact ⟨_, (hopened.trans hts).trans hclosed, .block hleft hstates hright⟩

/-- A word of the language and an expression in parentheses behind it. -/
theorem takes_of_parenthesized {word opening closing : String} {c c₁ c₂ c₃ rest : Cursor}
    {t left right : Token} {e : Tree} (hc : c.IsLexical) (hword : expectKeyword word c = .done t c₁)
    (hleft : expectAs .leftParen opening c₁ = .done left c₂)
    (hinner : Parse.expression n c₂ = .done e c₃)
    (hright : expectAs .rightParen closing c₃ = .done right rest) :
    t.Is .keyword word ∧ left.kind = .leftParen ∧ right.kind = .rightParen ∧
      ∃ ts, Takes c (t :: left :: ts ++ [right]) rest ∧ Spells n .expression ts e := by
  obtain ⟨hkind, hliteral, hnamed⟩ := takes_of_expectKeyword hc hword
  obtain ⟨hleft, hopened, -⟩ := takes_of_expectAs hnamed.lexical (by simp) hleft
  obtain ⟨ts, hts, hwhole⟩ := sound_expression n hopened.lexical hinner
  obtain ⟨hright, hclosed, -⟩ := takes_of_expectAs hts.lexical (by simp) hright
  have htaken := hnamed.trans ((hopened.trans hts).trans hclosed)
  exact ⟨⟨hkind, hliteral⟩, hleft, hright, ts, by simpa using htaken, hwhole.spells⟩

theorem sound_printStatement : Sound (printStatement (n + 1)) (Stated (n + 2)) := by
  intro c tree rest hc h
  simp only [printStatement] at h
  obtain ⟨t, c₁, hword, h⟩ := bind_eq_done.mp h
  obtain ⟨left, c₂, hleft, h⟩ := bind_eq_done.mp h
  obtain ⟨e, c₃, hinner, h⟩ := bind_eq_done.mp h
  obtain ⟨right, c₄, hright, h⟩ := bind_eq_done.mp h
  obtain ⟨rfl, rfl⟩ := Step.done.inj h
  obtain ⟨ht, hleft, hright, ts, hts, hspells⟩ :=
    takes_of_parenthesized hc hword hleft hinner hright
  exact ⟨_, hts, .print ht hleft hspells hright, trivial⟩

/-- The last frame of a block, in which its statements are read. -/
def SoundBlock (n : Nat) : Prop :=
  Sound (block n) (fun _ ts trees => States MayAdjoin n .block ts (.list trees))

theorem sound_whileStatement (hblock : SoundBlock n) :
    Sound (whileStatement (n + 1)) (Stated (n + 2)) := by
  intro c tree rest hc h
  simp only [whileStatement] at h
  obtain ⟨t, c₁, hword, h⟩ := bind_eq_done.mp h
  obtain ⟨left, c₂, hleft, h⟩ := bind_eq_done.mp h
  obtain ⟨e, c₃, hinner, h⟩ := bind_eq_done.mp h
  obtain ⟨right, c₄, hright, h⟩ := bind_eq_done.mp h
  obtain ⟨body, c₅, hbody, h⟩ := bind_eq_done.mp h
  obtain ⟨rfl, rfl⟩ := Step.done.inj h
  obtain ⟨ht, hleft, hright, ts, hts, hspells⟩ :=
    takes_of_parenthesized hc hword hleft hinner hright
  obtain ⟨bs, hbs, hstates⟩ := hblock hts.lexical hbody
  have htaken := hts.trans hbs
  rw [List.append_assoc, List.singleton_append] at htaken
  exact ⟨_, htaken, .while ht hleft hspells hright hstates, trivial⟩

theorem sound_functionDeclaration (hblock : SoundBlock n) :
    Sound (functionDeclaration (n + 1)) (Stated (n + 2)) := by
  intro c tree rest hc h
  simp only [functionDeclaration] at h
  obtain ⟨word, c₁, hword, h⟩ := bind_eq_done.mp h
  obtain ⟨name, c₂, hname, h⟩ := bind_eq_done.mp h
  obtain ⟨params, c₃, hparams, h⟩ := bind_eq_done.mp h
  obtain ⟨body, c₄, hbody, h⟩ := bind_eq_done.mp h
  obtain ⟨rfl, rfl⟩ := Step.done.inj h
  obtain ⟨hkind, hliteral, hworded⟩ := takes_of_expectKeyword hc hword
  obtain ⟨hidentifier, hnamed, hlexical⟩ := takes_of_expectAs hworded.lexical (by simp) hname
  obtain ⟨x, hx, -⟩ := hlexical.text (by simp [hidentifier])
  obtain ⟨ps, hps, hparameters⟩ := sound_parameterList hnamed.lexical hparams
  obtain ⟨bs, hbs, hstates⟩ := hblock hps.lexical hbody
  rw [hx]
  have htaken := hworded.trans (hnamed.trans (hps.trans hbs))
  refine ⟨word :: name :: ps ++ bs, by simpa using htaken, ?_, trivial⟩
  exact .keywordDeclaration ⟨hkind, hliteral⟩ ⟨hidentifier, hx⟩ hparameters hstates

/-- The parser of an `if` takes tokens that spell an `if`. -/
def SoundIf (n : Nat) : Prop :=
  Sound (ifStatement n) (fun _ ts tree => States MayAdjoin n .conditional ts tree ∧
    ∃ c body otherwise, tree = .ifStatement c body otherwise)

theorem sound_ifStatement (hblock : SoundBlock n) (hif : SoundIf n) : SoundIf (n + 1) := by
  intro c tree rest hc h
  simp only [ifStatement] at h
  obtain ⟨t, c₁, hword, h⟩ := bind_eq_done.mp h
  obtain ⟨left, c₂, hleft, h⟩ := bind_eq_done.mp h
  obtain ⟨e, c₃, hinner, h⟩ := bind_eq_done.mp h
  obtain ⟨right, c₄, hright, h⟩ := bind_eq_done.mp h
  obtain ⟨body, c₅, hbody, h⟩ := bind_eq_done.mp h
  obtain ⟨ht, hleft, hright, ts, hts, hspells⟩ :=
    takes_of_parenthesized hc hword hleft hinner hright
  obtain ⟨bs, hbs, hstates⟩ := hblock hts.lexical hbody
  have htaken := hts.trans hbs
  rw [List.append_assoc, List.singleton_append] at htaken
  rw [bind_of_done (isAtWord_apply _ _ _)] at h
  split at h
  · next helse =>
    rw [fits_word, decide_eq_true_eq] at helse
    obtain ⟨other, c₆, hadvance, h⟩ := bind_eq_done.mp h
    obtain ⟨rfl, hother, -⟩ := takes_of_advance hbs.lexical (by simp [helse.1]) hadvance
    rw [bind_of_done (isAtWord_apply _ _ _)] at h
    split at h
    · obtain ⟨inner, c₇, hrest, h⟩ := bind_eq_done.mp h
      obtain ⟨rfl, rfl⟩ := Step.done.inj h
      obtain ⟨us, hus, hconditional, -⟩ := hif hother.lexical hrest
      refine ⟨_, htaken.trans (hother.trans hus), ?_, _, _, _, rfl⟩
      exact .elseIf ht hleft hspells hright hstates helse hconditional
    · obtain ⟨otherwise, c₇, hrest, h⟩ := bind_eq_done.mp h
      obtain ⟨rfl, rfl⟩ := Step.done.inj h
      obtain ⟨us, hus, hotherwise⟩ := hblock hother.lexical hrest
      refine ⟨_, htaken.trans (hother.trans hus), ?_, _, _, _, rfl⟩
      exact .ifElse ht hleft hspells hright hstates helse hotherwise
  · obtain ⟨rfl, rfl⟩ := Step.done.inj h
    exact ⟨_, htaken, .ifOnly ht hleft hspells hright hstates, _, _, _, rfl⟩

theorem sound_returnStatement : Sound (returnStatement (n + 1)) (Stated (n + 2)) := by
  intro c tree rest hc h
  simp only [returnStatement] at h
  obtain ⟨word, c₁, hword, h⟩ := bind_eq_done.mp h
  obtain ⟨hkind, hworded, -⟩ := takes_of_expectKind hc (by simp) hword
  rw [bind_of_done (current_apply _)] at h
  split at h
  · next hend =>
    obtain ⟨rfl, rfl⟩ := Step.done.inj h
    exact ⟨_, hworded, .emptyReturn hkind, hend⟩
  · obtain ⟨e, c₂, hvalue, h⟩ := bind_eq_done.mp h
    obtain ⟨rfl, rfl⟩ := Step.done.inj h
    obtain ⟨ts, hts, hwhole⟩ := sound_expression n hworded.lexical hvalue
    refine ⟨_, hworded.trans hts, .valueReturn hkind hwhole.spells, ?_⟩
    exact (mayAdjoin_return hwhole.spells.ne_scalar).mpr
      (hwhole.not_carriesOn hts.lexical.current [word])

/-- A call of a method that stands in no parentheses is a name, a dot, a member and arguments. -/
theorem Spells.exists_of_bareMethod {form : Form} {ts : List Token} {e : Tree}
    (h : Spells n form ts e) (hitems : form ≠ .items) (hbare : BareMethod ts e) :
    ∃ k t dot member m left us right es, k + 3 ≤ n ∧
      ts = t :: dot :: member :: left :: us ++ [right] ∧ t.kind = .identifier ∧
      dot.kind = .dot ∧ Member member m ∧ left.kind = .leftParen ∧
      Spells k .items us (.list es) ∧ right.kind = .rightParen := by
  obtain ⟨⟨array, method, args, rfl⟩, hhead⟩ := hbare
  generalize he : Tree.methodExpression array method args = e at h
  induction h with
  | loosen _ hform _ ih =>
      have hinner := ih (Form.tighter_ne_items hform) hhead he
      obtain ⟨k, t, dot, member, m, left, us, right, es, hle, hshape⟩ := hinner
      exact ⟨k, t, dot, member, m, left, us, right, es, Nat.le_succ_of_le hle, hshape⟩
  | @join n form => cases form <;> cases he
  | parens hleft => exact absurd hleft (hhead _ rfl)
  | @method n t x dot member m left us right es ht hdot hmember hleft hargs hright =>
      exact ⟨n, t, dot, member, m, left, us, right, es, Nat.le_refl _, rfl, ht.1, hdot, hmember,
        hleft, hargs, hright⟩
  | lastItem => exact absurd rfl hitems
  | moreItems => exact absurd rfl hitems
  | noItems => exact absurd rfl hitems
  | _ => cases he

/-- What is read as an expression, after it was read as no other statement, is no bare call. -/
theorem not_bareMethod {ts : List Token} {e : Tree} {c rest : Cursor} (htaken : Takes c ts rest)
    (hwhole : Whole n .expression rest.current ts e)
    (hnone : c.current.kind = .identifier → identifierStatement n c = .done none c) :
    ¬ BareMethod ts e := by
  intro hbare
  obtain ⟨k, t, dot, member, m, left, us, right, es, hle, rfl, ht, hdot, hmember, hleft, hargs,
    hright⟩ := hwhole.spells.exists_of_bareMethod (by simp) hbare
  obtain ⟨l, rfl⟩ : ∃ l, n = l + 2 := ⟨n - 2, by omega⟩
  have hitems := hargs.mono (show k ≤ l by omega)
  have hread := identifierStatement_method ht hdot hmember hleft
    (arguments_parens hleft (hitems.parsed.itemsUntil_closed hitems (.inl rfl) hright rest) hright)
  rw [hwhole.not_continues htaken.lexical.current, if_neg (by simp)] at hread
  rw [htaken.eq] at hnone
  cases hread.symm.trans (hnone ht)

/-- Behind the parenthesis of a call, only an operator could carry the call on. -/
theorem mayAdjoin_call {array method args : Tree} {ts : List Token} {right next : Token}
    (hright : right.kind = .rightParen) (hnext : continuesExpression next.kind = false) :
    MayAdjoin (.methodCall array method args) (ts ++ [right]) next := by
  intro last hlast
  rw [List.getLast?_concat, Option.mem_some] at hlast
  subst hlast
  simp only [continuesExpression, decide_eq_false_iff_not, not_or] at hnext
  obtain ⟨hoperator, hcomparison, hpower⟩ := hnext
  rintro (hkind | hkind | hkind | ⟨hlast, -⟩ | ⟨hlast, -⟩)
  · exact hoperator hkind
  · exact hcomparison hkind
  · exact hpower hkind
  · simp [hright] at hlast
  · exact absurd hlast.1 (by simp [hright])

/-- How the parser of a statement that starts with a name ends, once it has the name: it goes back,
or it reads one of four statements. -/
inductive NameLed (n : Nat) (c : Cursor) (name : Token) (c₁ : Cursor) : Option Tree → Cursor → Prop
  | back : NameLed n c name c₁ none c
  | assignment {sign c₂ e rest} (hsign : c₁.current.kind = .assign)
      (hadvance : Parse.advance c₁ = .done sign c₂)
      (hvalue : Parse.expression n c₂ = .done e rest) :
      NameLed n c name c₁ (some (.assignment name.literal.tree e)) rest
  | elementAssignment {left c₂ index c₃ right c₄ sign c₅ e rest}
      (hleft : c₁.current.kind = .leftBracket) (hopen : Parse.advance c₁ = .done left c₂)
      (hindex : Parse.expression n c₂ = .done index c₃)
      (hright : expectAs .rightBracket "']'" c₃ = .done right c₄)
      (hsign : c₄.current.kind = .assign) (hadvance : Parse.advance c₄ = .done sign c₅)
      (hvalue : Parse.expression n c₅ = .done e rest) :
      NameLed n c name c₁ (some (.elementAssignment name.literal.tree index e)) rest
  | methodCall {dot c₂ method c₃ args rest} (hdot : c₁.current.kind = .dot)
      (hadvance : Parse.advance c₁ = .done dot c₂)
      (hmember : c₂.current.kind = .identifier ∨ c₂.current.kind = .keyword)
      (hmethod : Parse.advance c₂ = .done method c₃)
      (hargs : arguments n "'('" c₃ = .done args rest)
      (hends : continuesExpression rest.current.kind = false) :
      NameLed n c name c₁
        (some (.methodCall name.literal.tree method.literal.tree (.list args))) rest
  | declaration {params c₂ body rest} (hparams : parametersIfPresent c₁ = .done (some params) c₂)
      (hbody : Parse.block n c₂ = .done body rest) :
      NameLed n c name c₁
        (some (.functionDeclaration name.literal.tree (.list params) (.list body))) rest

/-- A statement that starts with a name is read in one of these ways. -/
theorem nameLed_of_identifierStatement {c rest : Cursor} {tree? : Option Tree}
    (h : identifierStatement (n + 1) c = .done tree? rest) :
    ∃ name c₁, expectKind .identifier c = .done name c₁ ∧ NameLed n c name c₁ tree? rest := by
  simp only [identifierStatement] at h
  rw [bind_of_done (cursor_apply _)] at h
  obtain ⟨name, c₁, hname, h⟩ := bind_eq_done.mp h
  refine ⟨name, c₁, hname, ?_⟩
  rw [bind_of_done (current_apply _)] at h
  cases hnext : c₁.current.kind with
  | assign =>
      simp only [hnext] at h
      obtain ⟨sign, c₂, hadvance, h⟩ := bind_eq_done.mp h
      obtain ⟨e, c₃, hvalue, h⟩ := bind_eq_done.mp h
      obtain ⟨rfl, rfl⟩ := Step.done.inj h
      exact .assignment hnext hadvance hvalue
  | leftBracket =>
      simp only [hnext] at h
      obtain ⟨left, c₂, hopen, h⟩ := bind_eq_done.mp h
      obtain ⟨index, c₃, hindex, h⟩ := bind_eq_done.mp h
      obtain ⟨right, c₄, hright, h⟩ := bind_eq_done.mp h
      rw [bind_of_done (isAt_apply _ _)] at h
      split at h
      · next hsign =>
        obtain ⟨sign, c₅, hadvance, h⟩ := bind_eq_done.mp h
        obtain ⟨e, c₆, hvalue, h⟩ := bind_eq_done.mp h
        obtain ⟨rfl, rfl⟩ := Step.done.inj h
        exact .elementAssignment hnext hopen hindex hright (of_decide_eq_true hsign) hadvance hvalue
      · cases h
        exact .back
  | dot =>
      simp only [hnext] at h
      obtain ⟨dot, c₂, hadvance, h⟩ := bind_eq_done.mp h
      rw [bind_of_done (cursor_apply _)] at h
      split at h
      · next hmember =>
        obtain ⟨method, c₃, hmethod, h⟩ := bind_eq_done.mp h
        obtain ⟨args, c₄, hargs, h⟩ := bind_eq_done.mp h
        rw [bind_of_done (current_apply _)] at h
        split at h
        · cases h
          exact .back
        · next hends =>
          obtain ⟨rfl, rfl⟩ := Step.done.inj h
          exact .methodCall hnext hadvance hmember.1 hmethod hargs (Bool.eq_false_iff.mpr hends)
      · cases h
        exact .back
  | leftParen =>
      simp only [hnext] at h
      obtain ⟨params?, c₂, hparams, h⟩ := bind_eq_done.mp h
      rw [bind_of_done (isAt_apply _ _)] at h
      cases params? with
      | none =>
          cases h
          exact .back
      | some params =>
          cases hopens : decide (c₂.current.kind = .leftBrace) with
          | false =>
              rw [hopens] at h
              cases h
              exact .back
          | true =>
              rw [hopens] at h
              dsimp only at h
              obtain ⟨body, c₃, hbody, h⟩ := bind_eq_done.mp h
              obtain ⟨rfl, rfl⟩ := Step.done.inj h
              exact .declaration hparams hbody
  | _ =>
      simp only [hnext] at h
      cases h
      exact .back

/-- A statement that starts with a name is taken, or the parser goes back to the name. -/
theorem takes_of_identifierStatement (hblock : SoundBlock n) {c rest : Cursor} {tree? : Option Tree}
    (hc : c.IsLexical) (h : identifierStatement (n + 1) c = .done tree? rest) :
    (∃ tree ts, tree? = some tree ∧ Takes c ts rest ∧ Stated (n + 2) rest.current ts tree) ∨
      tree? = none ∧ rest = c := by
  obtain ⟨name, c₁, hname, hled⟩ := nameLed_of_identifierStatement h
  obtain ⟨hkind, hnamed, hlexical⟩ := takes_of_expectKind hc (by simp) hname
  obtain ⟨x, hliteral, -⟩ := hlexical.text (by simp [hkind])
  have hx : name.Is .identifier x := ⟨hkind, hliteral⟩
  cases hled with
  | back => exact .inr ⟨rfl, rfl⟩
  | @assignment _ _ _ _ hsign hadvance hvalue =>
      obtain ⟨rfl, hsigned, -⟩ := takes_of_advance hnamed.lexical (by simp [hsign]) hadvance
      obtain ⟨ts, hts, hwhole⟩ := sound_expression n hsigned.lexical hvalue
      rw [hliteral]
      refine .inl ⟨_, _, rfl, hnamed.trans (hsigned.trans hts),
        .assignment hx hsign hwhole.spells, ?_⟩
      exact hwhole.not_carriesOn hts.lexical.current [name, c₁.current]
  | @elementAssignment _ _ _ _ right c₄ _ _ _ _ hleft hopen hindex hright hsign hadvance hvalue =>
      obtain ⟨rfl, hopened, -⟩ := takes_of_advance hnamed.lexical (by simp [hleft]) hopen
      obtain ⟨is, his, hwhole⟩ := sound_expression n hopened.lexical hindex
      obtain ⟨hright, hclosed, -⟩ := takes_of_expectAs his.lexical (by simp) hright
      obtain ⟨rfl, hsigned, -⟩ := takes_of_advance hclosed.lexical (by simp [hsign]) hadvance
      obtain ⟨ts, hts, hassigned⟩ := sound_expression n hsigned.lexical hvalue
      have htaken := hnamed.trans ((hopened.trans (his.trans hclosed)).trans (hsigned.trans hts))
      rw [hliteral]
      refine .inl ⟨_, name :: c₁.current :: is ++ right :: c₄.current :: ts, rfl,
        by simpa using htaken, .elementAssignment hx hleft hwhole.spells hright hsign
          hassigned.spells, ?_⟩
      have hcarries := hassigned.not_carriesOn hts.lexical.current
        (name :: c₁.current :: is ++ [right, c₄.current])
      simpa [MayAdjoin] using hcarries
  | @methodCall _ c₂ _ _ _ _ hdot hadvance hmember hmethod hargs hends =>
      obtain ⟨rfl, hdotted, -⟩ := takes_of_advance hnamed.lexical (by simp [hdot]) hadvance
      obtain ⟨rfl, hmembered, hword⟩ :=
        takes_of_advance hdotted.lexical (by rcases hmember with h | h <;> simp [h]) hmethod
      obtain ⟨m, hm, -⟩ := hword.text (by rcases hmember with h | h <;> simp [h])
      have hnamer : Member c₂.current m := hmember.imp (fun h => ⟨h, hm⟩) (fun h => ⟨h, hm⟩)
      obtain ⟨k, left, us, right, hk, harguments, hleft, hitems, hright⟩ :=
        exists_of_arguments (fun m _ => sound_expression m) hmembered.lexical hargs
      subst hk
      have htaken := hnamed.trans (hdotted.trans (hmembered.trans harguments))
      rw [hliteral, hm]
      exact .inl ⟨_, name :: c₁.current :: c₂.current :: left :: us ++ [right], rfl,
        by simpa using htaken, .methodCall hx hdot hnamer hleft hitems hright,
        mayAdjoin_call hright hends⟩
  | declaration hparams hbody =>
      obtain ⟨ps, hps, hparameters⟩ := takes_of_parametersIfPresent hnamed.lexical hparams
      obtain ⟨bs, hbs, hstates⟩ := hblock hps.lexical hbody
      have htaken := hnamed.trans (hps.trans hbs)
      rw [hliteral]
      exact .inl ⟨_, name :: ps ++ bs, rfl, by simpa using htaken,
        .declaration hx hparameters hstates, trivial⟩

/-- A statement that was read as an expression spells an expression statement. -/
theorem stated_of_expression {c rest : Cursor} {ts : List Token} {e : Tree}
    (hwhole : Whole n .expression rest.current ts e) (htaken : Takes c ts rest)
    (hnone : c.current.kind = .identifier → identifierStatement n c = .done none c) :
    Stated (n + 1) rest.current ts (.expressionStatement e) where
  states := .expression hwhole.spells (not_bareMethod htaken hwhole hnone)
  adjoins := hwhole.not_carriesOn htaken.lexical.current []

theorem sound_statement_succ (hblock : ∀ m < n, SoundBlock m) (hif : SoundIf n) :
    Sound (statement (n + 1)) (Stated (n + 1)) := by
  intro c tree rest hc h
  by_cases hreturn : c.current.kind = .giveBack
  · rw [statement_giveBack hreturn] at h
    cases n with
    | zero => cases h
    | succ n => exact sound_returnStatement hc h
  by_cases hname : c.current.kind = .identifier
  · simp only [statement] at h
    rw [bind_of_done (current_apply c), hname] at h
    dsimp only at h
    obtain ⟨tree?, mid, hidentifier, h⟩ := bind_eq_done.mp h
    cases n with
    | zero => cases hidentifier
    | succ n =>
        rcases takes_of_identifierStatement (hblock n (Nat.lt_succ_self n)) hc hidentifier with
          ⟨first, ts, hfirst, hts, hstated⟩ | ⟨hnone, hmid⟩
        · rw [hfirst] at h
          obtain ⟨rfl, rfl⟩ := Step.done.inj h
          exact ⟨ts, hts, hstated⟩
        · rw [hnone, hmid] at h hidentifier
          obtain ⟨e, last, hvalue, h⟩ := bind_eq_done.mp h
          obtain ⟨rfl, rfl⟩ := Step.done.inj h
          obtain ⟨ts, hts, hwhole⟩ := sound_expression _ hc hvalue
          exact ⟨ts, hts, stated_of_expression hwhole hts (fun _ => hidentifier)⟩
  by_cases hfunction : c.current.Is .keyword "function"
  · rw [statement_function hfunction] at h
    cases n with
    | zero => cases h
    | succ n => exact sound_functionDeclaration (hblock n (Nat.lt_succ_self n)) hc h
  by_cases hprint : c.current.Is .keyword "print"
  · rw [statement_print hprint] at h
    cases n with
    | zero => cases h
    | succ n => exact sound_printStatement hc h
  by_cases hcondition : c.current.Is .keyword "if"
  · rw [statement_if hcondition] at h
    obtain ⟨ts, hts, hstates, cond, body, otherwise, rfl⟩ := hif hc h
    exact ⟨ts, hts, .conditional hstates, trivial⟩
  by_cases hwhile : c.current.Is .keyword "while"
  · rw [statement_while hwhile] at h
    cases n with
    | zero => cases h
    | succ n => exact sound_whileStatement (hblock n (Nat.lt_succ_self n)) hc h
  · have hword : ∀ word ∈ statementWords, ¬ c.current.Is .keyword word := by
      simp [statementWords, hfunction, hprint, hcondition, hwhile]
    rw [statement_expression hreturn hname hword] at h
    obtain ⟨e, last, hvalue, h⟩ := bind_eq_done.mp h
    obtain ⟨rfl, rfl⟩ := Step.done.inj h
    obtain ⟨ts, hts, hwhole⟩ := sound_expression _ hc hvalue
    exact ⟨ts, hts, stated_of_expression hwhole hts (fun h => absurd h hname)⟩

end Statements

/-- The parsers of statements, of an `if` and of blocks take tokens that spell what they make. -/
theorem sound_statements (n : Nat) :
    Sound (statement n) (Stated n) ∧ SoundIf n ∧ SoundBlock n := by
  induction n using Nat.strongRecOn with
  | ind n ih =>
      cases n with
      | zero =>
          unfold SoundIf SoundBlock
          rw [statement_zero, ifStatement_zero, block_zero]
          exact ⟨sound_tooDeep _, sound_tooDeep _, sound_tooDeep _⟩
      | succ n =>
          obtain ⟨hstatement, hif, hblock⟩ := ih n (Nat.lt_succ_self n)
          have hblocks : ∀ m < n, SoundBlock m :=
            fun m hm => (ih m (Nat.lt_succ_of_lt hm)).2.2
          exact ⟨sound_statement_succ hblocks hif, sound_ifStatement hblock hif,
            sound_block hstatement⟩

/-- A program read from tokens that a text can spell is derived from the tokens in front of the
closing one. -/
theorem derivation_of_program {n : Nat} {ts : List Token} {closing : Token} {trees : List Tree}
    {rest : Cursor} (hts : ∀ t ∈ ts, t.IsLexical) (hclosing : closing.kind = .finish)
    (h : program n ((⟨closing, []⟩ : Cursor).prepend ts) = .done trees rest) :
    Derivation n ts trees := by
  obtain ⟨us, hus, hstates, hend⟩ := takes_of_programStatements (sound_statements n).1 _
    (isLexical_prepend hts hclosing) (Nat.le_refl _) h
  -- Only the closing token is left, so the tokens that were taken are the others.
  have hrest : us ++ [rest.current] = ts ++ [closing] := by
    have htokens := congrArg tokens hus.eq
    rw [tokens_prepend, tokens_prepend, hus.lexical.tokens_of_finish hend] at htokens
    exact htokens.symm
  obtain ⟨rfl, -⟩ := List.append_inj' hrest rfl
  exact hstates

theorem exists_of_ofTokens {tokens : List Token} {trees : List Tree}
    (h : Parse.ofTokens tokens = .ok trees) :
    ∃ rest, program nestingLimit (Cursor.ofTokens tokens) = .done trees rest := by
  rw [Parse.ofTokens] at h
  cases hprogram : program nestingLimit (Cursor.ofTokens tokens) with
  | done result rest =>
      rw [hprogram] at h
      obtain rfl := Except.ok.inj h
      exact ⟨rest, rfl⟩
  | refused why rest =>
      rw [hprogram] at h
      cases h

/-- Whatever a text is parsed as is derived from its tokens: the tokens up to the closing one are
used once, in order, as the grammar has it. -/
theorem derivation_of_ofTokens {text : String} {tokens : List Token} {trees : List Tree}
    (hscan : Token.scan text = .ok tokens) (h : Parse.ofTokens tokens = .ok trees) :
    ∃ body closing, tokens = body ++ [closing] ∧ closing.kind = .finish ∧
      Derivation nestingLimit body trees := by
  obtain ⟨body, closing, rfl, hclosing, hbody⟩ := Token.scan_lexical hscan
  obtain ⟨rest, hprogram⟩ := exists_of_ofTokens h
  rw [Cursor.ofTokens_concat hclosing] at hprogram
  exact ⟨body, closing, rfl, hclosing, derivation_of_program hbody hclosing hprogram⟩

theorem derivation_of_adjacent_statements :
    let body : List Token := [⟨.identifier, .text "x", ⟨1, 1⟩⟩, ⟨.assign, .text "=", ⟨1, 2⟩⟩,
      ⟨.operator, .text "-", ⟨1, 3⟩⟩, ⟨.identifier, .text "y", ⟨1, 4⟩⟩, ⟨.power, .text "^", ⟨1, 5⟩⟩,
      ⟨.identifier, .text "z", ⟨1, 6⟩⟩, ⟨.identifier, .text "f", ⟨1, 8⟩⟩,
      ⟨.leftParen, .text "(", ⟨1, 9⟩⟩, ⟨.rightParen, .text ")", ⟨1, 10⟩⟩]
    let closing : Token := ⟨.finish, .absent, ⟨1, 11⟩⟩
    let trees : List Tree := [.assignment (.text "x")
        (.unary (.text "-") (.binary (.text "^") (.variable (.text "y")) (.variable (.text "z")))),
      .expressionStatement (.call (.text "f") (.list []))]
    Token.scan "x=-y^z f()" = .ok (body ++ [closing]) ∧
      Parse.ofTokens (body ++ [closing]) = .ok trees ∧
      ∃ ts last, body ++ [closing] = ts ++ [last] ∧ last.kind = .finish ∧
        Derivation nestingLimit ts trees := by
  intro body closing trees
  have hscan : Token.scan "x=-y^z f()" = .ok (body ++ [closing]) := by decide +kernel
  have hparse : Parse.ofTokens (body ++ [closing]) = .ok trees := by cbv
  exact ⟨hscan, hparse, derivation_of_ofTokens hscan hparse⟩

end Sprig.Grammar
