import Sprig.Proofs.Grammar.ExpressionComplete
import Sprig.Proofs.Parse.Statement
import Sprig.Parse.Program

/-!
# Every program of the grammar is parsed

A parser of statements that stands in front of tokens that spell a statement takes exactly these
tokens and makes that statement, provided the token behind them may stand there: it ends a
statement, or it starts one and does not carry on the statement in front of it. So the parser gives
back every program from every way to write it down.

## Implementation notes

A statement that starts with a name is first read as something else than an expression. An
expression that starts with a name consists of a primary expression that does, and maybe of an
operator and more behind it. What the first reading makes of it is settled by the primary expression
and the kind of the token behind.

A sequence of statements is not read to its end here: the loop over statements has taken the
sequence and goes on from there. So whatever else follows can be read by the same loop.
-/

namespace Sprig.Grammar

open Parse

/-- The kinds of the tokens that may stand behind a statement. -/
def endKinds : List Token.Kind := [.semicolon, .rightBrace, .finish]

/-- A token that carries nothing on behind a token carries on no expression that ends in it. -/
theorem Stops.of_not_carriesOn {form : Form} {last next : Token} (h : ¬ CarriesOn last next) :
    Stops form last next := by
  simp only [CarriesOn, not_or, not_and] at h
  obtain ⟨hoperator, hcomparison, hpower, hopens, hcalls⟩ := h
  exact ⟨fun _ => hpower, fun inner _ => inner.joins_of_kind hoperator hcomparison, hopens, hcalls⟩

/-- The kinds of tokens that no expression has inside. -/
theorem Spells.kind_ne {n : Nat} {form : Form} {ts : List Token} {e : Tree}
    (h : Spells n form ts e) : ∀ t ∈ ts, t.kind ≠ .leftBrace ∧ t.kind ≠ .finish := by
  induction h with
  | loosen _ _ _ ih => exact ih
  | join _ hmem hop _ ihfront ihback =>
      have hkind := Form.kind_of_operator hmem hop
      intro t ht
      rcases List.mem_append.mp ht with ht | ht
      · exact ihfront t ht
      · rcases List.mem_cons.mp ht with rfl | ht
        · rcases hkind with hkind | hkind <;> simp [hkind]
        · exact ihback t ht
  | negate hminus _ ih => simpa [hminus.1] using ih
  | raise _ hcaret _ ihfront ihback =>
      intro t ht
      rcases List.mem_append.mp ht with ht | ht
      · exact ihfront t ht
      · rcases List.mem_cons.mp ht with rfl | ht
        · simp [hcaret.1]
        · exact ihback t ht
  | parens hleft _ hright ih => simp_all [or_imp, forall_and]
  | number hkind => simp [hkind]
  | string ht => simp [ht.1]
  | yes ht => simp [ht.1]
  | no ht => simp [ht.1]
  | array hleft _ hright ih => simp_all [or_imp, forall_and]
  | name ht => simp [ht.1]
  | element ht hleft _ hright ih => simp_all [or_imp, forall_and, ht.1]
  | length ht hdot hmember =>
      rcases hmember with hmember | hmember <;> simp [ht.1, hdot, hmember.1]
  | method ht hdot hmember hleft _ hright ih =>
      rcases hmember with hmember | hmember <;>
        simp_all [or_imp, forall_and, ht.1, hmember.1]
  | call ht hleft _ hright ih => simp_all [or_imp, forall_and, ht.1]
  | noItems => simp
  | lastItem _ ih => exact ih
  | moreItems _ hcomma _ ihitem ihrest =>
      intro t ht
      rcases List.mem_append.mp ht with ht | ht
      · exact ihitem t ht
      · rcases List.mem_cons.mp ht with rfl | ht
        · simp [hcomma]
        · exact ihrest t ht

namespace Spells

variable {n m : Nat} {form : Form} {ts : List Token} {t : Token} {e : Tree}

/-- A word of the language that an expression starts with is a Boolean. -/
theorem head_word (h : Spells n form ts e) (hitems : form ≠ .items) :
    ∀ t ∈ ts.head?, t.kind = .keyword → t.Is .keyword "true" ∨ t.Is .keyword "false" := by
  induction h with
  | @loosen n form ts e hprimary hitems _ ih =>
      exact ih (Form.tighter_ne_items hitems)
  | @join n form ls op rs kind word left right front _ _ _ ih _ =>
      obtain ⟨t, us, rfl, -⟩ := front.exists_head hitems
      exact ih hitems
  | negate hminus => simp [hminus.1]
  | raise front _ _ ih =>
      obtain ⟨t, us, rfl, -⟩ := front.exists_head (by simp)
      exact ih (by simp)
  | parens hleft => simp [hleft]
  | number hkind => simp [hkind]
  | string ht => simp [ht.1]
  | yes ht => simp [ht]
  | no ht => simp [ht]
  | array hleft => simp [hleft]
  | name ht => simp [ht.1]
  | element ht => simp [ht.1]
  | length ht => simp [ht.1]
  | method ht => simp [ht.1]
  | call ht => simp [ht.1]
  | noItems => exact absurd rfl hitems
  | lastItem => exact absurd rfl hitems
  | moreItems => exact absurd rfl hitems

/-- An expression that starts with a name is a primary expression, or a primary expression and an
operator behind it. -/
theorem exists_lead (h : Spells n form ts e) (hitems : form ≠ .items)
    (hname : ∀ t ∈ ts.head?, t.kind = .identifier) :
    ∃ m us base vs, m ≤ n ∧ Spells m .primary us base ∧ ts = us ++ vs ∧
      (vs = [] ∧ base = e ∨ ∃ op ws, vs = op :: ws ∧ continuesExpression op.kind = true) := by
  by_cases hprimary : form = .primary
  · subst hprimary
    exact ⟨n, ts, e, [], Nat.le_refl n, h, by simp, .inl ⟨rfl, rfl⟩⟩
  induction h with
  | @loosen n form ts e _ _ inner ih =>
      by_cases htighter : form.tighter = .primary
      · exact ⟨n, ts, e, [], Nat.le_succ n, htighter ▸ inner, by simp, .inl ⟨rfl, rfl⟩⟩
      · obtain ⟨m, us, base, vs, hle, hbase, hts, htail⟩ :=
          ih (Form.tighter_ne_items hitems) hname htighter
        exact ⟨m, us, base, vs, Nat.le_succ_of_le hle, hbase, hts, htail⟩
  | @join n form ls op rs kind word left right front hmem hop _ ih _ =>
      obtain ⟨t, ws, hls, -⟩ := front.exists_head hitems
      have hlead : ∀ t ∈ ls.head?, t.kind = .identifier := by
        subst hls
        exact hname
      have hop : continuesExpression op.kind = true := by
        rcases Form.kind_of_operator hmem hop with hkind | hkind <;>
          simp [continuesExpression, hkind]
      obtain ⟨m, us, base, vs, hle, hbase, rfl, htail⟩ := ih hitems hlead hprimary
      refine ⟨m, us, base, vs ++ op :: rs, hle, hbase, by simp, .inr ?_⟩
      rcases htail with ⟨rfl, -⟩ | ⟨first, ws, rfl, hfirst⟩
      · exact ⟨op, rs, rfl, hop⟩
      · exact ⟨first, ws ++ op :: rs, rfl, hfirst⟩
  | negate hminus =>
      have hkind := hname _ rfl
      simp [hminus.1] at hkind
  | @raise n ls caret rs base exponent front hcaret =>
      refine ⟨n, ls, base, caret :: rs, Nat.le_succ n, front, rfl, .inr ⟨caret, rs, rfl, ?_⟩⟩
      simp [continuesExpression, hcaret.1]
  | noItems => exact absurd rfl hitems
  | lastItem => exact absurd rfl hitems
  | moreItems => exact absurd rfl hitems
  | _ => exact absurd rfl hprimary

/-- A primary expression that starts with a name is no other statement, unless it is a call of a
method that no operator follows. -/
theorem identifierStatement_primary (h : Spells m .primary ts e) (hle : m ≤ n + 1)
    (hname : ∀ t ∈ ts.head?, t.kind = .identifier) {c : Cursor}
    (hassign : c.current.kind ≠ .assign) (hbrace : c.current.kind ≠ .leftBrace)
    (hstops : ∀ last ∈ ts.getLast?, Stops .primary last c.current)
    (hmethod : (∃ array method args, e = .methodExpression array method args) →
      continuesExpression c.current.kind = true) :
    identifierStatement (n + 1) (c.prepend ts) = .done none (c.prepend ts) := by
  cases h with
  | loosen hprimary => exact absurd rfl hprimary
  | join _ hmem => exact absurd hmem List.not_mem_nil
  | parens hleft => simp [hleft] at hname
  | number hkind => simp [hkind] at hname
  | string ht => simp [ht.1] at hname
  | yes ht => simp [ht.1] at hname
  | no ht => simp [ht.1] at hname
  | array hleft => simp [hleft] at hname
  | name ht => exact identifierStatement_name ht.1 hassign ((hstops _ rfl).opens ht.1)
  | @element k t x left ts right e ht hleft index hright =>
      have hindex := (index.mono (show k ≤ n by omega)).parsed.expression_closed
        (show right.kind ∈ closerKinds by simp [closerKinds, hright]) c
      rw [identifierStatement_index ht.1 hleft hindex hright, bind_of_done (isAt_apply _ c),
        decide_eq_false hassign, if_neg (by simp)]
      rfl
  | length ht hdot hmember =>
      apply identifierStatement_property ht.1 hdot
      rcases hmember with hmember | hmember
      · exact ((hstops _ rfl).opens hmember.1).1
      · exact (hstops _ rfl).calls hmember
  | @method k t x dot member w left ts right es ht hdot hmember hleft args hright =>
      obtain ⟨n, rfl⟩ : ∃ l, n = l + 1 := ⟨n - 1, by omega⟩
      have hargs := args.mono (show k ≤ n by omega)
      have hitems := hargs.parsed.itemsUntil_closed hargs (.inl rfl) hright c
      have hstep := identifierStatement_method ht.1 hdot hmember hleft
        (arguments_parens hleft hitems hright)
      rw [if_pos (hmethod ⟨_, _, _, rfl⟩)] at hstep
      exact hstep
  | call ht hleft args hright =>
      exact identifierStatement_call ht.1 hleft hright (fun u hu => (args.kind_ne u hu).1) hbrace

/-- An expression that starts with a name and is no bare call of a method is no other statement. -/
theorem identifierStatement_expression (h : Spells (n + 1) .expression ts e)
    (hbare : ¬ BareMethod ts e) (hname : ∀ t ∈ ts.head?, t.kind = .identifier) {c : Cursor}
    (hassign : c.current.kind ≠ .assign) (hbrace : c.current.kind ≠ .leftBrace)
    (hstops : ∀ last ∈ ts.getLast?, ¬ CarriesOn last c.current) :
    identifierStatement (n + 1) (c.prepend ts) = .done none (c.prepend ts) := by
  obtain ⟨m, us, base, vs, hle, hbase, rfl, htail⟩ := h.exists_lead (by simp) hname
  obtain ⟨t, ws, rfl, -⟩ := hbase.exists_head (by simp)
  rw [Cursor.prepend_append]
  rcases htail with ⟨rfl, rfl⟩ | ⟨op, us, rfl, hop⟩
  · rw [List.append_nil] at hstops hbare
    refine identifierStatement_primary hbase hle hname hassign hbrace ?_ ?_
    · exact fun last hlast => .of_not_carriesOn (hstops last hlast)
    · intro hmethod
      refine absurd ⟨hmethod, ?_⟩ hbare
      intro u hu
      simp [hname u hu]
  · have hkind := hop
    simp only [continuesExpression, decide_eq_true_eq] at hkind
    refine identifierStatement_primary hbase hle hname ?_ ?_ ?_ fun _ => hop
    · rcases hkind with hkind | hkind | hkind <;> simp [hkind]
    · rcases hkind with hkind | hkind | hkind <;> simp [hkind]
    · intro last _
      apply Stops.primary <;> rcases hkind with hkind | hkind | hkind <;> simp [hkind]

/-- An expression statement is parsed when the token behind it does not carry it on. -/
theorem statement_parsed (h : Spells n .expression ts e) (hbare : ¬ BareMethod ts e) {c : Cursor}
    (hassign : c.current.kind ≠ .assign) (hbrace : c.current.kind ≠ .leftBrace)
    (hstops : ∀ last ∈ ts.getLast?, ¬ CarriesOn last c.current) :
    statement (n + 1) (c.prepend ts) = .done (.expressionStatement e) c := by
  have hparsed := h.parsed.whole (by simp) c fun last hlast => .of_not_carriesOn (hstops last hlast)
  obtain ⟨t, us, rfl, ht⟩ := h.exists_head (by simp)
  by_cases hname : t.kind = .identifier
  · cases n with
    | zero => cases h
    | succ n =>
        refine statement_identifier_none hname ?_ hparsed
        exact identifierStatement_expression h hbare (by simpa using hname) hassign hbrace hstops
  · have hreturn : (c.prepend (t :: us)).current.kind ≠ .giveBack := by
      rw [Cursor.current_prepend_cons]
      intro hkind
      simp [startKinds, hkind] at ht
    have hword : ∀ word ∈ statementWords, ¬ (c.prepend (t :: us)).current.Is .keyword word := by
      intro word hword hfirst
      rw [Cursor.current_prepend_cons] at hfirst
      rcases h.head_word (by simp) t rfl hfirst.1 with hboolean | hboolean <;>
        obtain rfl := Token.Literal.text.inj (hfirst.2.symm.trans hboolean.2) <;>
        exact absurd hword (by decide)
    rw [statement_expression hreturn hname hword]
    exact (bind_of_done hparsed).trans rfl

end Spells

/-- What a statement, an `if` or a block starts with. -/
def Part.Starts : Part → Token → Prop
  | .statement, t =>
      (t.kind ∈ startKinds ∨ t.kind = .operator ∨ t.kind = .giveBack) ∧ ¬ t.Is .keyword "else"
  | .conditional, t => t.Is .keyword "if"
  | .sequence, _ => False
  | .block, t => t.kind = .leftBrace

/-- Whether a token may stand behind a statement: it ends the statement, or it starts another. -/
def MayFollow (t : Token) : Prop := t.kind ∈ endKinds ∨ Part.statement.Starts t

theorem MayFollow.kind_ne {t : Token} (h : MayFollow t) :
    t.kind ≠ .assign ∧ t.kind ≠ .leftBrace ∧ ¬ t.Is .keyword "else" := by
  rcases h with h | ⟨h | h | h, helse⟩
  · simp only [endKinds, List.mem_cons, List.not_mem_nil, or_false] at h
    rcases h with h | h | h <;> simp [h, Token.Is]
  · simp only [startKinds, List.mem_cons, List.not_mem_nil, or_false] at h
    refine ⟨?_, ?_, helse⟩ <;> rcases h with h | h | h | h | h | h <;> simp [h]
  · simp [h, Token.Is]
  · simp [h, Token.Is]

theorem Part.Starts.not_end {t : Token} (h : Part.statement.Starts t) : t.kind ∉ endKinds := by
  intro hend
  simp only [endKinds, List.mem_cons, List.not_mem_nil, or_false] at hend
  obtain ⟨h | h | h, -⟩ := h <;> rcases hend with hend | hend | hend <;>
    simp [startKinds, hend] at h

/-- A token that starts a statement by its kind, and is no word of the language. -/
theorem Part.Starts.of_kind {t : Token} (h : t.kind ∈ startKinds ∨ t.kind = .operator ∨
    t.kind = .giveBack) (hkeyword : t.kind ≠ .keyword) : Part.statement.Starts t :=
  ⟨h, fun hword => hkeyword hword.1⟩

/-- A word of the language other than `else` starts a statement. -/
theorem Part.Starts.of_word {t : Token} {word : String} (h : t.Is .keyword word)
    (hword : word ≠ "else") : Part.statement.Starts t := by
  refine ⟨.inl (by simp [startKinds, h.1]), fun helse => hword ?_⟩
  exact Token.Literal.text.inj (h.2.symm.trans helse.2)

theorem Names.kind_ne_finish {ts : List Token} {params : List Tree} (h : Names ts params) :
    ∀ t ∈ ts, t.kind ≠ .finish := by
  induction h with
  | last ht => simp [ht.1]
  | more ht hcomma _ ih => simpa [ht.1, hcomma] using ih

theorem Parameters.kind_ne_finish {ts : List Token} {params : List Tree}
    (h : Parameters ts params) : ∀ t ∈ ts, t.kind ≠ .finish := by
  cases h with
  | none hleft hright => simp [hleft, hright]
  | some hleft names hright =>
      have hnames := names.kind_ne_finish
      simp_all [or_imp]

namespace States

variable {adjoin : Tree → List Token → Token → Prop} {n : Nat} {part : Part} {ts : List Token}
  {tree : Tree}

theorem exists_head (h : States adjoin n part ts tree) (hpart : part ≠ .sequence) :
    ∃ t us, ts = t :: us ∧ part.Starts t := by
  have hname : ∀ {t : Token} {x}, t.Is .identifier x → Part.statement.Starts t :=
    fun ht => .of_kind (by simp [startKinds, ht.1]) (by simp [ht.1])
  induction h with
  | assignment ht => exact ⟨_, _, rfl, hname ht⟩
  | elementAssignment ht => exact ⟨_, _, rfl, hname ht⟩
  | methodCall ht => exact ⟨_, _, rfl, hname ht⟩
  | declaration ht => exact ⟨_, _, rfl, hname ht⟩
  | keywordDeclaration hword => exact ⟨_, _, rfl, .of_word hword (by decide)⟩
  | emptyReturn hword => exact ⟨_, _, rfl, .of_kind (by simp [hword]) (by simp [hword])⟩
  | valueReturn hword => exact ⟨_, _, rfl, .of_kind (by simp [hword]) (by simp [hword])⟩
  | print hword => exact ⟨_, _, rfl, .of_word hword (by decide)⟩
  | «while» hword => exact ⟨_, _, rfl, .of_word hword (by decide)⟩
  | conditional _ ih =>
      obtain ⟨t, us, hts, ht⟩ := ih (by simp)
      exact ⟨t, us, hts, .of_word ht (by decide)⟩
  | expression inner =>
      obtain ⟨t, us, rfl, ht⟩ := inner.exists_head (by simp)
      refine ⟨t, us, rfl, ht.imp_right fun ht => .inl ht.1, ?_⟩
      intro helse
      rcases inner.head_word (by simp) t rfl helse.1 with hword | hword <;>
        exact absurd (Token.Literal.text.inj (helse.2.symm.trans hword.2)) (by decide)
  | ifOnly hword => exact ⟨_, _, rfl, hword⟩
  | ifElse hword => exact ⟨_, _, rfl, hword⟩
  | elseIf hword => exact ⟨_, _, rfl, hword⟩
  | empty => exact absurd rfl hpart
  | semicolon => exact absurd rfl hpart
  | more => exact absurd rfl hpart
  | block hleft => exact ⟨_, _, rfl, hleft⟩

/-- A sequence that is not empty starts with a semicolon or with a statement. -/
theorem mayFollow_of_sequence (h : States adjoin n .sequence ts tree) :
    ∀ t ∈ ts.head?, MayFollow t := by
  cases h with
  | empty => simp
  | semicolon ht =>
      rintro t ⟨⟩
      exact .inl (by simp [endKinds, ht])
  | more first _ _ =>
      obtain ⟨t, us, rfl, ht⟩ := first.exists_head (by simp)
      rintro u ⟨⟩
      exact .inr ht

/-- No statement has a closing token inside. -/
theorem kind_ne_finish (h : States adjoin n part ts tree) : ∀ t ∈ ts, t.kind ≠ .finish := by
  induction h with
  | assignment ht hsign value =>
      have hvalue := value.kind_ne
      simp_all [or_imp, ht.1]
  | elementAssignment ht hleft index hright hsign value =>
      have hindex := index.kind_ne
      have hvalue := value.kind_ne
      simp_all [or_imp, ht.1]
  | methodCall ht hdot hmember hleft args hright =>
      have hargs := args.kind_ne
      rcases hmember with hmember | hmember <;> simp_all [or_imp, ht.1, hmember.1]
  | declaration ht hparams _ ih =>
      have hnames := hparams.kind_ne_finish
      simp_all [or_imp, ht.1]
  | keywordDeclaration hword ht hparams _ ih =>
      have hnames := hparams.kind_ne_finish
      simp_all [or_imp, ht.1, hword.1]
  | emptyReturn hword => simp [hword]
  | valueReturn hword value =>
      have hvalue := value.kind_ne
      simp_all [or_imp]
  | print hword hleft value hright =>
      have hvalue := value.kind_ne
      simp_all [or_imp, hword.1]
  | «while» hword hleft condition hright _ ih =>
      have hcondition := condition.kind_ne
      simp_all [or_imp, hword.1]
  | conditional _ ih => exact ih
  | expression inner => exact fun u hu => (inner.kind_ne u hu).2
  | ifOnly hword hleft condition hright _ ih =>
      have hcondition := condition.kind_ne
      simp_all [or_imp, hword.1]
  | ifElse hword hleft condition hright _ hother _ ih ihother =>
      have hcondition := condition.kind_ne
      simp_all [or_imp, hword.1, hother.1]
  | elseIf hword hleft condition hright _ hother _ ih ihother =>
      have hcondition := condition.kind_ne
      simp_all [or_imp, hword.1, hother.1]
  | empty => simp
  | semicolon ht _ ih => simpa [ht] using ih
  | more _ _ _ ihfirst ihrest =>
      intro u hu
      exact (List.mem_append.mp hu).elim (ihfirst u) (ihrest u)
  | block hleft _ hright ih => simp_all [or_imp]

end States

/-- A token that ends a statement carries none on. -/
theorem mayAdjoin_of_end {t : Token} (ht : t.kind ∈ endKinds) {tree : Tree} {ts : List Token} :
    MayAdjoin tree ts t := by
  simp only [endKinds, List.mem_cons, List.not_mem_nil, or_false] at ht
  unfold MayAdjoin
  split
  any_goals trivial
  · rcases ht with ht | ht | ht <;> simp [ht]
  · intro last _
    rcases ht with ht | ht | ht <;> simp [CarriesOn, ht]

/-- A value of a `return` is not left out. -/
theorem Spells.ne_scalar {n : Nat} {form : Form} {ts : List Token} {e : Tree}
    (h : Spells n form ts e) (x : Scalar) : e ≠ .scalar x := by
  induction h with
  | loosen _ _ _ ih => exact ih
  | @join n form => cases form <;> simp [Form.node]
  | parens _ _ _ ih => exact ih
  | _ => simp

theorem mayAdjoin_return {e : Tree} {ts : List Token} {next : Token} (he : ∀ x, e ≠ .scalar x) :
    MayAdjoin (.returnStatement e) ts next ↔ ∀ last ∈ ts.getLast?, ¬ CarriesOn last next := by
  cases e with
  | scalar x => exact absurd rfl (he x)
  | _ => rfl

/-- A loop over statements takes tokens as some statements and goes on behind them. -/
def Resumes (loop : List Token → Parse (List Tree)) (ts : List Token) (trees : List Tree)
    (c : Cursor) : Prop :=
  ∀ budget, ts.length ≤ budget.length → ∃ left : List Token,
    budget.length ≤ left.length + ts.length ∧ loop budget (c.prepend ts) = (do
      let rest ← loop left
      return trees ++ rest) c

/-- How tokens that spell a statement, a sequence of statements or a block are parsed in front of a
cursor. -/
def Part.Parsed (n : Nat) (ts : List Token) (tree : Tree) : Part → Prop
  | .statement => ∀ c : Cursor, MayFollow c.current → MayAdjoin tree ts c.current →
      Parse.statement n (c.prepend ts) = .done tree c
  | .conditional => ∀ c : Cursor, ¬ c.current.Is .keyword "else" →
      ifStatement n (c.prepend ts) = .done tree c
  | .sequence => ∀ trees, tree = .list trees → ∀ c : Cursor, c.current.kind ∈ endKinds →
      Resumes (blockStatements (Parse.statement n)) ts trees c ∧
        Resumes (programStatements (Parse.statement n)) ts trees c
  | .block => ∀ trees, tree = .list trees → ∀ c : Cursor,
      Parse.block n (c.prepend ts) = .done trees c

namespace Resumes

variable {loop : List Token → Parse (List Tree)} {front ts : List Token} {first trees : List Tree}
  {c : Cursor}

theorem nil : Resumes loop [] [] c :=
  fun budget _ => ⟨budget, Nat.le_refl _, by simp⟩

/-- One round of the loop takes the tokens in front, which are not none. -/
theorem cons (hfront : front ≠ [])
    (hround : ∀ u budget, loop (u :: budget) ((c.prepend ts).prepend front) = (do
      let rest ← loop budget
      return first ++ rest) (c.prepend ts))
    (h : Resumes loop ts trees c) : Resumes loop (front ++ ts) (first ++ trees) c := by
  intro budget hbudget
  have hlength := List.length_pos_iff.mpr hfront
  rw [List.length_append] at hbudget ⊢
  cases budget with
  | nil => simp only [List.length_nil] at hbudget; omega
  | cons u budget =>
      simp only [List.length_cons] at hbudget ⊢
      obtain ⟨left, hleft, hloop⟩ := h budget (by omega)
      refine ⟨left, by omega, ?_⟩
      rw [Cursor.prepend_append, hround, bind_apply, hloop, ← bind_apply]
      simp only [bind_assoc, pure_bind, List.append_assoc]

/-- In front of a token that ends the loop, only the statements taken are left. -/
theorem done (h : Resumes loop ts trees c) (hclose : ∀ budget, loop budget c = .done [] c)
    (budget : List Token) (hbudget : ts.length ≤ budget.length) :
    loop budget (c.prepend ts) = .done trees c := by
  obtain ⟨left, -, hloop⟩ := h budget hbudget
  rw [hloop, bind_of_done (hclose left), List.append_nil]
  rfl

end Resumes

theorem Part.parsed_semicolon {n : Nat} {t : Token} {ts : List Token} {trees : List Tree}
    (ht : t.kind = .semicolon) (h : Part.sequence.Parsed n ts (.list trees)) :
    Part.sequence.Parsed n (t :: ts) (.list trees) := by
  rintro trees ⟨⟩ c hc
  obtain ⟨hblock, hprogram⟩ := h _ rfl c hc
  have hround : ∀ {loop : List Token → Parse (List Tree)},
      (∀ u budget, loop (u :: budget) (c.prepend (t :: ts)) = loop budget (c.prepend ts)) →
      Resumes loop ts trees c → Resumes loop ([t] ++ ts) ([] ++ trees) c := by
    intro loop hloop hresumes
    refine hresumes.cons (by simp) fun u budget => ?_
    rw [← Cursor.prepend_append, List.singleton_append, hloop]
    simp
  exact ⟨hround (blockStatements_semicolon ht) hblock,
    hround (programStatements_semicolon ht) hprogram⟩

/-- A sequence goes on behind a statement that the next token does not carry on. -/
theorem Part.parsed_more {n : Nat} {t : Token} {ts us : List Token} {tree : Tree}
    {trees : List Tree} (ht : Part.statement.Starts t)
    (hfirst : Part.statement.Parsed n (t :: ts) tree)
    (hnext : ∀ u ∈ us.head?, MayFollow u ∧ MayAdjoin tree (t :: ts) u)
    (hrest : Part.sequence.Parsed n us (.list trees)) :
    Part.sequence.Parsed n (t :: ts ++ us) (.list (tree :: trees)) := by
  rintro trees ⟨⟩ c hc
  have hkind := ht.not_end
  simp only [endKinds, List.mem_cons, List.not_mem_nil, or_false, not_or] at hkind
  obtain ⟨hsemicolon, hbrace, hfinish⟩ := hkind
  have hparsed :
      Parse.statement n ((c.prepend us).prepend (t :: ts)) = .done tree (c.prepend us) := by
    cases us with
    | nil => exact hfirst c (.inl hc) (mayAdjoin_of_end hc)
    | cons u us => exact hfirst _ (hnext u rfl).1 (hnext u rfl).2
  have hround : ∀ {loop : List Token → Parse (List Tree)},
      (∀ u budget, loop (u :: budget) ((c.prepend us).prepend (t :: ts)) = (do
        let rest ← loop budget
        return tree :: rest) (c.prepend us)) →
      Resumes loop us trees c → Resumes loop (t :: ts ++ us) ([tree] ++ trees) c :=
    fun hloop hresumes => hresumes.cons (List.cons_ne_nil t ts) hloop
  obtain ⟨hblock, hprogram⟩ := hrest _ rfl c hc
  exact ⟨hround (blockStatements_statement hbrace hfinish hsemicolon hparsed) hblock,
    hround (programStatements_statement hfinish hsemicolon hparsed) hprogram⟩

/-- Tokens that spell a statement, in which statements stand side by side only where they may, are
parsed as that statement. -/
theorem States.parsed {adjoin : Tree → List Token → Token → Prop} {n : Nat} {part : Part}
    {ts : List Token} {tree : Tree} (h : States adjoin n part ts tree)
    (hadjoin : ∀ tree ts t, adjoin tree ts t → MayAdjoin tree ts t) : part.Parsed n ts tree := by
  induction h with
  | @assignment n t x sign ts e ht hsign value =>
      intro c _ hstops
      replace hstops : ∀ last ∈ ([t, sign] ++ ts).getLast?, ¬ CarriesOn last c.current := hstops
      rw [value.getLast?_append (by simp)] at hstops
      have hvalue := value.parsed.whole (by simp) c
        fun last hlast => .of_not_carriesOn (hstops last hlast)
      rw [statement_identifier ht.1 (identifierStatement_assignment ht.1 hsign hvalue), ht.2]
      rfl
  | @elementAssignment n t x left is right sign ts i e ht hleft index hright hsign value =>
      intro c _ hstops
      replace hstops : ∀ last ∈ (t :: left :: is ++ right :: sign :: ts).getLast?,
        ¬ CarriesOn last c.current := hstops
      rw [show t :: left :: is ++ right :: sign :: ts = (t :: left :: is ++ [right, sign]) ++ ts by
        simp, value.getLast?_append (by simp)] at hstops
      have hvalue := value.parsed.whole (by simp) c
        fun last hlast => .of_not_carriesOn (hstops last hlast)
      have hindex := index.parsed.expression_closed
        (show right.kind ∈ closerKinds by simp [closerKinds, hright]) (c.prepend (sign :: ts))
      rw [statement_identifier ht.1
        (identifierStatement_elementAssignment ht.1 hleft hindex hright hsign hvalue), ht.2]
      rfl
  | @methodCall n t x dot member m left ts right es ht hdot hmember hleft args hright =>
      intro c _ hstops
      have hcontinues : continuesExpression c.current.kind = false := by
        have hlast := hstops right List.getLast?_concat
        simp only [CarriesOn, not_or] at hlast
        simp [continuesExpression, hlast]
      have hitems := args.parsed.itemsUntil_closed args (.inl rfl) hright c
      have hstep := identifierStatement_method ht.1 hdot hmember hleft
        (arguments_parens hleft hitems hright)
      rw [hcontinues, if_neg (by simp), ht.2] at hstep
      exact statement_identifier ht.1 hstep
  | @declaration n t f ps bs params body ht hparams block ih =>
      intro c _ _
      obtain ⟨u, us, hbs, hu⟩ := block.exists_head (by simp)
      have hopens : (c.prepend bs).current.kind = .leftBrace := by
        rw [hbs]
        exact hu
      have hstep := identifierStatement_declaration ht.1 hparams hopens (ih body rfl c)
      rw [ht.2] at hstep
      exact statement_identifier ht.1 hstep
  | keywordDeclaration hword ht hparams _ ih =>
      intro c _ _
      rw [statement_function hword]
      exact functionDeclaration_block hword ht hparams (ih _ rfl c)
  | emptyReturn hword =>
      intro c _ hends
      rw [statement_giveBack hword]
      exact returnStatement_empty hword hends
  | @valueReturn n word ts e hword value =>
      intro c _ hstops
      rw [mayAdjoin_return value.ne_scalar] at hstops
      replace hstops : ∀ last ∈ ([word] ++ ts).getLast?, ¬ CarriesOn last c.current := hstops
      rw [value.getLast?_append (by simp)] at hstops
      have hvalue := value.parsed.whole (by simp) c
        fun last hlast => .of_not_carriesOn (hstops last hlast)
      rw [statement_giveBack hword]
      refine returnStatement_value hword ?_ hvalue
      obtain ⟨t, us, rfl, ht⟩ := value.exists_head (by simp)
      rw [Cursor.current_prepend_cons]
      rintro (hkind | hkind | hkind) <;> simp [startKinds, hkind] at ht
  | @print n word left ts right e hword hleft value hright =>
      intro c _ _
      rw [statement_print hword]
      exact printStatement_value hword hleft
        (value.parsed.expression_closed (by simp [closerKinds, hright]) c) hright
  | «while» hword hleft condition hright _ ih =>
      intro c _ _
      rw [statement_while hword]
      exact whileStatement_block hword hleft
        (condition.parsed.expression _ (.of_closer (by simp [closerKinds, hright]) _)) hright
        (ih _ rfl c)
  | conditional inner ih =>
      intro c hc _
      obtain ⟨t, us, rfl, ht⟩ := inner.exists_head (by simp)
      have hword : (c.prepend (t :: us)).current.Is .keyword "if" := ht
      rw [statement_if hword]
      exact ih c hc.kind_ne.2.2
  | expression inner hbare =>
      intro c hc hstops
      obtain ⟨hassign, hbrace, -⟩ := hc.kind_ne
      exact inner.statement_parsed hbare hassign hbrace hstops
  | ifOnly hword hleft condition hright _ ih =>
      intro c hc
      exact ifStatement_only hword hleft
        (condition.parsed.expression _ (.of_closer (by simp [closerKinds, hright]) _)) hright
        (ih _ rfl c) hc
  | ifElse hword hleft condition hright _ hother otherwise ih ihotherwise =>
      intro c hc
      refine ifStatement_else hword hleft
        (condition.parsed.expression _ (.of_closer (by simp [closerKinds, hright]) _)) hright
        (ih _ rfl _) hother ?_ (ihotherwise _ rfl c)
      obtain ⟨t, us, rfl, ht⟩ := otherwise.exists_head (by simp)
      rintro ⟨hkind, -⟩
      simp [show t.kind = .leftBrace from ht] at hkind
  | elseIf hword hleft condition hright _ hother otherwise ih ihotherwise =>
      intro c hc
      refine ifStatement_elseIf hword hleft
        (condition.parsed.expression _ (.of_closer (by simp [closerKinds, hright]) _)) hright
        (ih _ rfl _) hother ?_ (ihotherwise c hc)
      obtain ⟨t, us, rfl, ht⟩ := otherwise.exists_head (by simp)
      exact ht
  | empty =>
      rintro trees ⟨⟩ c _
      exact ⟨.nil, .nil⟩
  | semicolon ht _ ih => exact Part.parsed_semicolon ht ih
  | more first hnext rest ihfirst ihrest =>
      obtain ⟨t, us, rfl, ht⟩ := first.exists_head (by simp)
      refine Part.parsed_more ht ihfirst (fun u hu => ⟨rest.mayFollow_of_sequence u hu, ?_⟩) ihrest
      rcases hnext u hu with hsemicolon | hadjoins
      · exact mayAdjoin_of_end (by simp [endKinds, hsemicolon])
      · exact hadjoin _ _ _ hadjoins
  | @block n left ts right trees hleft _ hright ih =>
      rintro trees ⟨⟩ c
      obtain ⟨hblock, -⟩ := ih _ rfl (c.prepend [right]) (by simp [endKinds, hright])
      exact block_braces hleft
        (hblock.done (blockStatements_of_close (by simp [hright])) _ (by simp)) hright

/-- A program that goes on with other tokens is read on behind the statements that some tokens
spell. -/
theorem program_resumes {adjoin : Tree → List Token → Token → Prop} {n : Nat} {ts : List Token}
    {trees : List Tree} (h : States adjoin n .sequence ts (.list trees))
    (hadjoin : ∀ tree ts t, adjoin tree ts t → MayAdjoin tree ts t) {c : Cursor}
    (hc : c.current.kind ∈ endKinds) :
    Resumes (programStatements (statement n)) ts trees c :=
  (h.parsed hadjoin _ rfl c hc).2

theorem program_of_states {adjoin : Tree → List Token → Token → Prop} {n : Nat} {ts : List Token}
    {trees : List Tree} (h : States adjoin n .sequence ts (.list trees))
    (hadjoin : ∀ tree ts t, adjoin tree ts t → MayAdjoin tree ts t) {closing : Token}
    (hclosing : closing.kind = .finish) :
    program n ((⟨closing, []⟩ : Cursor).prepend ts) = .done trees ⟨closing, []⟩ :=
  (program_resumes h hadjoin (by simp [endKinds, hclosing])).done
    (programStatements_of_close hclosing) _ (by simp)

/-- What is derived from some tokens is parsed from them. -/
theorem program_of_derivation {n : Nat} {ts : List Token} {trees : List Tree}
    (h : Derivation n ts trees) {closing : Token} (hclosing : closing.kind = .finish) :
    program n ((⟨closing, []⟩ : Cursor).prepend ts) = .done trees ⟨closing, []⟩ :=
  program_of_states h (fun _ _ _ => id) hclosing

theorem program_of_rendering {n : Nat} {ts : List Token} {trees : List Tree}
    (h : Rendering n ts trees) {closing : Token} (hclosing : closing.kind = .finish) :
    program n ((⟨closing, []⟩ : Cursor).prepend ts) = .done trees ⟨closing, []⟩ :=
  program_of_states h (fun _ _ _ => False.elim) hclosing

/-- Parsing undoes every rendering within the nesting limit, with and without a closing token. -/
theorem ofTokens_of_rendering {ts : List Token} {trees : List Tree}
    (h : Rendering nestingLimit ts trees) :
    ofTokens ts = .ok trees ∧
      ∀ closing : Token, closing.kind = .finish → ofTokens (ts ++ [closing]) = .ok trees := by
  constructor
  · rw [ofTokens, Cursor.ofTokens_of_ne_finish h.kind_ne_finish, program_of_rendering h rfl]
    rfl
  · intro closing hclosing
    rw [ofTokens, Cursor.ofTokens_concat hclosing, program_of_rendering h hclosing]
    rfl

theorem ofTokens_of_rendered_power :
    let p : Text.Position := ⟨0, 0⟩
    let ts : List Token := [⟨.semicolon, .text ";", p⟩, ⟨.identifier, .text "f", p⟩,
      ⟨.leftParen, .text "(", p⟩, ⟨.rightParen, .text ")", p⟩, ⟨.leftBrace, .text "\x7b", p⟩,
      ⟨.rightBrace, .text "\x7d", p⟩, ⟨.semicolon, .text ";", p⟩, ⟨.identifier, .text "x", p⟩,
      ⟨.assign, .text "=", p⟩, ⟨.operator, .text "-", p⟩, ⟨.identifier, .text "y", p⟩,
      ⟨.power, .text "^", p⟩, ⟨.identifier, .text "z", p⟩]
    let trees : List Tree := [.functionDeclaration (.text "f") (.list []) (.list []),
      .assignment (.text "x")
        (.unary (.text "-") (.binary (.text "^") (.variable (.text "y")) (.variable (.text "z"))))]
    Rendering nestingLimit ts trees ∧ ofTokens ts = .ok trees ∧
      ∀ closing : Token, closing.kind = .finish → ofTokens (ts ++ [closing]) = .ok trees := by
  intro p ts trees
  have hname : ∀ x n, Spells (n + 2) .primary [⟨.identifier, .text x, p⟩] (.variable (.text x)) :=
    fun x n => .name ⟨rfl, rfl⟩
  have hpower : Spells 5 .power [⟨.identifier, .text "y", p⟩, ⟨.power, .text "^", p⟩,
      ⟨.identifier, .text "z", p⟩] (.binary (.text "^") (.variable (.text "y"))
      (.variable (.text "z"))) :=
    .raise (hname "y" 2) ⟨rfl, rfl⟩ (hname "z" 0).negation_of_primary
  have hvalue : Spells 11 .expression (⟨.operator, .text "-", p⟩ :: _) (.unary (.text "-") _) :=
    .expression_of_negation (.negate ⟨rfl, rfl⟩ (.loosen (by simp) (by simp) hpower))
  have hassignment : States (fun _ _ _ => False) nestingLimit .statement (ts.drop 7)
      (.assignment (.text "x") _) :=
    .assignment ⟨rfl, rfl⟩ rfl (hvalue.mono (show 11 ≤ 9998 by decide))
  have hdeclaration : States (fun _ _ _ => False) nestingLimit .statement
      ((ts.drop 1).take 5) (.functionDeclaration (.text "f") (.list []) (.list [])) :=
    .declaration ⟨rfl, rfl⟩ (.none rfl rfl) (.block rfl .empty rfl)
  have hrendering : Rendering nestingLimit ts trees :=
    .semicolon rfl (.more hdeclaration (by simp)
      (.semicolon rfl (.more hassignment (by simp) .empty)))
  exact ⟨hrendering, ofTokens_of_rendering hrendering⟩

end Sprig.Grammar
