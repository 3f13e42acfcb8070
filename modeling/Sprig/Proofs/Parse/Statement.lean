import Sprig.Proofs.Grammar.Statement
import Sprig.Proofs.Parse.Expression
import Sprig.Proofs.Parse.Parameters

/-!
# The parsers of statements on given tokens

For each way in which a statement can go on, what its parser makes of the tokens when the parsers of
the parts make something of theirs. Parentheses behind a name are first read as the parameters of a
declaration; that reading always ends, and never goes further than the closing parenthesis.
-/

namespace Sprig.Parse

open Grammar

variable {n : Nat} {c : Cursor} {t word left right : Token} {ts us ps bs cs : List Token}
  {e cond tree : Tree} {es params body : List Tree} {x : String}

section Parameters

theorem enumerates_of_names (h : Names ts params) : Enumerates ts params := by
  induction h with
  | @last t x ht =>
      have hx : t.literal.tree = .text x := congrArg Token.Literal.tree ht.2
      exact hx ▸ .last ht.1
  | @more t x comma ts params ht hcomma rest ih =>
      have hx : t.literal.tree = .text x := congrArg Token.Literal.tree ht.2
      have hne : params ≠ [] := by cases rest <;> exact List.cons_ne_nil _ _
      exact hx ▸ ih.more ht.1 hcomma hne

theorem exists_enumerates (h : Parameters ps params) :
    ∃ left ts right, ps = left :: ts ++ [right] ∧ left.kind = .leftParen ∧
      Enumerates ts params ∧ right.kind = .rightParen := by
  cases h with
  | @none left right hleft hright => exact ⟨left, [], right, rfl, hleft, .nil, hright⟩
  | @some left ts right params hleft hnames hright =>
      exact ⟨left, ts, right, rfl, hleft, enumerates_of_names hnames, hright⟩

theorem parameterList_of_parameters (h : Parameters ps params) (c : Cursor) :
    parameterList (c.prepend ps) = .done params c := by
  obtain ⟨left, ts, right, rfl, hleft, hnames, hright⟩ := exists_enumerates h
  exact parameterList_of_enumerates hleft hnames hright

theorem parametersIfPresent_of_parameters (h : Parameters ps params) (c : Cursor) :
    parametersIfPresent (c.prepend ps) = .done (some params) c := by
  have hlist := parameterList_of_parameters h c
  obtain ⟨left, ts, right, rfl, hleft, -⟩ := exists_enumerates h
  exact ((lenient_parameters hleft).some_iff _ _).mpr hlist

/-- Names are read up to some of the tokens in front of a cursor that stands on no name or comma. -/
theorem namesIfPresent_prepend (hname : c.current.kind ≠ .identifier)
    (hcomma : c.current.kind ≠ .comma) (budget us : List Token) :
    ∃ params? vs, namesIfPresent budget (c.prepend us) = .done params? (c.prepend vs) ∧
      vs <:+ us := by
  induction budget generalizing us with
  | nil => exact ⟨none, us, rfl, List.suffix_refl us⟩
  | cons u budget ih =>
      rw [namesIfPresent, bind_of_done (isAt_apply _ _)]
      cases us with
      | nil =>
          rw [Cursor.prepend_nil, decide_eq_false hname, if_neg (by simp)]
          exact ⟨none, [], rfl, List.suffix_refl []⟩
      | cons t us =>
          rw [Cursor.current_prepend_cons]
          by_cases ht : t.kind = .identifier
          · rw [decide_eq_true ht, if_pos rfl,
              bind_of_done (advance_prepend_cons (by simp [ht]) c us),
              bind_of_done (isAt_apply _ _)]
            have hstay : ∃ params? vs, Step.done (some [t.literal.tree]) (c.prepend us) =
                .done params? (c.prepend vs) ∧ vs <:+ t :: us :=
              ⟨_, us, rfl, List.suffix_cons t us⟩
            cases us with
            | nil =>
                rw [Cursor.prepend_nil, decide_eq_false hcomma, if_neg (by simp)]
                exact hstay
            | cons comma us =>
                rw [Cursor.current_prepend_cons]
                by_cases hmore : comma.kind = .comma
                · obtain ⟨params?, vs, hrest, hsuffix⟩ := ih us
                  rw [decide_eq_true hmore, if_pos rfl,
                    bind_of_done (advance_prepend_cons (by simp [hmore]) c us), bind_of_done hrest]
                  refine ⟨_, vs, rfl, hsuffix.trans ?_⟩
                  exact (List.suffix_cons comma us).trans (List.suffix_cons t (comma :: us))
                · rw [decide_eq_false hmore, if_neg (by simp)]
                  exact hstay
          · rw [decide_eq_false ht, if_neg (by simp)]
            exact ⟨none, t :: us, rfl, List.suffix_refl _⟩

/-- Parameters are read up to the closing parenthesis at most, and no further than behind it. -/
theorem parametersIfPresent_prepend (hleft : left.kind = .leftParen)
    (hright : right.kind = .rightParen) (c : Cursor) (us : List Token) :
    ∃ params? vs, parametersIfPresent (c.prepend (left :: us ++ [right])) =
      .done params? (c.prepend vs) ∧ vs <:+ us ++ [right] := by
  rw [parametersIfPresent, List.cons_append,
    bind_of_done (expectKind_prepend_cons hleft (by simp) c _), Cursor.prepend_append,
    bind_of_done (cursor_apply _), bind_of_done (isAt_apply _ _)]
  by_cases hempty : ((c.prepend [right]).prepend us).current.kind = .rightParen
  · rw [decide_eq_true hempty, if_pos rfl, bind_of_done (pure_apply _ _)]
    dsimp only
    rw [bind_of_done (isAt_apply _ _), decide_eq_true hempty, if_pos rfl]
    cases us with
    | nil =>
        rw [Cursor.prepend_nil, bind_of_done (advance_prepend_cons (by simp [hright]) c [])]
        exact ⟨some [], [], rfl, List.nil_suffix⟩
    | cons t us =>
        have ht : t.kind = .rightParen := hempty
        rw [bind_of_done (advance_prepend_cons (by simp [ht]) _ us), ← Cursor.prepend_append]
        exact ⟨some [], us ++ [right], rfl, List.suffix_cons t _⟩
  · obtain ⟨params?, vs, hnames, hsuffix⟩ := namesIfPresent_prepend
      (show (c.prepend [right]).current.kind ≠ .identifier by simp [hright])
      (by simp [hright]) ((c.prepend [right]).prepend us).tokens us
    obtain ⟨ws, rfl⟩ := hsuffix
    rw [decide_eq_false hempty, if_neg (by simp), bind_of_done hnames]
    have hstay : vs ++ [right] <:+ ws ++ vs ++ [right] := ⟨ws, by simp⟩
    cases params? with
    | none => exact ⟨none, vs ++ [right], by rw [Cursor.prepend_append]; rfl, hstay⟩
    | some params =>
        dsimp only
        rw [bind_of_done (isAt_apply _ _)]
        cases vs with
        | nil =>
            rw [Cursor.prepend_nil, Cursor.current_prepend_cons, decide_eq_true hright, if_pos rfl,
              bind_of_done (advance_prepend_cons (by simp [hright]) c [])]
            exact ⟨some params, [], rfl, List.nil_suffix⟩
        | cons t vs =>
            rw [Cursor.current_prepend_cons]
            by_cases ht : t.kind = .rightParen
            · rw [decide_eq_true ht, if_pos rfl,
                bind_of_done (advance_prepend_cons (by simp [ht]) _ vs), ← Cursor.prepend_append]
              exact ⟨some params, vs ++ [right], rfl, (List.suffix_cons t _).trans hstay⟩
            · rw [decide_eq_false ht, if_neg (by simp), ← Cursor.prepend_append]
              exact ⟨none, t :: vs ++ [right], rfl, hstay⟩

end Parameters

section Sequences

variable {parser : Parse Tree} {start mid : Cursor}

theorem blockStatements_of_close (h : c.current.kind = .rightBrace) (budget : List Token) :
    blockStatements parser budget c = .done [] c := by
  cases budget with
  | nil => rfl
  | cons u budget =>
      rw [blockStatements, bind_of_done (current_apply c), if_pos h]
      rfl

theorem blockStatements_semicolon (ht : t.kind = .semicolon) (u : Token) (budget : List Token) :
    blockStatements parser (u :: budget) (c.prepend (t :: ts)) =
      blockStatements parser budget (c.prepend ts) := by
  rw [blockStatements, bind_of_done (current_apply _), Cursor.current_prepend_cons,
    if_neg (by simp [ht]), if_neg (by simp [ht]), if_pos ht,
    bind_of_done (advance_prepend_cons (by simp [ht]) c ts)]

theorem blockStatements_statement (hbrace : start.current.kind ≠ .rightBrace)
    (hfinish : start.current.kind ≠ .finish) (hsemicolon : start.current.kind ≠ .semicolon)
    (hfirst : parser start = .done e mid) (u : Token) (budget : List Token) :
    blockStatements parser (u :: budget) start = (do
      let rest ← blockStatements parser budget
      return e :: rest) mid := by
  rw [blockStatements, bind_of_done (current_apply _), if_neg hbrace, if_neg hfinish,
    if_neg hsemicolon, bind_of_done hfirst]

theorem programStatements_of_close (h : c.current.kind = .finish) (budget : List Token) :
    programStatements parser budget c = .done [] c := by
  cases budget with
  | nil => rfl
  | cons u budget =>
      rw [programStatements, bind_of_done (current_apply c), if_pos h]
      rfl

theorem programStatements_semicolon (ht : t.kind = .semicolon) (u : Token) (budget : List Token) :
    programStatements parser (u :: budget) (c.prepend (t :: ts)) =
      programStatements parser budget (c.prepend ts) := by
  rw [programStatements, bind_of_done (current_apply _), Cursor.current_prepend_cons,
    if_neg (by simp [ht]), if_pos ht, bind_of_done (advance_prepend_cons (by simp [ht]) c ts)]

theorem programStatements_statement (hfinish : start.current.kind ≠ .finish)
    (hsemicolon : start.current.kind ≠ .semicolon) (hfirst : parser start = .done e mid)
    (u : Token) (budget : List Token) :
    programStatements parser (u :: budget) start = (do
      let rest ← programStatements parser budget
      return e :: rest) mid := by
  rw [programStatements, bind_of_done (current_apply _), if_neg hfinish, if_neg hsemicolon,
    bind_of_done hfirst]

end Sequences

section Statements

variable {start : Cursor}

theorem statement_giveBack (h : start.current.kind = .giveBack) :
    statement (n + 1) start = returnStatement n start := by
  simp only [statement]
  rw [bind_of_done (current_apply _), h]

theorem statement_function (h : start.current.Is .keyword "function") :
    statement (n + 1) start = functionDeclaration n start := by
  simp only [statement]
  rw [bind_of_done (current_apply _), h.1]
  simp [h.2]

theorem statement_print (h : start.current.Is .keyword "print") :
    statement (n + 1) start = printStatement n start := by
  simp only [statement]
  rw [bind_of_done (current_apply _), h.1]
  simp [h.2]

theorem statement_if (h : start.current.Is .keyword "if") :
    statement (n + 1) start = ifStatement n start := by
  simp only [statement]
  rw [bind_of_done (current_apply _), h.1]
  simp [h.2]

theorem statement_while (h : start.current.Is .keyword "while") :
    statement (n + 1) start = whileStatement n start := by
  simp only [statement]
  rw [bind_of_done (current_apply _), h.1]
  simp [h.2]

/-- The words that statements other than expressions start with. -/
def statementWords : List String := ["function", "print", "if", "while"]

/-- A statement that does not start with a name or with the word of a statement is an expression. -/
theorem statement_expression (hreturn : start.current.kind ≠ .giveBack)
    (hname : start.current.kind ≠ .identifier)
    (hword : ∀ word ∈ statementWords, ¬ start.current.Is .keyword word) :
    statement (n + 1) start = (do
      let value ← expression n
      return .expressionStatement value : Parse Tree) start := by
  simp only [statement]
  rw [bind_of_done (current_apply _)]
  cases hkind : start.current.kind with
  | giveBack => exact absurd hkind hreturn
  | identifier => exact absurd hkind hname
  | keyword =>
      have hliteral : ∀ word ∈ statementWords, start.current.literal ≠ .text word :=
        fun word hmem heq => hword word hmem ⟨hkind, heq⟩
      dsimp only
      rw [if_neg (hliteral _ (by simp [statementWords])),
        if_neg (hliteral _ (by simp [statementWords])),
        if_neg (hliteral _ (by simp [statementWords])),
        if_neg (hliteral _ (by simp [statementWords]))]
  | _ => rfl

theorem statement_identifier (hname : start.current.kind = .identifier)
    (h : identifierStatement n start = .done (some tree) c) :
    statement (n + 1) start = .done tree c := by
  simp only [statement]
  rw [bind_of_done (current_apply _), hname]
  dsimp only
  rw [bind_of_done h]
  rfl

/-- When a name starts no other statement, the expression is read from the name on. -/
theorem statement_identifier_none (hname : start.current.kind = .identifier)
    (hnone : identifierStatement n start = .done none start)
    (h : expression n start = .done e c) :
    statement (n + 1) start = .done (.expressionStatement e) c := by
  simp only [statement]
  rw [bind_of_done (current_apply _), hname]
  dsimp only
  rw [bind_of_done hnone]
  dsimp only
  rw [bind_of_done h]
  rfl

theorem returnStatement_empty (hword : word.kind = .giveBack)
    (hc : c.current.kind = .rightBrace ∨ c.current.kind = .semicolon ∨ c.current.kind = .finish) :
    returnStatement (n + 1) (c.prepend [word]) = .done (.returnStatement .none) c := by
  simp only [returnStatement]
  rw [bind_of_done (expectKind_prepend_cons hword (by simp) c []),
    bind_of_done (current_apply _), Cursor.prepend_nil, if_pos hc]
  rfl

theorem returnStatement_value (hword : word.kind = .giveBack)
    (hstart : ¬ ((c.prepend ts).current.kind = .rightBrace ∨
      (c.prepend ts).current.kind = .semicolon ∨ (c.prepend ts).current.kind = .finish))
    (h : expression n (c.prepend ts) = .done e c) :
    returnStatement (n + 1) (c.prepend (word :: ts)) = .done (.returnStatement e) c := by
  simp only [returnStatement]
  rw [bind_of_done (expectKind_prepend_cons hword (by simp) c ts),
    bind_of_done (current_apply _), if_neg hstart, bind_of_done h]
  rfl

theorem printStatement_value (hword : word.Is .keyword "print") (hleft : left.kind = .leftParen)
    (h : expression n ((c.prepend [right]).prepend ts) = .done e (c.prepend [right]))
    (hright : right.kind = .rightParen) :
    printStatement (n + 1) (c.prepend (word :: left :: ts ++ [right])) = .done (.print e) c := by
  simp only [printStatement]
  rw [List.cons_append, bind_of_done (expectKeyword_prepend_cons hword.1 hword.2 c _),
    List.cons_append, bind_of_done (expectAs_prepend_cons hleft (by simp) _ c _),
    Cursor.prepend_append, bind_of_done h,
    bind_of_done (expectAs_prepend_cons hright (by simp) _ c [])]
  rfl

theorem whileStatement_block (hword : word.Is .keyword "while") (hleft : left.kind = .leftParen)
    (h : expression n ((c.prepend (right :: bs)).prepend cs) = .done cond (c.prepend (right :: bs)))
    (hright : right.kind = .rightParen) (hblock : block n (c.prepend bs) = .done body c) :
    whileStatement (n + 1) (c.prepend (word :: left :: cs ++ right :: bs)) =
      .done (.whileStatement cond (.list body)) c := by
  simp only [whileStatement]
  rw [List.cons_append, bind_of_done (expectKeyword_prepend_cons hword.1 hword.2 c _),
    List.cons_append, bind_of_done (expectAs_prepend_cons hleft (by simp) _ c _),
    Cursor.prepend_append, bind_of_done h,
    bind_of_done (expectAs_prepend_cons hright (by simp) _ c bs), bind_of_done hblock]
  rfl

theorem functionDeclaration_block (hword : word.Is .keyword "function") (ht : t.Is .identifier x)
    (hparams : Parameters ps params) (hblock : block n (c.prepend bs) = .done body c) :
    functionDeclaration (n + 1) (c.prepend (word :: t :: ps ++ bs)) =
      .done (.functionDeclaration (.text x) (.list params) (.list body)) c := by
  simp only [functionDeclaration]
  rw [List.cons_append, bind_of_done (expectKeyword_prepend_cons hword.1 hword.2 c _),
    List.cons_append, bind_of_done (expectAs_prepend_cons ht.1 (by simp) _ c _),
    Cursor.prepend_append, bind_of_done (parameterList_of_parameters hparams _),
    bind_of_done hblock, ht.2]
  rfl

section Conditionals

variable {mid : Cursor} {other : Token} {inner : Tree} {rest : List Tree}

/-- The condition and the first block of an `if` are read before it is settled what comes then. -/
theorem ifStatement_block (hword : word.Is .keyword "if") (hleft : left.kind = .leftParen)
    (h : expression n ((mid.prepend (right :: bs)).prepend cs) =
      .done cond (mid.prepend (right :: bs)))
    (hright : right.kind = .rightParen) (hblock : block n (mid.prepend bs) = .done body mid) :
    ifStatement (n + 1) (mid.prepend (word :: left :: cs ++ right :: bs)) = (do
      if ← isAtWord .keyword "else" then
        let _ ← advance
        if ← isAtWord .keyword "if" then
          let inner ← ifStatement n
          return .ifStatement cond (.list body) (.list [inner])
        else
          let rest ← block n
          return .ifStatement cond (.list body) (.list rest)
      else
        return .ifStatement cond (.list body) .none : Parse Tree) mid := by
  conv => lhs; simp only [ifStatement]
  rw [List.cons_append, bind_of_done (expectKeyword_prepend_cons hword.1 hword.2 mid _),
    List.cons_append, bind_of_done (expectAs_prepend_cons hleft (by simp) _ mid _),
    Cursor.prepend_append, bind_of_done h,
    bind_of_done (expectAs_prepend_cons hright (by simp) _ mid bs), bind_of_done hblock]

theorem ifStatement_only (hword : word.Is .keyword "if") (hleft : left.kind = .leftParen)
    (h : expression n ((c.prepend (right :: bs)).prepend cs) = .done cond (c.prepend (right :: bs)))
    (hright : right.kind = .rightParen) (hblock : block n (c.prepend bs) = .done body c)
    (hc : ¬ c.current.Is .keyword "else") :
    ifStatement (n + 1) (c.prepend (word :: left :: cs ++ right :: bs)) =
      .done (.ifStatement cond (.list body) .none) c := by
  rw [ifStatement_block hword hleft h hright hblock, bind_of_done (isAtWord_apply _ _ c),
    fits_of_not_is hc, if_neg (by simp)]
  rfl

theorem ifStatement_else (hword : word.Is .keyword "if") (hleft : left.kind = .leftParen)
    (h : expression n (((c.prepend (other :: us)).prepend (right :: bs)).prepend cs) =
      .done cond ((c.prepend (other :: us)).prepend (right :: bs)))
    (hright : right.kind = .rightParen)
    (hblock : block n ((c.prepend (other :: us)).prepend bs) = .done body (c.prepend (other :: us)))
    (hother : other.Is .keyword "else") (hif : ¬ (c.prepend us).current.Is .keyword "if")
    (hrest : block n (c.prepend us) = .done rest c) :
    ifStatement (n + 1) (c.prepend (word :: left :: cs ++ right :: bs ++ other :: us)) =
      .done (.ifStatement cond (.list body) (.list rest)) c := by
  rw [Cursor.prepend_append, ifStatement_block hword hleft h hright hblock,
    bind_of_done (isAtWord_apply _ _ _), Cursor.current_prepend_cons,
    fits_of_is hother, if_pos rfl, bind_of_done (advance_prepend_cons (by simp [hother.1]) c us),
    bind_of_done (isAtWord_apply _ _ _), fits_of_not_is hif, if_neg (by simp),
    bind_of_done hrest]
  rfl

theorem ifStatement_elseIf (hword : word.Is .keyword "if") (hleft : left.kind = .leftParen)
    (h : expression n (((c.prepend (other :: us)).prepend (right :: bs)).prepend cs) =
      .done cond ((c.prepend (other :: us)).prepend (right :: bs)))
    (hright : right.kind = .rightParen)
    (hblock : block n ((c.prepend (other :: us)).prepend bs) = .done body (c.prepend (other :: us)))
    (hother : other.Is .keyword "else") (hif : (c.prepend us).current.Is .keyword "if")
    (hinner : ifStatement n (c.prepend us) = .done inner c) :
    ifStatement (n + 1) (c.prepend (word :: left :: cs ++ right :: bs ++ other :: us)) =
      .done (.ifStatement cond (.list body) (.list [inner])) c := by
  rw [Cursor.prepend_append, ifStatement_block hword hleft h hright hblock,
    bind_of_done (isAtWord_apply _ _ _), Cursor.current_prepend_cons,
    fits_of_is hother, if_pos rfl, bind_of_done (advance_prepend_cons (by simp [hother.1]) c us),
    bind_of_done (isAtWord_apply _ _ _), fits_of_is hif, if_pos rfl,
    bind_of_done hinner]
  rfl

end Conditionals

theorem block_braces (hleft : left.kind = .leftBrace)
    (h : blockStatements (statement n) ((c.prepend [right]).prepend ts).tokens
      ((c.prepend [right]).prepend ts) = .done es (c.prepend [right]))
    (hright : right.kind = .rightBrace) :
    block (n + 1) (c.prepend (left :: ts ++ [right])) = .done es c := by
  simp only [block]
  rw [List.cons_append, bind_of_done (expectAs_prepend_cons hleft (by simp) _ c _),
    Cursor.prepend_append, bind_of_done (cursor_apply _), bind_of_done h,
    bind_of_done (expectKind_prepend_cons hright (by simp) c [])]
  rfl

end Statements

section Names

variable {sign dot member : Token} {m : String}

theorem identifierStatement_assignment (ht : t.kind = .identifier) (hsign : sign.kind = .assign)
    (h : expression n (c.prepend ts) = .done e c) :
    identifierStatement (n + 1) (c.prepend (t :: sign :: ts)) =
      .done (some (.assignment t.literal.tree e)) c := by
  simp only [identifierStatement]
  rw [bind_of_done (cursor_apply _), bind_of_done (expectKind_prepend_cons ht (by simp) c _),
    bind_of_done (current_apply _), Cursor.current_prepend_cons, hsign]
  dsimp only
  rw [bind_of_done (advance_prepend_cons (by simp [hsign]) c ts), bind_of_done h]
  rfl

/-- Behind an index it is settled whether an element is assigned. -/
theorem identifierStatement_index {index : Tree} (ht : t.kind = .identifier)
    (hleft : left.kind = .leftBracket)
    (h : expression n ((c.prepend [right]).prepend ts) = .done index (c.prepend [right]))
    (hright : right.kind = .rightBracket) :
    identifierStatement (n + 1) (c.prepend (t :: left :: ts ++ [right])) = (do
      if ← isAt .assign then
        let _ ← advance
        let value ← expression n
        return some (.elementAssignment t.literal.tree index value)
      else
        moveTo (c.prepend (t :: left :: ts ++ [right]))
        return none : Parse (Option Tree)) c := by
  conv => lhs; simp only [identifierStatement]
  rw [bind_of_done (cursor_apply _), List.cons_append,
    bind_of_done (expectKind_prepend_cons ht (by simp) c _), bind_of_done (current_apply _),
    List.cons_append, Cursor.current_prepend_cons, hleft]
  dsimp only
  rw [bind_of_done (advance_prepend_cons (by simp [hleft]) c _), Cursor.prepend_append,
    bind_of_done h, bind_of_done (expectAs_prepend_cons hright (by simp) _ c [])]
  rfl

theorem identifierStatement_elementAssignment {index : Tree} {us : List Token}
    (ht : t.kind = .identifier) (hleft : left.kind = .leftBracket)
    (h : expression n (((c.prepend (sign :: us)).prepend [right]).prepend ts) =
      .done index ((c.prepend (sign :: us)).prepend [right]))
    (hright : right.kind = .rightBracket) (hsign : sign.kind = .assign)
    (hvalue : expression n (c.prepend us) = .done e c) :
    identifierStatement (n + 1) (c.prepend (t :: left :: ts ++ right :: sign :: us)) =
      .done (some (.elementAssignment t.literal.tree index e)) c := by
  have hsplit : t :: left :: ts ++ right :: sign :: us =
      (t :: left :: ts ++ [right]) ++ sign :: us := by simp
  rw [hsplit, Cursor.prepend_append, identifierStatement_index ht hleft h hright,
    bind_of_done (isAt_apply _ _), Cursor.current_prepend_cons, decide_eq_true hsign, if_pos rfl,
    bind_of_done (advance_prepend_cons (by simp [hsign]) c us), bind_of_done hvalue]
  rfl

/-- Behind a call of a method it is settled whether the call is part of an expression. -/
theorem identifierStatement_method (ht : t.kind = .identifier) (hdot : dot.kind = .dot)
    (hmember : Member member m) (hleft : left.kind = .leftParen)
    (h : ∀ words, arguments n words (c.prepend (left :: ts)) = .done es c) :
    identifierStatement (n + 1) (c.prepend (t :: dot :: member :: left :: ts)) =
      if continuesExpression c.current.kind then
        .done none (c.prepend (t :: dot :: member :: left :: ts))
      else .done (some (.methodCall t.literal.tree (.text m) (.list es))) c := by
  have hkind := hmember.kind_eq
  have hnext : member.kind ≠ .finish := by rcases hkind with h | h <;> simp [h]
  simp only [identifierStatement]
  rw [bind_of_done (cursor_apply _), bind_of_done (expectKind_prepend_cons ht (by simp) c _),
    bind_of_done (current_apply _), Cursor.current_prepend_cons, hdot]
  dsimp only
  rw [bind_of_done (advance_prepend_cons (by simp [hdot]) c _), bind_of_done (cursor_apply _),
    if_pos ⟨hkind, hleft⟩, bind_of_done (advance_prepend_cons hnext c _), bind_of_done (h _),
    bind_of_done (current_apply _), hmember.literal_eq]
  split
  · rfl
  · rfl

theorem identifierStatement_property (ht : t.kind = .identifier) (hdot : dot.kind = .dot)
    (hc : c.current.kind ≠ .leftParen) :
    identifierStatement (n + 1) (c.prepend [t, dot, member]) =
      .done none (c.prepend [t, dot, member]) := by
  simp only [identifierStatement]
  rw [bind_of_done (cursor_apply _), bind_of_done (expectKind_prepend_cons ht (by simp) c _),
    bind_of_done (current_apply _), Cursor.current_prepend_cons, hdot]
  dsimp only
  rw [bind_of_done (advance_prepend_cons (by simp [hdot]) c _), bind_of_done (cursor_apply _),
    if_neg (fun h => hc h.2)]
  rfl

theorem identifierStatement_declaration (ht : t.kind = .identifier) (hparams : Parameters ps params)
    (hopens : (c.prepend bs).current.kind = .leftBrace)
    (hblock : block n (c.prepend bs) = .done body c) :
    identifierStatement (n + 1) (c.prepend (t :: ps ++ bs)) =
      .done (some (.functionDeclaration t.literal.tree (.list params) (.list body))) c := by
  have hfirst : ((c.prepend bs).prepend ps).current.kind = .leftParen := by
    cases hparams with
    | none hleft => exact hleft
    | some hleft => exact hleft
  simp only [identifierStatement]
  rw [bind_of_done (cursor_apply _), List.cons_append,
    bind_of_done (expectKind_prepend_cons ht (by simp) c _), bind_of_done (current_apply _),
    Cursor.prepend_append, hfirst]
  dsimp only
  rw [bind_of_done (parametersIfPresent_of_parameters hparams _),
    bind_of_done (isAt_apply _ _), decide_eq_true hopens]
  dsimp only
  rw [bind_of_done hblock]
  rfl

/-- Parentheses behind a name that no brace follows anywhere are no parameters of a declaration. -/
theorem identifierStatement_call (ht : t.kind = .identifier) (hleft : left.kind = .leftParen)
    (hright : right.kind = .rightParen) (hts : ∀ u ∈ ts, u.kind ≠ .leftBrace)
    (hc : c.current.kind ≠ .leftBrace) :
    identifierStatement (n + 1) (c.prepend (t :: left :: ts ++ [right])) =
      .done none (c.prepend (t :: left :: ts ++ [right])) := by
  obtain ⟨params?, vs, hparams, hsuffix⟩ := parametersIfPresent_prepend hleft hright c ts
  have hopens : (c.prepend vs).current.kind ≠ .leftBrace := by
    cases vs with
    | nil => exact hc
    | cons v vs =>
        have hv : v ∈ ts ++ [right] := hsuffix.mem (by simp)
        rcases List.mem_append.mp hv with hv | hv
        · exact hts v hv
        · simp_all
  rw [List.cons_append] at hparams ⊢
  simp only [identifierStatement]
  rw [bind_of_done (cursor_apply _), List.cons_append,
    bind_of_done (expectKind_prepend_cons ht (by simp) c _), bind_of_done (current_apply _),
    Cursor.current_prepend_cons, hleft]
  dsimp only
  rw [bind_of_done hparams, bind_of_done (isAt_apply _ _), decide_eq_false hopens]
  cases params? <;> rfl

theorem identifierStatement_name (ht : t.kind = .identifier) (hassign : c.current.kind ≠ .assign)
    (hc : c.current.kind ≠ .leftParen ∧ c.current.kind ≠ .leftBracket ∧ c.current.kind ≠ .dot) :
    identifierStatement (n + 1) (c.prepend [t]) = .done none (c.prepend [t]) := by
  obtain ⟨hparen, hbracket, hdot⟩ := hc
  simp only [identifierStatement]
  rw [bind_of_done (cursor_apply _), bind_of_done (expectKind_prepend_cons ht (by simp) c _),
    bind_of_done (current_apply _), Cursor.prepend_nil]
  cases hkind : c.current.kind with
  | assign => exact absurd hkind hassign
  | leftParen => exact absurd hkind hparen
  | leftBracket => exact absurd hkind hbracket
  | dot => exact absurd hkind hdot
  | _ => rfl

end Names

end Sprig.Parse
