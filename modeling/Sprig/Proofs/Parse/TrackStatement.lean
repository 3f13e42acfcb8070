import Sprig.Proofs.Parse.Lookahead

/-!
# Statements on two cursors

The parsers of statements go the same way on two cursors that correspond, whatever nesting each of
the two runs allows, and so do the parsers of whole programs.

## Implementation notes

A statement that starts with a name is the one place where a parser goes back, and so the one place
where it might have looked beyond what the cursors have in common without ending up there. It ends
up there all the same, because the second reading comes by wherever the first one stopped.
-/

namespace Sprig.Parse

variable {T : Correspondence} {n m : Nat}

theorem forward_statement (n : Nat) : Forward (statement n) :=
  fun _ hK => ((Invariant.of_advance hK).statements n).statement

theorem tracks_expressionStatement (h : n = m ∨ T.loose) : Tracks T Eq (do
    let value ← expression n
    return .expressionStatement value : Parse Tree) (do
    let value ← expression m
    return .expressionStatement value) :=
  tracks_then (tracks_expressions h).expression fun _ => tracks_pure rfl

/-- The parsers of statements go the same way with some frames as with some others. -/
structure TracksStatements (T : Correspondence) (n m : Nat) : Prop where
  statement : Tracks T Eq (statement n) (statement m)
  identifierLead : Tracks T Eq (identifierLead n) (identifierLead m)
  functionDeclaration : Tracks T Eq (functionDeclaration n) (functionDeclaration m)
  returnStatement : Tracks T Eq (returnStatement n) (returnStatement m)
  printStatement : Tracks T Eq (printStatement n) (printStatement m)
  ifStatement : Tracks T Eq (ifStatement n) (ifStatement m)
  whileStatement : Tracks T Eq (whileStatement n) (whileStatement m)
  block : Tracks T Eq (block n) (block m)

namespace TracksStatements

/-- A statement that starts with a name, as it is read by way of the first reading. -/
theorem statement_of_name {c : Cursor} (hname : c.current.kind = .identifier) (n : Nat) :
    Parse.statement (n + 1) c = match Parse.identifierLead n c with
      | .done (some tree) rest => .done tree rest
      | .done none _ => (do
          let value ← Parse.expression n
          return .expressionStatement value : Parse Tree) c
      | .refused why rest => .refused why rest := by
  simp only [Parse.statement]
  rw [bind_of_done (current_apply c), hname]
  dsimp only
  rw [bind_apply, identifierStatement_eq, goingBack]
  cases Parse.identifierLead n c with
  | done tree? rest => cases tree? <;> rfl
  | refused why rest => rfl

theorem follows_name (hframes : n = m ∨ T.loose)
    (h : Tracks T Eq (Parse.identifierLead n) (Parse.identifierLead m)) {c d : Cursor}
    (hnear : T.near c d) (hname : c.current.kind = .identifier) :
    Follows T Eq (Parse.statement (n + 1) c) (Parse.statement (m + 1) d) := by
  have hother : d.current.kind = .identifier := T.kind_eq hnear ▸ hname
  have hlead := h.follows hnear
  rw [statement_of_name hname, statement_of_name hother]
  generalize hs : Parse.identifierLead n c = s at *
  generalize Parse.identifierLead m d = t at *
  cases hlead with
  | tooDeep h => exact .tooDeep h
  | otherTooDeep h => exact .otherTooDeep h
  | beyond hbeyond =>
      cases s with
      | refused why rest => exact .beyond hbeyond
      | done tree? rest =>
          cases tree? with
          | some tree => exact .beyond hbeyond
          | none =>
              -- The expression comes by where the first reading stopped, so it is beyond as well.
              have hc := T.lexical hbeyond hnear
              have hpasses := passes_bind (passes_of_lead (m := n) hc hname hs
                (fun _ h => T.beyond_advance h) hbeyond) (fun _ h => T.beyond_advance h)
                fun value => forward_pure (Tree.expressionStatement value)
              generalize (Parse.expression n >>= fun value =>
                pure (Tree.expressionStatement value)) c = u at *
              cases u with
              | done tree rest => exact .beyond hpasses
              | refused why rest =>
                  rcases hpasses with rfl | hrest
                  · exact .tooDeep (T.loose_of_beyond hbeyond)
                  · exact .beyond hrest
  | refused hrest => exact .refused hrest
  | @done tree? _ rest other hvalue hrest =>
      subst hvalue
      cases tree? with
      | some tree => exact .done rfl hrest
      | none => exact (tracks_expressionStatement hframes).follows hnear

theorem statement_succ (hframes : n = m ∨ T.loose) (h : TracksStatements T n m) :
    Tracks T Eq (Parse.statement (n + 1)) (Parse.statement (m + 1)) where
  forward := forward_statement (n + 1)
  follows {c d} hnear := by
    by_cases hname : c.current.kind = .identifier
    · exact follows_name hframes h.identifierLead hnear hname
    · have hkind := T.kind_eq hnear
      simp only [Parse.statement]
      rw [bind_of_done (current_apply c), bind_of_done (current_apply d), ← hkind,
        ← T.literal_eq hnear]
      cases htoken : c.current.kind with
      | giveBack => exact h.returnStatement.follows hnear
      | keyword =>
          refine (tracks_ite h.functionDeclaration (tracks_ite h.printStatement ?_)).follows hnear
          refine tracks_ite h.ifStatement (tracks_ite h.whileStatement ?_)
          exact tracks_expressionStatement hframes
      | identifier => exact absurd htoken hname
      | _ => exact (tracks_expressionStatement hframes).follows hnear

theorem identifierLead_succ (hframes : n = m ∨ T.loose) (h : TracksStatements T n m) :
    Tracks T Eq (Parse.identifierLead (n + 1)) (Parse.identifierLead (m + 1)) := by
  have hexpressions := tracks_expressions hframes
  simp only [Parse.identifierLead]
  refine tracks_token (tracks_expectKind _) fun {name name'} _ hname => ?_
  refine tracks_token tracks_current fun {s t} hkind _ => ?_
  rw [← hname, ← hkind]
  split
  · refine tracks_token tracks_advance fun _ _ => ?_
    exact tracks_then hexpressions.expression fun value => tracks_pure rfl
  · refine tracks_token tracks_advance fun _ _ => ?_
    refine tracks_then hexpressions.expression fun index => ?_
    refine tracks_token (tracks_expectAs _ _) fun _ _ => ?_
    refine tracks_then (tracks_isAt _) fun assigned => tracks_ite ?_ (tracks_pure rfl)
    refine tracks_token tracks_advance fun _ _ => ?_
    exact tracks_then hexpressions.expression fun value => tracks_pure rfl
  · refine tracks_token tracks_advance fun _ _ => ?_
    refine tracks_token tracks_current fun {member member'} hkind hliteral => ?_
    rw [← hkind, ← hliteral]
    refine tracks_ite ?_ (tracks_pure rfl)
    refine tracks_token tracks_advance fun _ _ => tracks_then (tracks_isAt _) fun called => ?_
    refine tracks_ite ?_ (tracks_pure rfl)
    refine tracks_then (hexpressions.arguments _) fun args => ?_
    refine tracks_token tracks_current fun {after after'} hkind _ => ?_
    rw [← hkind]
    exact tracks_ite (tracks_pure rfl) (tracks_pure rfl)
  · refine tracks_then tracks_parametersIfPresent fun params? => ?_
    refine tracks_then (tracks_isAt _) fun opens => ?_
    cases params? with
    | none => exact tracks_pure rfl
    | some params =>
        cases opens with
        | false => exact tracks_pure rfl
        | true => exact tracks_then h.block fun body => tracks_pure rfl
  · exact tracks_pure rfl

/-- With one more frame in each of the two runs they go the same way again. -/
theorem succ (hframes : n = m ∨ T.loose) (h : TracksStatements T n m) :
    TracksStatements T (n + 1) (m + 1) where
  statement := h.statement_succ hframes
  identifierLead := h.identifierLead_succ hframes
  functionDeclaration := by
    simp only [Parse.functionDeclaration]
    refine tracks_token (tracks_expectKeyword _) fun _ _ => ?_
    refine tracks_token (tracks_expectAs _ _) fun {name name'} _ hname => ?_
    rw [← hname]
    refine tracks_then tracks_parameterList fun params => ?_
    exact tracks_then h.block fun body => tracks_pure rfl
  returnStatement := by
    simp only [Parse.returnStatement]
    refine tracks_token (tracks_expectKind _) fun _ _ => ?_
    refine tracks_token tracks_current fun {s t} hkind _ => ?_
    rw [← hkind]
    refine tracks_ite (tracks_pure rfl) ?_
    exact tracks_then (tracks_expressions hframes).expression fun value => tracks_pure rfl
  printStatement := by
    simp only [Parse.printStatement]
    refine tracks_token (tracks_expectKeyword _) fun _ _ => ?_
    refine tracks_token (tracks_expectAs _ _) fun _ _ => ?_
    refine tracks_then (tracks_expressions hframes).expression fun value => ?_
    exact tracks_token (tracks_expectAs _ _) fun _ _ => tracks_pure rfl
  ifStatement := by
    simp only [Parse.ifStatement]
    refine tracks_token (tracks_expectKeyword _) fun _ _ => ?_
    refine tracks_token (tracks_expectAs _ _) fun _ _ => ?_
    refine tracks_then (tracks_expressions hframes).expression fun condition => ?_
    refine tracks_token (tracks_expectAs _ _) fun _ _ => tracks_then h.block fun body => ?_
    refine tracks_then (tracks_isAtWord _ _) fun other => tracks_ite ?_ (tracks_pure rfl)
    refine tracks_token tracks_advance fun _ _ => ?_
    refine tracks_then (tracks_isAtWord _ _) fun again => tracks_ite ?_ ?_
    · exact tracks_then h.ifStatement fun inner => tracks_pure rfl
    · exact tracks_then h.block fun rest => tracks_pure rfl
  whileStatement := by
    simp only [Parse.whileStatement]
    refine tracks_token (tracks_expectKeyword _) fun _ _ => ?_
    refine tracks_token (tracks_expectAs _ _) fun _ _ => ?_
    refine tracks_then (tracks_expressions hframes).expression fun condition => ?_
    refine tracks_token (tracks_expectAs _ _) fun _ _ => ?_
    exact tracks_then h.block fun body => tracks_pure rfl
  block := by
    simp only [Parse.block]
    refine tracks_token (tracks_expectAs _ _) fun _ _ => ?_
    refine tracks_cursor (tracksWithin_bind
      (tracksWithin_blockStatements h.statement (shortens_statement n)) fun statements => ?_)
    exact tracks_token (tracks_expectKind _) fun _ _ => tracks_pure rfl

end TracksStatements

theorem identifierLead_zero : identifierLead 0 = tooDeep := rfl

theorem tracks_statements_refl (n : Nat) : TracksStatements T n n := by
  induction n with
  | zero => constructor <;> simp [identifierLead_zero, tracks_tooDeep]
  | succ n ih => exact ih.succ (.inl rfl)

/-- The parsers of statements go the same way with the same frames, and with any frames if the runs
may differ in where they give up. -/
theorem tracks_statements (hframes : n = m ∨ T.loose) : TracksStatements T n m := by
  rcases hframes with rfl | hloose
  · exact tracks_statements_refl n
  induction n generalizing m with
  | zero => constructor <;> simp [identifierLead_zero, tracks_of_tooDeep hloose]
  | succ n ih =>
      cases m with
      | succ m => exact ih.succ (.inr hloose)
      | zero =>
          have hrefl := tracks_statements_refl (T := T) (n + 1)
          constructor
          · rw [statement_zero]
            exact tracks_of_otherTooDeep hloose hrefl.statement.forward
          · rw [identifierLead_zero]
            exact tracks_of_otherTooDeep hloose hrefl.identifierLead.forward
          · rw [functionDeclaration_zero]
            exact tracks_of_otherTooDeep hloose hrefl.functionDeclaration.forward
          · rw [returnStatement_zero]
            exact tracks_of_otherTooDeep hloose hrefl.returnStatement.forward
          · rw [printStatement_zero]
            exact tracks_of_otherTooDeep hloose hrefl.printStatement.forward
          · rw [ifStatement_zero]
            exact tracks_of_otherTooDeep hloose hrefl.ifStatement.forward
          · rw [whileStatement_zero]
            exact tracks_of_otherTooDeep hloose hrefl.whileStatement.forward
          · rw [block_zero]
            exact tracks_of_otherTooDeep hloose hrefl.block.forward

/-- Where no run steps beyond what the cursors have in common, both go back to the same place. -/
theorem follows_identifierStatement (hframes : n = m ∨ T.loose) (hwhole : ∀ c, ¬ T.beyond c)
    {c d : Cursor} (hnear : T.near c d) :
    Follows T Eq (identifierStatement n c) (identifierStatement m d) := by
  have hlead := (tracks_statements hframes).identifierLead.follows hnear
  rw [identifierStatement_eq, identifierStatement_eq, goingBack, goingBack]
  generalize identifierLead n c = s at *
  generalize identifierLead m d = t at *
  cases hlead with
  | tooDeep h => exact .tooDeep h
  | otherTooDeep h => exact .otherTooDeep h
  | beyond hbeyond => exact absurd hbeyond (hwhole _)
  | refused hrest => exact .refused hrest
  | @done tree? _ _ _ hvalue hrest =>
      subst hvalue
      cases tree? with
      | none => exact .done rfl hnear
      | some tree => exact .done rfl hrest

/-- Programs on two cursors that correspond are read the same way, with any rounds that suffice. -/
theorem follows_programStatements (hframes : n = m ∨ T.loose) {c d : Cursor} (hnear : T.near c d)
    {budget rounds : List Token} (hbudget : c.tokens.length ≤ budget.length)
    (hrounds : d.tokens.length ≤ rounds.length) :
    Follows T Eq (programStatements (statement n) budget c)
      (programStatements (statement m) rounds d) :=
  (tracksWithin_programStatements (tracks_statements hframes).statement
    (shortens_statement n)).follows hnear hbudget hrounds

end Sprig.Parse
