import Sprig.Proofs.Grammar.ExpressionRefusal
import Sprig.Proofs.Parse.Lookahead

/-!
# What the parser of a program takes before it refuses

When the parser of a statement refuses a token, the tokens it took up to there begin a statement,
and when the parser of a program does, they begin a program.

## Implementation notes

A statement that starts with a name is refused in its first reading or in the second one. Either
way the tokens up to the refused one begin a statement: a call or an element that the first reading
came to can still go on as an expression.
-/

namespace Sprig.Grammar

open Parse Cursor

variable {n : Nat} {c : Cursor}

section Parameters

theorem viable_names (budget : List Token) : Viable (names budget) BeginsNames := by
  induction budget with
  | nil => exact fun _ _ => refusesBehind_done _ _
  | cons t budget ih =>
      intro c hc
      rw [names]
      refine refusesBehind_bind (refusesBehind_expectAs (.refl hc) .nil _ _) ?_
      intro name mid hname
      obtain ⟨hkind, hnamed, hlexical⟩ := takes_of_expectAs hc (by simp) hname
      obtain ⟨x, hliteral, -⟩ := hlexical.text (by simp [hkind])
      rw [bind_of_done (isAt_apply _ mid)]
      split
      · next hcomma =>
        rw [decide_eq_true_eq] at hcomma
        obtain ⟨hseparated, -⟩ := hnamed.lexical.takes_advance (by simp [hcomma])
        rw [bind_of_done (advance_apply mid)]
        exact refusesBehind_bind (ih.behind (hnamed.trans hseparated) fun us =>
          .more ⟨hkind, hliteral⟩ hcomma) fun _ _ _ => refusesBehind_done _ _
      · exact refusesBehind_done _ _

theorem viable_parameterList : Viable parameterList BeginsParameters := by
  intro c hc
  rw [parameterList]
  refine refusesBehind_bind (refusesBehind_expectAs (.refl hc) .nil _ _) fun left mid hleft => ?_
  obtain ⟨hleft, hopened, -⟩ := takes_of_expectAs hc (by simp) hleft
  rw [bind_of_done (isAt_apply _ mid)]
  split
  · exact refusesBehind_done _ _
  · rw [bind_of_done (cursor_apply mid)]
    refine refusesBehind_bind ((viable_names _).behind hopened fun us => .of_names hleft) ?_
    intro params last hparams
    obtain ⟨ts, hts, hnames⟩ := takes_of_names _ hopened.lexical (Nat.le_refl _) hparams
    exact refusesBehind_bind (refusesBehind_expectAs (hopened.trans hts)
      (.of_names hleft hnames.begins) _ _) fun _ _ _ => refusesBehind_done _ _

/-- Parameters are no reason to refuse where they are optional. -/
theorem refusesBehind_parametersIfPresent {B : List Token → Prop} (start : Cursor)
    (hleft : c.current.kind = .leftParen) : RefusesBehind B start (parametersIfPresent c) := by
  obtain ⟨params?, rest, hdone⟩ := (lenient_parameters hleft).exists_done
  rw [hdone]
  exact refusesBehind_done _ _

end Parameters

section Sequences

variable {ts : List Token} {tree : Tree} {mid : Cursor} {s : Step (List Tree)}

/-- What is taken behind a statement goes on with the token that did not carry it on. -/
theorem Stated.refusesBehind_more (h : Stated n mid.current ts tree) (hts : Takes c ts mid)
    (hs : RefusesBehind Part.sequence.Begins mid s) : RefusesBehind Part.sequence.Begins c s := by
  intro what rest hrefused
  obtain ⟨us, hus, hbegins⟩ := hs what rest hrefused
  refine ⟨ts ++ us, hts.trans hus, .more h.states (fun t ht => ?_) hbegins⟩
  obtain ⟨vs, rfl⟩ := List.head?_eq_some_iff.mp ht
  have hadjoins := h.adjoins
  rw [hus.eq] at hadjoins
  exact hadjoins

/-- A statement and what is taken behind it. -/
theorem refusesBehind_sequence {others : Parse (List Tree)}
    (h : Viable (Parse.statement n) Part.statement.Begins)
    (hothers : Viable others Part.sequence.Begins) (hc : c.IsLexical) :
    RefusesBehind Part.sequence.Begins c ((do
      let first ← Parse.statement n
      let rest ← others
      return first :: rest) c) := by
  refine refusesBehind_bind (h.behind (.refl hc) fun us => .sequence) fun first mid hfirst => ?_
  obtain ⟨ts, hts, hstated⟩ := (sound_statements n).1 hc hfirst
  refine refusesBehind_bind ?_ fun _ _ _ => refusesBehind_done _ _
  exact hstated.refusesBehind_more hts (hothers hts.lexical)

/-- A semicolon and what is taken behind it. -/
theorem refusesBehind_semicolon {others : Parse (List Tree)}
    (hothers : Viable others Part.sequence.Begins) (hc : c.IsLexical)
    (hsemicolon : c.current.kind = .semicolon) :
    RefusesBehind Part.sequence.Begins c ((do let _ ← advance; others) c) := by
  obtain ⟨htaken, -⟩ := hc.takes_advance (by simp [hsemicolon])
  rw [bind_of_done (advance_apply c)]
  exact hothers.behind htaken fun us => .semicolon hsemicolon

theorem viable_blockStatements (h : Viable (Parse.statement n) Part.statement.Begins)
    (budget : List Token) :
    Viable (blockStatements (Parse.statement n) budget) Part.sequence.Begins := by
  induction budget with
  | nil => exact fun _ _ => refusesBehind_done _ _
  | cons t budget ih =>
      intro c hc
      rw [blockStatements, bind_of_done (current_apply c)]
      split
      · exact refusesBehind_done _ _
      split
      · exact refusesBehind_refuse (.refl hc) .empty _
      split
      · next hsemicolon => exact refusesBehind_semicolon ih hc hsemicolon
      · exact refusesBehind_sequence h ih hc

theorem viable_programStatements (h : Viable (Parse.statement n) Part.statement.Begins)
    (budget : List Token) :
    Viable (programStatements (Parse.statement n) budget) Part.sequence.Begins := by
  induction budget with
  | nil => exact fun _ _ => refusesBehind_done _ _
  | cons t budget ih =>
      intro c hc
      rw [programStatements, bind_of_done (current_apply c)]
      split
      · exact refusesBehind_done _ _
      split
      · next hsemicolon => exact refusesBehind_semicolon ih hc hsemicolon
      · exact refusesBehind_sequence h ih hc

end Sequences

section Statements

/-- A word of the language and an expression in parentheses, and then something else. -/
theorem refusesBehind_parenthesized {α : Type} {part : Part} {word opening closing : String}
    {next : Tree → Parse α} (hc : c.IsLexical)
    (hinner : ∀ {t left us}, t.Is .keyword word → left.kind = .leftParen →
      Form.expression.Begins us → part.Begins (t :: left :: us))
    (hnext : ∀ {t left cs e right rest}, t.Is .keyword word → left.kind = .leftParen →
      Spells n .expression cs e → right.kind = .rightParen →
      Takes c (t :: left :: cs ++ [right]) rest → RefusesBehind part.Begins c (next e rest)) :
    RefusesBehind part.Begins c ((do
      let _ ← expectKeyword word
      let _ ← expectAs .leftParen opening
      let e ← Parse.expression n
      let _ ← expectAs .rightParen closing
      next e) c) := by
  have hbegins : ∀ {t}, t.Is .keyword word → part.Begins [t] := by
    intro t ht
    have hopened : part.Begins [t, tokenOf .leftParen "("] := hinner ht rfl (.nil (by simp))
    exact hopened.head
  refine refusesBehind_bind
    (refusesBehind_expect (.refl hc) (hbegins (is_tokenOf _ word)).nil _ _ _) fun t c₁ hword => ?_
  obtain ⟨hkind, hliteral, hworded⟩ := takes_of_expectKeyword hc hword
  refine refusesBehind_bind (refusesBehind_expectAs hworded (hbegins ⟨hkind, hliteral⟩) _ _) ?_
  intro left c₂ hleft
  obtain ⟨hleft', hopened, -⟩ := takes_of_expectAs hworded.lexical (by simp) hleft
  refine refusesBehind_bind ((viable_expression n).behind (hworded.trans hopened) fun us =>
    hinner ⟨hkind, hliteral⟩ hleft') fun e c₃ he => ?_
  obtain ⟨cs, hcs, hwhole⟩ := sound_expression n hopened.lexical he
  refine refusesBehind_bind (refusesBehind_expectAs ((hworded.trans hopened).trans hcs)
    (hinner ⟨hkind, hliteral⟩ hleft' hwhole.spells.begins) _ _) fun right rest hright => ?_
  obtain ⟨ht, hleft, hright, cs, hcs, hspells⟩ :=
    takes_of_parenthesized hc hword hleft he hright
  exact hnext ht hleft hspells hright hcs

/-- What the parsers of statements take before they refuse a token. -/
structure ViableStatements (n : Nat) : Prop where
  statement : Viable (Parse.statement n) Part.statement.Begins
  identifierStatement : Viable (identifierStatement n) Part.statement.Begins
  functionDeclaration : Viable (functionDeclaration n) Part.statement.Begins
  returnStatement : Viable (returnStatement n) Part.statement.Begins
  printStatement : Viable (printStatement n) Part.statement.Begins
  ifStatement : Viable (Parse.ifStatement n) Part.conditional.Begins
  whileStatement : Viable (Parse.whileStatement n) Part.statement.Begins
  block : Viable (Parse.block n) Part.block.Begins

namespace ViableStatements

theorem statement_nil : Part.statement.Begins [] := .expression (.nil (by simp))

theorem block_succ (h : ViableStatements n) : Viable (Parse.block (n + 1)) Part.block.Begins := by
  intro c hc
  simp only [Parse.block]
  refine refusesBehind_bind (refusesBehind_expectAs (.refl hc) .block_nil _ _) ?_
  intro left mid hleft
  obtain ⟨hleft, hopened, -⟩ := takes_of_expectAs hc (by simp) hleft
  rw [bind_of_done (cursor_apply mid)]
  refine refusesBehind_bind ((viable_blockStatements h.statement _).behind hopened fun us =>
    .block hleft) fun trees last htrees => ?_
  obtain ⟨ts, hts, hstates⟩ := takes_of_blockStatements (sound_statements n).1 _ hopened.lexical
    (Nat.le_refl _) htrees
  exact refusesBehind_bind (refusesBehind_expectKind (hopened.trans hts)
    (.block hleft hstates.begins) _) fun _ _ _ => refusesBehind_done _ _

theorem printStatement_succ (n : Nat) :
    Viable (Parse.printStatement (n + 1)) Part.statement.Begins := by
  intro c hc
  simp only [Parse.printStatement]
  exact refusesBehind_parenthesized hc .print fun _ _ _ _ _ => refusesBehind_done _ _

theorem whileStatement_succ (h : ViableStatements n) :
    Viable (Parse.whileStatement (n + 1)) Part.statement.Begins := by
  intro c hc
  simp only [Parse.whileStatement]
  refine refusesBehind_parenthesized hc .while_condition fun ht hleft hspells hright hts => ?_
  refine refusesBehind_bind (h.block.behind hts fun us hus => ?_)
    fun _ _ _ => refusesBehind_done _ _
  rw [List.append_assoc, List.singleton_append]
  exact .while ht hleft hspells hright hus

theorem ifStatement_succ (h : ViableStatements n) :
    Viable (Parse.ifStatement (n + 1)) Part.conditional.Begins := by
  intro c hc
  simp only [Parse.ifStatement]
  refine refusesBehind_parenthesized hc .if_condition fun ht hleft hspells hright hts => ?_
  refine refusesBehind_bind (h.block.behind hts fun us hus => ?_) fun body mid hbody => ?_
  · rw [List.append_assoc, List.singleton_append]
    exact .ifOnly ht hleft hspells hright hus
  obtain ⟨bs, hbs, hstates⟩ := (sound_statements n).2.2 hts.lexical hbody
  have htaken := hts.trans hbs
  rw [List.append_assoc, List.singleton_append] at htaken
  rw [bind_of_done (isAtWord_apply _ _ mid)]
  split
  · next helse =>
    rw [fits_word, decide_eq_true_eq] at helse
    obtain ⟨hother, -⟩ := hbs.lexical.takes_advance (by simp [helse.1])
    rw [bind_of_done (advance_apply mid), bind_of_done (isAtWord_apply _ _ _)]
    split
    · refine refusesBehind_bind (h.ifStatement.behind (htaken.trans hother) fun us hus => ?_)
        fun _ _ _ => refusesBehind_done _ _
      rw [List.append_assoc, List.singleton_append]
      exact .elseIf ht hleft hspells hright hstates helse hus
    · refine refusesBehind_bind (h.block.behind (htaken.trans hother) fun us hus => ?_)
        fun _ _ _ => refusesBehind_done _ _
      rw [List.append_assoc, List.singleton_append]
      exact .ifElse ht hleft hspells hright hstates helse hus
  · exact refusesBehind_done _ _

theorem returnStatement_succ (n : Nat) :
    Viable (Parse.returnStatement (n + 1)) Part.statement.Begins := by
  intro c hc
  simp only [Parse.returnStatement]
  refine refusesBehind_bind (refusesBehind_expectKind (.refl hc) statement_nil _) ?_
  intro word mid hword
  obtain ⟨hkind, hworded, -⟩ := takes_of_expectKind hc (by simp) hword
  rw [bind_of_done (current_apply mid)]
  split
  · exact refusesBehind_done _ _
  · exact refusesBehind_bind ((viable_expression n).behind hworded fun us => .valueReturn hkind)
      fun _ _ _ => refusesBehind_done _ _

theorem functionDeclaration_succ (h : ViableStatements n) :
    Viable (Parse.functionDeclaration (n + 1)) Part.statement.Begins := by
  intro c hc
  simp only [Parse.functionDeclaration]
  refine refusesBehind_bind (refusesBehind_expect (.refl hc) statement_nil _ _ _) ?_
  intro word c₁ hword
  obtain ⟨hkind, hliteral, hworded⟩ := takes_of_expectKeyword hc hword
  have hfunction : word.Is .keyword "function" := ⟨hkind, hliteral⟩
  refine refusesBehind_bind (refusesBehind_expectAs hworded ?_ _ _) fun name c₂ hname => ?_
  · exact (Part.Begins.keywordDeclaration_parameters hfunction (is_tokenOf .identifier "f")
      .nil).head
  obtain ⟨hidentifier, hnamed, hlexical⟩ := takes_of_expectAs hworded.lexical (by simp) hname
  obtain ⟨x, hx, -⟩ := hlexical.text (by simp [hidentifier])
  refine refusesBehind_bind (viable_parameterList.behind (hworded.trans hnamed) fun us =>
    .keywordDeclaration_parameters hfunction ⟨hidentifier, hx⟩) fun params c₃ hparams => ?_
  obtain ⟨ps, hps, hparameters⟩ := sound_parameterList hnamed.lexical hparams
  refine refusesBehind_bind (h.block.behind ((hworded.trans hnamed).trans hps) fun us =>
    .keywordDeclaration hfunction ⟨hidentifier, hx⟩ hparameters) fun _ _ _ =>
    refusesBehind_done _ _

theorem identifierStatement_succ (h : ViableStatements n) :
    Viable (Parse.identifierStatement (n + 1)) Part.statement.Begins := by
  intro c hc
  simp only [Parse.identifierStatement]
  rw [bind_of_done (cursor_apply c)]
  refine refusesBehind_bind (refusesBehind_expectKind (.refl hc) statement_nil _) ?_
  intro name mid hname
  obtain ⟨hkind, hnamed, hlexical⟩ := takes_of_expectKind hc (by simp) hname
  obtain ⟨x, hliteral, -⟩ := hlexical.text (by simp [hkind])
  have hx : name.Is .identifier x := ⟨hkind, hliteral⟩
  rw [bind_of_done (current_apply mid)]
  cases hnext : mid.current.kind with
  | assign =>
      obtain ⟨hsigned, -⟩ := hnamed.lexical.takes_advance (by simp [hnext])
      dsimp only
      rw [bind_of_done (advance_apply mid)]
      exact refusesBehind_bind ((viable_expression n).behind (hnamed.trans hsigned) fun us =>
        .assignment hx hnext) fun _ _ _ => refusesBehind_done _ _
  | leftBracket =>
      obtain ⟨hopened, -⟩ := hnamed.lexical.takes_advance (by simp [hnext])
      dsimp only
      rw [bind_of_done (advance_apply mid)]
      -- Whether the element is assigned to is not known yet, but it may always be a value.
      have helement : ∀ us, Form.expression.Begins us →
          Part.statement.Begins (name :: mid.current :: us) := fun us hus =>
        .expression (.of_primary (by simp) (.element hx hnext hus))
      refine refusesBehind_bind ((viable_expression n).behind (hnamed.trans hopened) helement) ?_
      intro index c₂ hindex
      obtain ⟨is, his, hwhole⟩ := sound_expression n hopened.lexical hindex
      have htaken := (hnamed.trans hopened).trans his
      refine refusesBehind_bind
        (refusesBehind_expectAs htaken (helement is hwhole.spells.begins) _ _) ?_
      intro right c₃ hright
      obtain ⟨hright, hclosed, -⟩ := takes_of_expectAs his.lexical (by simp) hright
      rw [bind_of_done (isAt_apply _ c₃)]
      split
      · next hsign =>
        rw [decide_eq_true_eq] at hsign
        obtain ⟨hsigned, -⟩ := hclosed.lexical.takes_advance (by simp [hsign])
        rw [bind_of_done (advance_apply c₃)]
        refine refusesBehind_bind ((viable_expression n).behind
          ((htaken.trans hclosed).trans hsigned) fun us hus => ?_) fun _ _ _ =>
          refusesBehind_done _ _
        simpa using Part.Begins.elementAssignment hx hnext hwhole.spells hright hsign hus
      · exact refusesBehind_done _ _
  | dot =>
      obtain ⟨hdotted, -⟩ := hnamed.lexical.takes_advance (by simp [hnext])
      dsimp only
      rw [bind_of_done (advance_apply mid), bind_of_done (cursor_apply _)]
      split
      · next hmember =>
        obtain ⟨hmembered, hword⟩ :=
          hdotted.lexical.takes_advance (by rcases hmember.1 with h | h <;> simp [h])
        obtain ⟨m, hm, -⟩ := hword.text (by rcases hmember.1 with h | h <;> simp [h])
        have hmember : Member mid.advance.current m :=
          hmember.1.imp (fun h => ⟨h, hm⟩) (fun h => ⟨h, hm⟩)
        rw [bind_of_done (advance_apply _)]
        -- A call of a method goes on as an expression, whatever the first reading makes of it.
        refine refusesBehind_bind ((viable_arguments_forms n _).behind
          (hnamed.trans (hdotted.trans hmembered)) fun us hus =>
            .expression (.of_primary (by simp) (.method hx hnext hmember hus))) ?_
        intro args last _
        rw [bind_of_done (current_apply last)]
        split <;> exact refusesBehind_done _ _
      · exact refusesBehind_done _ _
  | leftParen =>
      dsimp only
      refine refusesBehind_bind (refusesBehind_parametersIfPresent _ hnext) ?_
      intro params? last hparams
      rw [bind_of_done (isAt_apply _ last)]
      cases params? with
      | none => exact refusesBehind_done _ _
      | some params =>
          obtain ⟨ps, hps, hparameters⟩ := takes_of_parametersIfPresent hnamed.lexical hparams
          cases decide (last.current.kind = .leftBrace) with
          | false => exact refusesBehind_done _ _
          | true =>
              exact refusesBehind_bind (h.block.behind (hnamed.trans hps) fun us =>
                .declaration hx hparameters) fun _ _ _ => refusesBehind_done _ _
  | _ => exact refusesBehind_done _ _

/-- A statement that goes back to its name is read from there as an expression. -/
theorem refusesBehind_expressionStatement {c : Cursor} (hc : c.IsLexical) :
    RefusesBehind Part.statement.Begins c ((do
      let value ← Parse.expression n
      return .expressionStatement value : Parse Tree) c) :=
  refusesBehind_bind ((viable_expression n).behind (.refl hc) fun _ => .expression)
    fun _ _ _ => refusesBehind_done _ _

theorem statement_succ (h : ViableStatements n) :
    Viable (Parse.statement (n + 1)) Part.statement.Begins := by
  intro c hc
  simp only [Parse.statement]
  rw [bind_of_done (current_apply c)]
  cases hkind : c.current.kind with
  | giveBack => exact h.returnStatement hc
  | keyword =>
      dsimp only
      split
      · exact h.functionDeclaration hc
      split
      · exact h.printStatement hc
      split
      · exact h.ifStatement.mono (fun _ => .conditional) hc
      split
      · exact h.whileStatement hc
      · exact refusesBehind_expressionStatement hc
  | identifier =>
      dsimp only
      refine refusesBehind_bind (h.identifierStatement hc) fun tree? mid hidentifier => ?_
      cases tree? with
      | some tree => exact refusesBehind_done _ _
      | none =>
          obtain rfl := eq_of_identifierStatement hidentifier
          exact refusesBehind_expressionStatement hc
  | _ => exact refusesBehind_expressionStatement hc

/-- With one more frame the parsers of statements still take the beginning of a statement. -/
theorem succ (h : ViableStatements n) : ViableStatements (n + 1) where
  statement := h.statement_succ
  identifierStatement := h.identifierStatement_succ
  functionDeclaration := h.functionDeclaration_succ
  returnStatement := returnStatement_succ n
  printStatement := printStatement_succ n
  ifStatement := h.ifStatement_succ
  whileStatement := h.whileStatement_succ
  block := h.block_succ

end ViableStatements

/-- The parsers of statements take tokens that begin a statement before they refuse. -/
theorem viable_statements (n : Nat) : ViableStatements n := by
  induction n with
  | zero => constructor <;> simp [viable_tooDeep]
  | succ n ih => exact ih.succ

/-- The parser of a program takes tokens that begin a sequence of statements before it refuses. -/
theorem viable_program (n : Nat) : Viable (program n) Part.sequence.Begins := fun c hc =>
  viable_programStatements (viable_statements n).statement c.tokens hc

end Statements

end Sprig.Grammar
