import Mathlib.Data.List.Basic
import Sprig.Parse.Program
import Sprig.Proofs.Parse.Unbounded

/-!
# One parser, called again and again

A parser keeps a cursor, and each of its methods starts where the one before has left it, whether
that one was done or refused. Whatever tokens the parser was made for and in whatever order its
methods are called, the cursor never gets behind the first closing token, and nothing behind that
token plays a part. Each call comes to an end: with frames enough for the tokens ahead none gives
up, and no loop stops for want of rounds.

## Implementation notes

To look further ahead than the current token is the only call that can show a token behind the first
closing one. The parsers of the grammar look past the current token in one place, and the current
token is no closing one there.
-/

namespace Sprig

/-- The first step ends as the second one does, only with more tokens behind. -/
inductive Step.Extends {α : Type} (later : List Token) : Step α → Step α → Prop
  | done {a rest other} (h : rest.tokens = other.tokens ++ later) :
      Extends later (.done a rest) (.done a other)
  | refused {why rest other} (h : rest.tokens = other.tokens ++ later) :
      Extends later (.refused why rest) (.refused why other)

theorem Step.Extends.tokens_rest {α : Type} {later : List Token} {s t : Step α}
    (h : s.Extends later t) : s.rest.tokens = t.rest.tokens ++ later := by
  cases h with
  | done h => exact h
  | refused h => exact h

theorem Step.Extends.toExcept_eq {α : Type} {later : List Token} {s t : Step α}
    (h : s.Extends later t) : s.toExcept = t.toExcept := by
  cases h with
  | done h => rfl
  | refused h => simp [Step.toExcept, (List.cons.inj h).1]

namespace Parse

/-- The parsers of single trees. -/
inductive Rule
  | statement
  | functionDeclaration
  | returnStatement
  | printStatement
  | ifStatement
  | whileStatement
  | expression
  | comparison
  | additive
  | multiplicative
  | unary
  | exponent
  | primary
  | arrayLiteral
  | identifierExpression

/-- The parser of a rule. -/
def Rule.parser (frames : Nat) : Rule → Parse Tree
  | statement => Parse.statement frames
  | functionDeclaration => Parse.functionDeclaration frames
  | returnStatement => Parse.returnStatement frames
  | printStatement => Parse.printStatement frames
  | ifStatement => Parse.ifStatement frames
  | whileStatement => Parse.whileStatement frames
  | expression => Parse.expression frames
  | comparison => Parse.comparison frames
  | additive => Parse.additive frames
  | multiplicative => Parse.multiplicative frames
  | unary => Parse.unary frames
  | exponent => Parse.exponent frames
  | primary => Parse.primary frames
  | arrayLiteral => Parse.arrayLiteral frames
  | identifierExpression => Parse.identifierExpression frames

/-- The methods of a parser, with their arguments. -/
inductive Call
  | peek (offset : Nat)
  | advance
  | fits (kind : Token.Kind) (literal? : Option Token.Literal)
  | expect (kind : Token.Kind) (literal? : Option Token.Literal) (what : Expectation)
  | comparesValues
  | refuse (words : String)
  | parametersIfPresent
  | parameterList
  | identifierStatement
  | arguments (words : String)
  | block
  | program
  | tree (rule : Rule)

/-- What a method of a parser gives back. -/
inductive Answer
  | token (t : Token)
  | flag (b : Bool)
  | tree (tree : Tree)
  | tree? (tree? : Option Tree)
  | trees (trees : List Tree)
  | trees? (trees? : Option (List Tree))

/-- A method of a parser, run from its cursor. -/
def Call.parser (frames : Nat) : Call → Parse Answer
  | peek offset => do return .token ((← cursor).peek offset)
  | advance => do return .token (← Parse.advance)
  | fits kind literal? => do return .flag (Parse.fits kind literal? (← current))
  | expect kind literal? what => do return .token (← Parse.expect kind literal? what)
  | comparesValues => do return .flag (Parse.comparesValues (← current))
  | refuse words => Parse.refuse (.phrase words)
  | parametersIfPresent => do return .trees? (← Parse.parametersIfPresent)
  | parameterList => do return .trees (← Parse.parameterList)
  | identifierStatement => do return .tree? (← Parse.identifierStatement frames)
  | arguments words => do return .trees (← Parse.arguments frames words)
  | block => do return .trees (← Parse.block frames)
  | program => do return .trees (← Parse.program frames)
  | tree rule => do return .tree (← rule.parser frames)

/-- Where calls one after the other leave the cursor, each with frames of its own. -/
def after (calls : List (Nat × Call)) (c : Cursor) : Cursor :=
  calls.foldl (fun c call => (call.2.parser call.1 c).rest) c

variable {α β : Type} {n m : Nat} {c d : Cursor}

section Keeping

variable {K : Cursor → Prop}

theorem keeps_answer {parser : Parse α} {Q : α → Prop} (h : Keeps K Q parser) (f : α → Answer) :
    Keeps K (fun _ => True) (do return f (← parser)) :=
  keeps_bind h fun _ _ => keeps_pure trivial

theorem keeps_rule (hK : ∀ c, K c → K c.advance) (n : Nat) (rule : Rule) :
    Keeps K (fun _ => True) (rule.parser n) := by
  have hI := Invariant.of_advance hK
  cases rule with
  | statement => exact (hI.statements n).statement
  | functionDeclaration => exact (hI.statements n).functionDeclaration
  | returnStatement => exact (hI.statements n).returnStatement
  | printStatement => exact (hI.statements n).printStatement
  | ifStatement => exact (hI.statements n).ifStatement
  | whileStatement => exact (hI.statements n).whileStatement
  | expression => exact (hI.expressions n).expression
  | comparison => exact (hI.expressions n).comparison
  | additive => exact (hI.expressions n).additive
  | multiplicative => exact (hI.expressions n).multiplicative
  | unary => exact (hI.expressions n).unary
  | exponent => exact (hI.expressions n).exponent
  | primary => exact (hI.expressions n).primary
  | arrayLiteral => exact (hI.expressions n).arrayLiteral
  | identifierExpression => exact (hI.expressions n).identifierExpression

/-- A property of cursors that a step ahead keeps is kept by every call. -/
theorem keeps_call (hK : ∀ c, K c → K c.advance) (n : Nat) (call : Call) :
    Keeps K (fun _ => True) (call.parser n) := by
  have hI := Invariant.of_advance hK
  have hcurrent : Keeps K (fun _ => True) current := fun _ hc => ⟨trivial, hc⟩
  cases call with
  | peek offset => exact keeps_bind keeps_cursor fun _ _ => keeps_pure trivial
  | advance => exact keeps_answer hI.keeps_advance _
  | fits kind literal? => exact keeps_bind hcurrent fun _ _ => keeps_pure trivial
  | expect kind literal? what => exact keeps_answer (hI.keeps_expect kind literal? trivial) _
  | comparesValues => exact keeps_bind hcurrent fun _ _ => keeps_pure trivial
  | refuse words => exact keeps_refuse trivial
  | parametersIfPresent => exact keeps_answer hI.keeps_parametersIfPresent _
  | parameterList => exact keeps_answer hI.keeps_parameterList _
  | identifierStatement => exact keeps_answer (hI.statements n).identifierStatement _
  | arguments words => exact keeps_answer ((hI.expressions n).arguments words trivial) _
  | block => exact keeps_answer (hI.statements n).block _
  | program => exact keeps_answer (hI.program n) _
  | tree rule => exact keeps_answer (keeps_rule hK n rule) _

/-- Calls one after the other keep what a step ahead keeps. -/
theorem keeps_after (hK : ∀ c, K c → K c.advance) (calls : List (Nat × Call)) (hc : K c) :
    K (after calls c) := by
  induction calls generalizing c with
  | nil => exact hc
  | cons call calls ih => exact ih (keeps_call hK call.1 call.2 c hc).rest

end Keeping

section Places

variable {start : Cursor}

/-- Whether a cursor stands on one of the tokens of another, with no closing token in front of
it. -/
def StandsIn (start c : Cursor) : Prop :=
  ∃ passed, start.tokens = passed ++ c.tokens ∧ ∀ t ∈ passed, t.kind ≠ .finish

theorem StandsIn.closed (h : StandsIn start c) (hstart : start.IsClosed) : c.IsClosed := by
  obtain ⟨passed, htokens, hpassed⟩ := h
  obtain ⟨t, ht, hfinish⟩ := hstart
  rw [htokens] at ht
  rcases List.mem_append.mp ht with ht | ht
  · exact absurd hfinish (hpassed t ht)
  · exact ⟨t, ht, hfinish⟩

/-- A step ahead does not leave a closing token. -/
theorem StandsIn.advance (h : StandsIn start c) (hstart : start.IsClosed) :
    StandsIn start c.advance := by
  by_cases hkind : c.current.kind = .finish
  · rwa [Cursor.advance, if_pos hkind]
  · have hclosed := h.closed hstart
    obtain ⟨passed, htokens, hpassed⟩ := h
    refine ⟨passed ++ [c.current], ?_, ?_⟩
    · rw [htokens, hclosed.tokens_eq hkind, List.append_assoc, List.singleton_append]
    · intro t ht
      rcases List.mem_append.mp ht with ht | ht
      · exact hpassed t ht
      · rwa [List.mem_singleton.mp ht]

theorem standsIn_after (hstart : start.IsClosed) (calls : List (Nat × Call)) :
    StandsIn start (after calls start) :=
  keeps_after (fun _ h => h.advance hstart) calls ⟨[], rfl, by simp⟩

/-- The cursor is at the first closing token at the most. -/
theorem StandsIn.exists_drop (h : StandsIn start c) :
    ∃ i ≤ start.tokens.findIdx (·.kind = .finish), c.tokens = start.tokens.drop i := by
  obtain ⟨passed, htokens, hpassed⟩ := h
  refine ⟨passed.length, ?_, by rw [htokens, List.drop_left]⟩
  have hnone : passed.findIdx (·.kind = .finish) = passed.length :=
    List.findIdx_eq_length.mpr (by simpa using hpassed)
  rw [htokens, List.findIdx_append, hnone, if_neg (Nat.lt_irrefl _)]
  exact Nat.le_add_left _ _

end Places

section Room

variable {left : Nat}

theorem ends_answer {parser : Parse α} {P : α → Cursor → Prop} {roomy : Prop}
    (h : (parser c).Ends P roomy) (f : α → Answer) :
    ((do return f (← parser) : Parse Answer) c).Ends (fun _ _ => True) roomy :=
  ends_bind h fun _ _ _ => trivial

theorem leaves_rule (hc : c.HasAtMost left) (n : Nat) (rule : Rule) :
    (rule.parser n c).Leaves (left - 1) (8 * left + 1 ≤ n) := by
  have hE := leaves_expressions n
  have hS := leaves_statements n
  cases rule with
  | statement => exact hS.statement hc
  | functionDeclaration => exact (hS.functionDeclaration hc).mono (Nat.le_refl _) (by omega)
  | returnStatement => exact (hS.returnStatement hc).mono (Nat.le_refl _) (by omega)
  | printStatement => exact (hS.printStatement hc).mono (Nat.le_refl _) (by omega)
  | ifStatement => exact (hS.ifStatement hc).mono (Nat.le_refl _) (by omega)
  | whileStatement => exact (hS.whileStatement hc).mono (Nat.le_refl _) (by omega)
  | expression => exact (hE.expression hc).mono (Nat.le_refl _) (by omega)
  | comparison => exact (hE.comparison hc).mono (Nat.le_refl _) (by omega)
  | additive => exact (hE.additive hc).mono (Nat.le_refl _) (by omega)
  | multiplicative => exact (hE.multiplicative hc).mono (Nat.le_refl _) (by omega)
  | unary => exact (hE.unary hc).mono (Nat.le_refl _) (by omega)
  | exponent => exact (hE.exponent hc).mono (Nat.le_refl _) (by omega)
  | primary => exact (hE.primary hc).mono (Nat.le_refl _) (by omega)
  | arrayLiteral => exact (hE.arrayLiteral hc).mono (Nat.le_refl _) (by omega)
  | identifierExpression => exact (hE.identifierExpression hc).mono (Nat.le_refl _) (by omega)

/-- With frames enough for the tokens ahead no call gives up. -/
theorem ends_call (hc : c.IsClosed) (call : Call) :
    (call.parser n c).Ends (fun _ _ => True) (8 * c.tokens.length + 1 ≤ n) := by
  have hc := hc.hasAtMost
  have hroom : 8 * c.tokens.length + 1 ≤ n → 8 * c.tokens.length ≤ n := by omega
  cases call with
  | peek | advance | fits | comparesValues => exact trivial
  | refuse words => exact fun _ => nofun
  | expect kind literal? what =>
      refine ends_answer (P := fun _ _ => True) ?_ _
      unfold expect
      split
      · exact trivial
      · exact fun _ => nofun
  | parametersIfPresent => exact ends_answer (leaves_parametersIfPresent hc) _
  | parameterList => exact ends_answer (leaves_parameterList hc) _
  | identifierStatement =>
      have hends := (leaves_statements n).identifierStatement hc
      exact ends_answer (hends.mono (fun _ _ => id) hroom) _
  | arguments words =>
      have hleaves := (leaves_expressions n).arguments words hc
      exact ends_answer (hleaves.mono (Nat.le_refl _) (by omega)) _
  | block => exact ends_answer (((leaves_statements n).block hc).mono (Nat.le_refl _) hroom) _
  | program => exact ends_answer (leaves_program n hc) _
  | tree rule => exact ends_answer (leaves_rule hc n rule) _

end Room

section Alike

variable {T : Correspondence}

theorem follows_answer {parser other : Parse α} (h : Follows T Eq (parser c) (other d))
    (f : α → Answer) :
    Follows T Eq ((do return f (← parser) : Parse Answer) c)
      ((do return f (← other) : Parse Answer) d) :=
  h.bind (fun _ => forward_pure _) fun _ _ hvalue hrest => .done (congrArg f hvalue) hrest

theorem tracks_rule (hframes : n = m ∨ T.loose) (rule : Rule) :
    Tracks T Eq (rule.parser n) (rule.parser m) := by
  have hE := tracks_expressions hframes
  have hS := tracks_statements hframes
  cases rule with
  | statement => exact hS.statement
  | functionDeclaration => exact hS.functionDeclaration
  | returnStatement => exact hS.returnStatement
  | printStatement => exact hS.printStatement
  | ifStatement => exact hS.ifStatement
  | whileStatement => exact hS.whileStatement
  | expression => exact hE.expression
  | comparison => exact hE.comparison
  | additive => exact hE.additive
  | multiplicative => exact hE.multiplicative
  | unary => exact hE.unary
  | exponent => exact hE.exponent
  | primary => exact hE.primary
  | arrayLiteral => exact hE.arrayLiteral
  | identifierExpression => exact hE.identifierExpression

/-- A call goes the same way on cursors that stay on the same tokens. -/
theorem follows_call (hframes : n = m ∨ T.loose) (hwhole : ∀ c, ¬ T.beyond c)
    (hsame : ∀ {c d}, T.near c d → c.current = d.current) (hnear : T.near c d) (call : Call)
    (hpeek : ∀ offset, call = .peek offset → c.peek offset = d.peek offset) :
    Follows T Eq (call.parser n c) (call.parser m d) := by
  have hnext : T.near c.advance d.advance := (T.near_advance hnear).resolve_left (hwhole _)
  cases call with
  | peek offset => exact .done (congrArg Answer.token (hpeek offset rfl)) hnear
  | advance => exact .done (congrArg Answer.token (hsame hnear)) hnext
  | fits kind literal? =>
      exact .done (congrArg (fun t => Answer.flag (fits kind literal? t)) (hsame hnear)) hnear
  | expect kind literal? what =>
      refine follows_answer ?_ _
      rw [expect, expect, ← hsame hnear]
      split
      · exact .done rfl hnext
      · exact .refused hnear
  | comparesValues =>
      exact .done (congrArg (fun t => Answer.flag (comparesValues t)) (hsame hnear)) hnear
  | refuse words => exact .refused hnear
  | parametersIfPresent => exact follows_answer (tracks_parametersIfPresent.follows hnear) _
  | parameterList => exact follows_answer (tracks_parameterList.follows hnear) _
  | identifierStatement => exact follows_answer (follows_identifierStatement hframes hwhole hnear) _
  | arguments words =>
      exact follows_answer (((tracks_expressions hframes).arguments words).follows hnear) _
  | block => exact follows_answer ((tracks_statements hframes).block.follows hnear) _
  | program =>
      exact follows_answer
        (follows_programStatements hframes hnear (Nat.le_refl _) (Nat.le_refl _)) _
  | tree rule => exact follows_answer ((tracks_rule hframes rule).follows hnear) _

end Alike

section Settled

/-- Frames only settle whether a call gives up. -/
theorem settles_call (call : Call) : Settles call.parser where
  tracks n m := by
    refine ⟨fun hnear => ?_, fun _ hK => keeps_call hK n call⟩
    exact follows_call (.inr trivial) (fun _ h => h) (fun h => by rw [h.1]) hnear call
      fun _ _ => by rw [hnear.1]
  ends _ _ hc := ends_call hc call

/-- A call comes to its end, and it is the same end with all frames that are enough for the tokens
ahead. -/
theorem exists_end_of_call (hc : c.IsClosed) (call : Call) :
    ∃ s : Step Answer, ¬ s.GivesUp ∧
      ∀ frames, 8 * c.tokens.length + 1 ≤ frames → call.parser frames c = s :=
  ⟨_, (settles_call call).unbounded_not_givesUp hc,
    fun _ hframes => (settles_call call).eq_unbounded hc hframes⟩

/-- No loop stops for want of rounds: with more of them than there are tokens ahead it ends as it
does with just as many. -/
structure RoundsSuffice (n : Nat) (c : Cursor) : Prop where
  comparison : ∀ {budget : List Token} (left), c.tokens.length ≤ budget.length →
    joinFrom (additive n) comparesValues .comparison budget left c =
      joinFrom (additive n) comparesValues .comparison c.tokens left c
  additive : ∀ {budget : List Token} (left), c.tokens.length ≤ budget.length →
    joinFrom (multiplicative n) addsValues .binary budget left c =
      joinFrom (multiplicative n) addsValues .binary c.tokens left c
  multiplicative : ∀ {budget : List Token} (left), c.tokens.length ≤ budget.length →
    joinFrom (unary n) multipliesValues .binary budget left c =
      joinFrom (unary n) multipliesValues .binary c.tokens left c
  items : ∀ {budget : List Token}, c.tokens.length ≤ budget.length →
    moreItems (expression n) budget c = moreItems (expression n) c.tokens c
  names : ∀ {budget : List Token}, c.tokens.length ≤ budget.length →
    names budget c = names c.tokens c
  namesIfPresent : ∀ {budget : List Token}, c.tokens.length ≤ budget.length →
    namesIfPresent budget c = namesIfPresent c.tokens c
  block : ∀ {budget : List Token}, c.tokens.length ≤ budget.length →
    blockStatements (statement n) budget c = blockStatements (statement n) c.tokens c
  program : ∀ {budget : List Token}, c.tokens.length ≤ budget.length →
    programStatements (statement n) budget c = programStatements (statement n) c.tokens c

theorem eq_of_tracksWithin {loop : List Token → Parse α}
    (h : TracksWithin (sameCursor False) Eq loop loop) (hc : c.IsClosed) {budget : List Token}
    (hbudget : c.tokens.length ≤ budget.length) : loop budget c = loop c.tokens c :=
  eq_of_follows (h.follows ⟨rfl, hc⟩ hbudget (Nat.le_refl _)) False.elim False.elim

theorem roundsSuffice (hc : c.IsClosed) (n : Nat) : RoundsSuffice n c := by
  have hE := tracks_expressions_refl (T := sameCursor False) n
  have hS := (tracks_statements_refl (T := sameCursor False) n).statement
  exact {
    comparison := fun left =>
      eq_of_tracksWithin
        (tracksWithin_joinFrom hE.additive comparesValues_eq kind_ne_of_compares left) hc
    additive := fun left =>
      eq_of_tracksWithin
        (tracksWithin_joinFrom hE.multiplicative addsValues_eq kind_ne_of_adds left) hc
    multiplicative := fun left =>
      eq_of_tracksWithin
        (tracksWithin_joinFrom hE.unary multipliesValues_eq kind_ne_of_multiplies left) hc
    items := eq_of_tracksWithin (tracksWithin_moreItems hE.expression) hc
    names := eq_of_tracksWithin tracksWithin_names hc
    namesIfPresent := eq_of_tracksWithin tracksWithin_namesIfPresent hc
    block := eq_of_tracksWithin (tracksWithin_blockStatements hS (shortens_statement n)) hc
    program := eq_of_tracksWithin (tracksWithin_programStatements hS (shortens_statement n)) hc }

end Settled

section Cut

/-- Cursors on the same tokens up to a closing one, with more tokens behind it for the first. -/
def cutAt (later : List Token) : Correspondence where
  near c d := d.IsClosed ∧ c.tokens = d.tokens ++ later
  beyond _ := False
  loose := False
  kind_eq h := congrArg Token.kind (List.cons.inj h.2).1
  literal_eq h := congrArg Token.literal (List.cons.inj h.2).1
  closed := by
    rintro c d ⟨⟨t, ht, hfinish⟩, htokens⟩
    exact ⟨t, htokens ▸ List.mem_append_left later ht, hfinish⟩
  lexical h := h.elim
  near_advance := by
    rintro c d ⟨hd, htokens⟩
    have hcurrent : c.current = d.current := (List.cons.inj htokens).1
    refine .inr ⟨hd.advance, ?_⟩
    by_cases hkind : d.current.kind = .finish
    · rwa [Cursor.advance, if_pos (hcurrent ▸ hkind), Cursor.advance, if_pos hkind]
    · obtain ⟨t, ht, hfinish⟩ := hd
      have hc : c.IsClosed := ⟨t, htokens ▸ List.mem_append_left later ht, hfinish⟩
      rw [hc.tokens_eq (hcurrent ▸ hkind), Cursor.IsClosed.tokens_eq ⟨t, ht, hfinish⟩ hkind,
        List.cons_append] at htokens
      exact (List.cons.inj htokens).2
  beyond_advance h := h
  loose_of_beyond h := h
  gap := ⟨0, later.length, fun h => by rw [h.2, List.length_append]; rfl⟩

variable {later : List Token}

theorem extends_of_follows {s t : Step α} (h : Follows (cutAt later) Eq s t) :
    s.Extends later t := by
  cases h with
  | tooDeep h => exact h.elim
  | otherTooDeep h => exact h.elim
  | beyond h => exact h.elim
  | done hvalue hrest => exact hvalue ▸ .done hrest.2
  | refused hrest => exact .refused hrest.2

theorem extends_call (hnear : (cutAt later).near c d) (n : Nat) {call : Call}
    (hcall : ∀ offset, call ≠ .peek offset) : (call.parser n c).Extends later (call.parser n d) :=
  extends_of_follows (follows_call (T := cutAt later) (.inl rfl) (fun _ h => h)
    (fun h => (List.cons.inj h.2).1) hnear call fun offset h => absurd h (hcall offset))

/-- What stands behind the closing token does not change where the calls lead. -/
theorem near_after (calls : List (Nat × Call)) (hnear : (cutAt later).near c d) :
    (cutAt later).near (after calls c) (after calls d) := by
  induction calls generalizing c d with
  | nil => exact hnear
  | cons call calls ih =>
      obtain ⟨n, call⟩ := call
      refine ih ⟨(keeps_call (fun _ h => h.advance) n call d hnear.1).rest, ?_⟩
      -- To look ahead may give another token, but it does not move the cursor.
      by_cases hcall : ∃ offset, call = .peek offset
      · obtain ⟨offset, rfl⟩ := hcall
        exact hnear.2
      · exact (extends_call hnear n fun offset h => hcall ⟨offset, h⟩).tokens_rest

theorem near_ofTokens (xs : List Token) {e : Token} (he : e.kind = .finish) (ys : List Token) :
    ∃ later, (cutAt later).near (Cursor.ofTokens (xs ++ e :: ys))
      (Cursor.ofTokens (xs ++ [e])) := by
  obtain ⟨others, hothers⟩ := Cursor.ofTokens_append_cons xs e ys
  refine ⟨others, Cursor.isClosed_ofTokens _, ?_⟩
  rw [hothers, Cursor.ofTokens_concat he, Cursor.tokens_prepend, Cursor.tokens_prepend,
    List.append_assoc]
  rfl

end Cut

/-- What can be relied on at a cursor where calls one after the other have left a parser that was
made for some tokens. -/
structure Orderly (tokens : List Token) (calls : List (Nat × Call)) (c : Cursor) : Prop where
  /-- The cursor is at the first closing token at the most. -/
  place : ∃ i ≤ (Cursor.ofTokens tokens).tokens.findIdx (·.kind = .finish),
    c.tokens = (Cursor.ofTokens tokens).tokens.drop i
  /-- The next call comes to its end. -/
  ends : ∀ call : Call, ∃ s : Step Answer, ¬ s.GivesUp ∧
    ∀ frames, 8 * c.tokens.length + 1 ≤ frames → call.parser frames c = s
  /-- The loops it runs come to their ends. -/
  rounds : ∀ d, StandsIn (Cursor.ofTokens tokens) d → ∀ frames, RoundsSuffice frames d
  /-- A statement or an expression that is done has taken a token. -/
  ahead : ∀ frames rule tree rest, rule = .statement ∨ rule = .expression →
    Rule.parser frames rule c = .done tree rest → ∃ taken > 0, rest.tokens = c.tokens.drop taken
  /-- What is refused is told together with the token where the cursor is left. -/
  told : ∀ frames (call : Call) fault, (call.parser frames c).toExcept = .error fault →
    fault.why ≠ .nestedTooDeeply →
      ∃ what, ∃ i ≤ (Cursor.ofTokens tokens).tokens.findIdx (·.kind = .finish),
        (call.parser frames c).rest.tokens = (Cursor.ofTokens tokens).tokens.drop i ∧
        (Cursor.ofTokens tokens).tokens[i]? = some fault.found ∧
        fault.message = "ParseError: expected " ++ what ++ " at " ++ fault.found.position.text ++
          ", got " ++ fault.found.shown
  /-- What stands behind a closing token makes no difference to the call, unless it looks ahead. -/
  cut : ∀ xs e ys, tokens = xs ++ e :: ys → e.kind = .finish → ∃ later,
    c.tokens = (after calls (Cursor.ofTokens (xs ++ [e]))).tokens ++ later ∧
      ∀ frames (call : Call), (∀ offset, call ≠ .peek offset) →
        (call.parser frames c).Extends later
          (call.parser frames (after calls (Cursor.ofTokens (xs ++ [e]))))
  /-- Nor does it make one to the program that the tokens spell. -/
  spells : ∀ xs e ys, tokens = xs ++ e :: ys → e.kind = .finish →
    ofTokens tokens = ofTokens (xs ++ [e])

theorem StandsIn.rest {start : Cursor} (h : StandsIn start c) (hstart : start.IsClosed) (n : Nat)
    (call : Call) : StandsIn start (call.parser n c).rest :=
  (keeps_call (fun _ h => h.advance hstart) n call c h).rest

/-- A statement or an expression that is done has taken a token. -/
theorem exists_taken (hc : c.IsClosed) {rule : Rule}
    (hrule : rule = .statement ∨ rule = .expression) {tree : Tree} {rest : Cursor}
    (h : rule.parser n c = .done tree rest) :
    ∃ taken > 0, rest.tokens = c.tokens.drop taken := by
  have hforward : Forward (rule.parser n) := fun _ hK => keeps_rule hK n rule
  have hstands : StandsIn c rest :=
    hforward.of_done (K := StandsIn c) (fun _ h => h.advance hc) ⟨[], rfl, by simp⟩ h
  have hshortens : rest.tokens.length < c.tokens.length := by
    rcases hrule with rfl | rfl
    · exact shortens_statement n hc h
    · exact shortens_expression n hc h
  obtain ⟨taken, -, htokens⟩ := hstands.exists_drop
  refine ⟨taken, Nat.pos_of_ne_zero fun hzero => ?_, htokens⟩
  rw [htokens, hzero, List.drop_zero] at hshortens
  exact Nat.lt_irrefl _ hshortens

theorem ofTokens_behind_finish (xs : List Token) {e : Token} (he : e.kind = .finish)
    (ys : List Token) : ofTokens (xs ++ e :: ys) = ofTokens (xs ++ [e]) := by
  obtain ⟨later, hnear⟩ := near_ofTokens xs he ys
  have hprogram : Follows (cutAt later) Eq
      (program nestingLimit (Cursor.ofTokens (xs ++ e :: ys)))
      (program nestingLimit (Cursor.ofTokens (xs ++ [e]))) :=
    follows_programStatements (.inl rfl) hnear (Nat.le_refl _) (Nat.le_refl _)
  exact (extends_of_follows hprogram).toExcept_eq

/-- A refusal is told with the token it happened at. -/
theorem told_of_toExcept {s : Step α} {fault : SyntaxFault} (h : s.toExcept = .error fault)
    (hwhy : fault.why ≠ .nestedTooDeeply) : fault.found = s.rest.current ∧ ∃ what,
      fault.message = "ParseError: expected " ++ what ++ " at " ++ fault.found.position.text ++
        ", got " ++ fault.found.shown := by
  cases s with
  | done a rest => cases h
  | refused why rest =>
      obtain rfl := Except.error.inj h
      cases why with
      | nestedTooDeeply => exact absurd rfl hwhy
      | expected what => exact ⟨rfl, what.text, rfl⟩

/-- Calls one after the other, whatever they are and whatever the tokens are, leave a cursor where
the next call is in order. -/
theorem orderly_after (tokens : List Token) (calls : List (Nat × Call)) :
    Orderly tokens calls (after calls (Cursor.ofTokens tokens)) := by
  have hstart := Cursor.isClosed_ofTokens tokens
  have hstands := standsIn_after hstart calls
  have hc := hstands.closed hstart
  refine ⟨hstands.exists_drop, exists_end_of_call hc, ?_, ?_, ?_, ?_, ?_⟩
  · exact fun d hd frames => roundsSuffice (hd.closed hstart) frames
  · exact fun frames rule tree rest hrule h => exists_taken hc hrule h
  · intro frames call fault h hwhy
    obtain ⟨hfound, what, hmessage⟩ := told_of_toExcept h hwhy
    obtain ⟨i, hi, htokens⟩ := (hstands.rest hstart frames call).exists_drop
    refine ⟨what, i, hi, htokens, ?_, hmessage⟩
    have hget : ((Cursor.ofTokens tokens).tokens.drop i)[0]? = some fault.found := by
      rw [← htokens, hfound]
      rfl
    simpa using hget
  · rintro xs e ys rfl he
    obtain ⟨later, hnear⟩ := near_ofTokens xs he ys
    have hafter := near_after calls hnear
    exact ⟨later, hafter.2, fun frames call hcall => extends_call hafter frames hcall⟩
  · rintro xs e ys rfl he
    exact ofTokens_behind_finish xs he ys

end Parse

end Sprig
