import Sprig.Parse.Grammar
import Sprig.Proofs.Parse.Cursor

/-!
# Steps of a parser

What the small parsers do, in both directions: from the tokens in front of the cursor to the step,
and from a step that is done to the tokens it took.
-/

namespace Sprig.Parse

variable {α β : Type}

/-- Without frames every parser of the grammar gives up. -/
@[simp] theorem expression_zero : expression 0 = tooDeep := by simp only [expression]

@[simp] theorem comparison_zero : comparison 0 = tooDeep := by simp only [comparison]

@[simp] theorem additive_zero : additive 0 = tooDeep := by simp only [additive]

@[simp] theorem multiplicative_zero : multiplicative 0 = tooDeep := by simp only [multiplicative]

@[simp] theorem unary_zero : unary 0 = tooDeep := by simp only [unary]

@[simp] theorem exponent_zero : exponent 0 = tooDeep := by simp only [exponent]

@[simp] theorem primary_zero : primary 0 = tooDeep := by simp only [primary]

@[simp] theorem arrayLiteral_zero : arrayLiteral 0 = tooDeep := by simp only [arrayLiteral]

@[simp] theorem identifierExpression_zero : identifierExpression 0 = tooDeep := by
  simp only [identifierExpression]

@[simp] theorem arguments_zero (words : String) : arguments 0 words = tooDeep := by
  simp only [arguments]

@[simp] theorem statement_zero : statement 0 = tooDeep := by simp only [statement]

@[simp] theorem identifierStatement_zero : identifierStatement 0 = tooDeep := by
  simp only [identifierStatement]

@[simp] theorem functionDeclaration_zero : functionDeclaration 0 = tooDeep := by
  simp only [functionDeclaration]

@[simp] theorem returnStatement_zero : returnStatement 0 = tooDeep := by
  simp only [returnStatement]

@[simp] theorem printStatement_zero : printStatement 0 = tooDeep := by simp only [printStatement]

@[simp] theorem ifStatement_zero : ifStatement 0 = tooDeep := by simp only [ifStatement]

@[simp] theorem whileStatement_zero : whileStatement 0 = tooDeep := by simp only [whileStatement]

@[simp] theorem block_zero : block 0 = tooDeep := by simp only [block]

@[simp] theorem cursor_apply (c : Cursor) : cursor c = .done c c := rfl

@[simp] theorem current_apply (c : Cursor) : current c = .done c.current c := rfl

@[simp] theorem advance_apply (c : Cursor) : advance c = .done c.current c.advance := rfl

@[simp] theorem moveTo_apply (target c : Cursor) : moveTo target c = .done () target := rfl

@[simp] theorem isAt_apply (kind : Token.Kind) (c : Cursor) :
    isAt kind c = .done (decide (c.current.kind = kind)) c := rfl

@[simp] theorem isAtWord_apply (kind : Token.Kind) (word : String) (c : Cursor) :
    isAtWord kind word c = .done (fits kind (some (.text word)) c.current) c := rfl

theorem fits_none (kind : Token.Kind) (t : Token) : fits kind none t = decide (t.kind = kind) := by
  simp [fits]

theorem fits_word (kind : Token.Kind) (word : String) (t : Token) :
    fits kind (some (.text word)) t = decide (t.kind = kind ∧ t.literal = .text word) := by
  simp [fits]

/-- A parser that is done hands its value and cursor to the next one. -/
theorem bind_of_done {first : Parse α} {next : α → Parse β} {c rest : Cursor} {a : α}
    (h : first c = .done a rest) : (first >>= next) c = next a rest := by
  simp [bind_apply, h]

/-- Parsers that end alike go on alike. -/
theorem bind_apply_congr {first other : Parse α} {c d : Cursor} (h : first c = other d)
    (next : α → Parse β) : (first >>= next) c = (other >>= next) d := by
  rw [bind_apply, bind_apply, h]

instance : LawfulMonad Parse := by
  refine LawfulMonad.mk' Parse ?_ ?_ ?_
  · intro α parser
    funext c
    change (parser >>= fun a => pure a) c = parser c
    rw [bind_apply]
    cases parser c <;> rfl
  · intro α β a next
    rfl
  · intro α β γ first next last
    funext c
    simp only [bind_apply]
    cases first c <;> rfl

/-- Two parsers are done when the first is and the second is from there. -/
theorem bind_eq_done {first : Parse α} {next : α → Parse β} {c rest : Cursor} {b : β} :
    (first >>= next) c = .done b rest ↔
      ∃ a mid, first c = .done a mid ∧ next a mid = .done b rest := by
  rw [bind_apply]
  constructor
  · intro h
    cases hfirst : first c with
    | done a mid => exact ⟨a, mid, rfl, by simpa only [hfirst] using h⟩
    | refused why mid =>
        rw [hfirst] at h
        cases h
  · rintro ⟨a, mid, hfirst, hnext⟩
    simpa only [hfirst] using hnext

section Kinds

variable {kind : Token.Kind} {c : Cursor}

/-- A token of the kind is taken. -/
theorem expectKind_of_kind (h : c.current.kind = kind) :
    expectKind kind c = .done c.current c.advance := by
  simp [expectKind, expect, fits_none, h]

theorem expectAs_of_kind (h : c.current.kind = kind) (words : String) :
    expectAs kind words c = .done c.current c.advance := by
  simp [expectAs, expect, fits_none, h]

/-- A token of another kind is refused. -/
theorem expectKind_of_ne (h : c.current.kind ≠ kind) :
    expectKind kind c = .refused (.expected (.kind kind)) c := by
  simp [expectKind, expect, fits_none, h]

theorem expectAs_of_ne (h : c.current.kind ≠ kind) (words : String) :
    expectAs kind words c = .refused (.expected (.phrase words)) c := by
  simp [expectAs, expect, fits_none, h]

end Kinds

/-- A token that fits is taken. -/
theorem expect_prepend_cons {kind : Token.Kind} {literal? : Option Token.Literal}
    {what : Expectation} {t : Token} (hfits : fits kind literal? t = true) (ht : t.kind ≠ .finish)
    (rest : Cursor) (ts : List Token) :
    expect kind literal? what (rest.prepend (t :: ts)) = .done t (rest.prepend ts) := by
  simp [expect, hfits, Cursor.advance_prepend_cons rest ts ht]

theorem expectKind_prepend_cons {kind : Token.Kind} {t : Token} (ht : t.kind = kind)
    (hkind : kind ≠ .finish) (rest : Cursor) (ts : List Token) :
    expectKind kind (rest.prepend (t :: ts)) = .done t (rest.prepend ts) :=
  expect_prepend_cons (by simp [fits_none, ht]) (ht ▸ hkind) rest ts

theorem expectAs_prepend_cons {kind : Token.Kind} {t : Token} (ht : t.kind = kind)
    (hkind : kind ≠ .finish) (words : String) (rest : Cursor) (ts : List Token) :
    expectAs kind words (rest.prepend (t :: ts)) = .done t (rest.prepend ts) :=
  expect_prepend_cons (by simp [fits_none, ht]) (ht ▸ hkind) rest ts

theorem expectKeyword_prepend_cons {word : String} {t : Token} (hkind : t.kind = .keyword)
    (hliteral : t.literal = .text word) (rest : Cursor) (ts : List Token) :
    expectKeyword word (rest.prepend (t :: ts)) = .done t (rest.prepend ts) :=
  expect_prepend_cons (by simp [fits_word, hkind, hliteral]) (by simp [hkind]) rest ts

theorem advance_prepend_cons {t : Token} (ht : t.kind ≠ .finish) (rest : Cursor)
    (ts : List Token) : advance (rest.prepend (t :: ts)) = .done t (rest.prepend ts) := by
  rw [advance_apply, Cursor.advance_prepend_cons rest ts ht, Cursor.current_prepend_cons]

/-- The token taken is the one that the cursor stood on. -/
theorem takes_of_advance {c rest : Cursor} {t : Token} (hc : c.IsLexical)
    (hkind : c.current.kind ≠ .finish) (h : advance c = .done t rest) :
    t = c.current ∧ Cursor.Takes c [t] rest ∧ t.IsLexical := by
  obtain ⟨rfl, rfl⟩ := Step.done.inj h
  exact ⟨rfl, hc.takes_advance hkind⟩

theorem takes_of_expect {kind : Token.Kind} {literal? : Option Token.Literal} {what : Expectation}
    {c rest : Cursor} {t : Token} (hc : c.IsLexical) (hkind : kind ≠ .finish)
    (h : expect kind literal? what c = .done t rest) :
    fits kind literal? t = true ∧ Cursor.Takes c [t] rest ∧ t.IsLexical := by
  unfold expect at h
  split at h
  · next hfits =>
    obtain ⟨rfl, rfl⟩ := Step.done.inj h
    refine ⟨hfits, hc.takes_advance ?_⟩
    simp only [fits, decide_eq_true_eq] at hfits
    exact hfits.1 ▸ hkind
  · cases h

theorem takes_of_expectKind {kind : Token.Kind} {c rest : Cursor} {t : Token} (hc : c.IsLexical)
    (hkind : kind ≠ .finish) (h : expectKind kind c = .done t rest) :
    t.kind = kind ∧ Cursor.Takes c [t] rest ∧ t.IsLexical := by
  obtain ⟨hfits, htakes⟩ := takes_of_expect hc hkind h
  exact ⟨by simpa [fits_none] using hfits, htakes⟩

theorem takes_of_expectAs {kind : Token.Kind} {words : String} {c rest : Cursor} {t : Token}
    (hc : c.IsLexical) (hkind : kind ≠ .finish) (h : expectAs kind words c = .done t rest) :
    t.kind = kind ∧ Cursor.Takes c [t] rest ∧ t.IsLexical := by
  obtain ⟨hfits, htakes⟩ := takes_of_expect hc hkind h
  exact ⟨by simpa [fits_none] using hfits, htakes⟩

theorem takes_of_expectKeyword {word : String} {c rest : Cursor} {t : Token} (hc : c.IsLexical)
    (h : expectKeyword word c = .done t rest) :
    t.kind = .keyword ∧ t.literal = .text word ∧ Cursor.Takes c [t] rest := by
  obtain ⟨hfits, htakes, -⟩ := takes_of_expect hc (by simp) h
  rw [fits_word, decide_eq_true_eq] at hfits
  exact ⟨hfits.1, hfits.2, htakes⟩

/-- What is read behind the names in parentheses. -/
def closedParameters : Option (List Tree) → Parse (Option (List Tree))
  | none => return none
  | some params => do
    if ← isAt .rightParen then
      let _ ← advance
      return some params
    else
      return none

theorem parametersIfPresent_eq : parametersIfPresent = (do
    let _ ← expectKind .leftParen
    let c ← cursor
    if ← isAt .rightParen then closedParameters (some [])
    else
      let params? ← namesIfPresent c.tokens
      closedParameters params?) := rfl

end Sprig.Parse
