import Sprig.Parse.Basic
import Sprig.Proofs.Token.Lexical

/-!
# What a cursor leaves behind

`prepend` puts tokens in front of a cursor. A parser that takes the tokens `ts` goes from the cursor
`rest.prepend ts` to `rest`; with tokens as a text spells them, each token but the closing one can
be taken.
-/

namespace Sprig

namespace Cursor

/-- The cursor with more tokens in front of it. -/
def prepend (rest : Cursor) : List Token → Cursor
  | [] => rest
  | t :: ts => ⟨t, ts ++ rest.tokens⟩

@[simp] theorem prepend_nil (rest : Cursor) : rest.prepend [] = rest := rfl

@[simp] theorem current_prepend_cons (rest : Cursor) (t : Token) (ts : List Token) :
    (rest.prepend (t :: ts)).current = t := rfl

@[simp] theorem tokens_prepend (rest : Cursor) (ts : List Token) :
    (rest.prepend ts).tokens = ts ++ rest.tokens := by
  cases ts <;> rfl

theorem tokens_injective {c d : Cursor} (h : c.tokens = d.tokens) : c = d := by
  obtain ⟨t, ts⟩ := c
  obtain ⟨u, us⟩ := d
  obtain ⟨rfl, rfl⟩ := List.cons.inj h
  rfl

theorem prepend_append (rest : Cursor) (ts us : List Token) :
    rest.prepend (ts ++ us) = (rest.prepend us).prepend ts := by
  apply tokens_injective
  simp

/-- A token that does not close the list is taken. -/
theorem advance_prepend_cons (rest : Cursor) {t : Token} (ts : List Token)
    (ht : t.kind ≠ .finish) : (rest.prepend (t :: ts)).advance = rest.prepend ts := by
  unfold advance
  rw [current_prepend_cons, if_neg ht]
  cases ts with
  | nil => rfl
  | cons u us => rfl

/-- A step ahead brings no new tokens. -/
theorem mem_tokens_of_advance {c : Cursor} {t : Token} (h : t ∈ c.advance.tokens) :
    t ∈ c.tokens := by
  obtain ⟨current, later⟩ := c
  unfold advance at h
  split at h
  · exact h
  · cases later with
    | nil => exact h
    | cons next later => exact List.mem_cons_of_mem _ h

/-- A cursor stands on the tokens it was made for, and perhaps on a closing token. -/
theorem mem_tokens_ofTokens {tokens : List Token} {t : Token} (h : t ∈ (ofTokens tokens).tokens) :
    t ∈ tokens ∨ t = closing := by
  cases tokens with
  | nil => exact .inr (List.mem_singleton.mp h)
  | cons first tokens =>
      rw [ofTokens] at h
      split at h
      · exact .inl h
      · have h : t ∈ (first :: tokens) ++ [closing] := h
        rcases List.mem_append.mp h with h | h
        · exact .inl h
        · exact .inr (List.mem_singleton.mp h)

/-- In front of a closing token at the end, the tokens are all ahead. -/
theorem ofTokens_concat {closing : Token} (h : closing.kind = .finish) (ts : List Token) :
    ofTokens (ts ++ [closing]) = (⟨closing, []⟩ : Cursor).prepend ts := by
  cases ts with
  | nil => simp [ofTokens, h]
  | cons t ts =>
      rw [List.cons_append, ofTokens, List.getLast?_concat, Option.getD_some, if_pos h]
      rfl

/-- In whatever tokens some others begin, the cursor comes by the token behind these. -/
theorem ofTokens_append_cons (us : List Token) (t : Token) (later : List Token) :
    ∃ others, ofTokens (us ++ t :: later) = (⟨t, others⟩ : Cursor).prepend us := by
  cases us with
  | nil =>
      rw [List.nil_append, ofTokens]
      split <;> exact ⟨_, rfl⟩
  | cons u us =>
      rw [List.cons_append, ofTokens]
      split
      · exact ⟨later, rfl⟩
      · exact ⟨later ++ [closing], by simp [prepend, tokens]⟩

/-- Tokens none of which closes the list get a closing token behind them. -/
theorem ofTokens_of_ne_finish {ts : List Token} (h : ∀ t ∈ ts, t.kind ≠ .finish) :
    ofTokens ts = (⟨closing, []⟩ : Cursor).prepend ts := by
  cases ts with
  | nil => rfl
  | cons t ts =>
      have hlast : (ts.getLast?.getD t).kind ≠ .finish := by
        cases hts : ts.getLast? with
        | none => exact h t (by simp)
        | some last => exact h last (List.mem_cons_of_mem t (List.mem_of_getLast? hts))
      rw [ofTokens, if_neg hlast]
      rfl

/-- Behind the cursor there are no more tokens than before the step. -/
theorem length_tokens_advance_le (c : Cursor) : c.advance.tokens.length ≤ c.tokens.length := by
  simpa [tokens, remaining] using c.remaining_advance_le

/-- Behind a step that gets to another kind of token there are fewer tokens than before. -/
theorem length_tokens_advance_lt {c : Cursor} (h : c.advance.current.kind ≠ c.current.kind) :
    c.advance.tokens.length < c.tokens.length := by
  obtain ⟨t, later⟩ := c
  unfold advance at h ⊢
  split at h
  · exact absurd rfl h
  · next hkind =>
    rw [if_neg hkind]
    cases later with
    | nil => exact absurd rfl h
    | cons u later => exact Nat.lt_succ_self _

section Closed

variable {c : Cursor}

/-- The cursor stands on a closing token or in front of one. -/
def IsClosed (c : Cursor) : Prop := ∃ t ∈ c.tokens, t.kind = .finish

/-- In front of a closing token the cursor steps ahead by one token. -/
theorem IsClosed.tokens_eq (h : c.IsClosed) (hkind : c.current.kind ≠ .finish) :
    c.tokens = c.current :: c.advance.tokens := by
  obtain ⟨t, later⟩ := c
  cases later with
  | nil =>
      obtain ⟨u, hu, hfinish⟩ := h
      obtain rfl := List.mem_singleton.mp hu
      exact absurd hfinish hkind
  | cons u later => rw [advance, if_neg hkind]; rfl

theorem IsClosed.length_tokens_advance (h : c.IsClosed) (hkind : c.current.kind ≠ .finish) :
    c.advance.tokens.length < c.tokens.length := by
  rw [h.tokens_eq hkind, List.length_cons]
  exact Nat.lt_succ_self _

theorem IsClosed.advance (h : c.IsClosed) : c.advance.IsClosed := by
  by_cases hkind : c.current.kind = .finish
  · rwa [Cursor.advance, if_pos hkind]
  · obtain ⟨t, ht, hfinish⟩ := h
    rw [IsClosed.tokens_eq ⟨t, ht, hfinish⟩ hkind] at ht
    rcases List.mem_cons.mp ht with rfl | ht
    · exact absurd hfinish hkind
    · exact ⟨t, ht, hfinish⟩

/-- The last token of a cursor that is made for some tokens is a closing one. -/
theorem exists_getLast?_ofTokens (tokens : List Token) :
    ∃ closing, (ofTokens tokens).tokens.getLast? = some closing ∧ closing.kind = .finish := by
  cases tokens with
  | nil => exact ⟨closing, rfl, rfl⟩
  | cons t ts =>
      rw [ofTokens]
      split
      · next hlast => exact ⟨_, List.getLast?_cons, hlast⟩
      · exact ⟨closing, by rw [Cursor.tokens, ← List.cons_append, List.getLast?_concat], rfl⟩

/-- On each of the tokens of a cursor that is made for some tokens, a closing token is ahead. -/
theorem isClosed_of_drop {tokens : List Token} {place : Nat}
    (h : c.tokens = (ofTokens tokens).tokens.drop place) : c.IsClosed := by
  obtain ⟨closing, hlast, hfinish⟩ := exists_getLast?_ofTokens tokens
  have hplace : ¬ (ofTokens tokens).tokens.length ≤ place := fun hend =>
    List.cons_ne_nil _ _ (h.trans (List.drop_eq_nil_of_le hend))
  have hclosing : c.tokens.getLast? = some closing := by
    rw [h, List.getLast?_drop, if_neg hplace, hlast]
  exact ⟨closing, List.mem_of_getLast? hclosing, hfinish⟩

/-- A cursor that is made for some tokens has a closing token ahead. -/
theorem isClosed_ofTokens (tokens : List Token) : (ofTokens tokens).IsClosed :=
  isClosed_of_drop List.drop_zero.symm

end Closed

/-- The cursor stands on tokens that a text can spell, up to the closing token at their end. -/
def IsLexical (c : Cursor) : Prop :=
  ∃ body closing, c.tokens = body ++ [closing] ∧ closing.kind = .finish ∧
    ∀ t ∈ body, t.IsLexical

theorem IsLexical.isClosed {c : Cursor} (h : c.IsLexical) : c.IsClosed := by
  obtain ⟨body, closing, htokens, hclosing, -⟩ := h
  exact ⟨closing, by simp [htokens], hclosing⟩

/-- Behind some of the tokens that a text can spell, the others are tokens that a text can spell. -/
theorem IsLexical.of_prepend {rest : Cursor} {ts : List Token} (h : (rest.prepend ts).IsLexical) :
    rest.IsLexical := by
  obtain ⟨body, closing, htokens, hclosing, hbody⟩ := h
  rw [tokens_prepend] at htokens
  rcases List.append_eq_append_iff.mp htokens with ⟨later, rfl, hrest⟩ | ⟨extra, -, hrest⟩
  · exact ⟨later, closing, hrest, hclosing, fun t ht => hbody t (by simp [ht])⟩
  · have hextra : extra = [] := by
      have hlength := congrArg List.length hrest
      simp only [tokens, List.length_append, List.length_cons, List.length_nil] at hlength
      exact List.length_eq_zero_iff.mp (by omega)
    refine ⟨[], closing, ?_, hclosing, by simp⟩
    simpa [hextra] using hrest.symm

/-- Each of the tokens in front is one that a text can spell, unless it closes the list. -/
theorem IsLexical.of_mem_prepend {rest : Cursor} {ts : List Token} {t : Token}
    (h : (rest.prepend ts).IsLexical) (ht : t ∈ ts) (hkind : t.kind ≠ .finish) : t.IsLexical := by
  obtain ⟨body, closing, htokens, hclosing, hbody⟩ := h
  have hmem : t ∈ body ++ [closing] := htokens ▸ by simp [ht]
  rcases List.mem_append.mp hmem with hmem | hmem
  · exact hbody t hmem
  · exact absurd (List.mem_singleton.mp hmem ▸ hclosing) hkind

/-- Every token but the closing one can be taken. -/
theorem IsLexical.eq_prepend_advance {c : Cursor} (h : c.IsLexical)
    (hkind : c.current.kind ≠ .finish) :
    c = c.advance.prepend [c.current] ∧ c.current.IsLexical := by
  obtain ⟨body, closing, htokens, hclosing, hbody⟩ := h
  obtain ⟨t, later⟩ := c
  cases body with
  | nil =>
      obtain ⟨rfl, -⟩ := List.cons.inj htokens
      exact absurd hclosing hkind
  | cons u body =>
      obtain ⟨rfl, hlater⟩ := List.cons.inj htokens
      refine ⟨?_, hbody _ (by simp)⟩
      cases later with
      | nil => simp at hlater
      | cons v later =>
          simp only [advance, if_neg hkind]
          rfl

theorem IsLexical.current {c : Cursor} (h : c.IsLexical) :
    c.current.kind = .finish ∨ c.current.IsLexical := by
  by_cases hkind : c.current.kind = .finish
  · exact .inl hkind
  · exact .inr (h.eq_prepend_advance hkind).2

/-- The closing token is the last one. -/
theorem IsLexical.tokens_of_finish {c : Cursor} (h : c.IsLexical)
    (hkind : c.current.kind = .finish) : c.tokens = [c.current] := by
  obtain ⟨body, closing, htokens, hclosing, hbody⟩ := h
  cases body with
  | nil =>
      obtain ⟨hcurrent, hlater⟩ := List.cons.inj htokens
      simp [tokens, hlater]
  | cons t body =>
      obtain ⟨hcurrent, -⟩ := List.cons.inj htokens
      have hlexical := hbody t (by simp)
      rw [← hcurrent, Token.IsLexical, hkind] at hlexical
      simp [Token.Kind.admits] at hlexical

/-- A parser that goes from a cursor to another one takes the tokens, which a text can spell. -/
structure Takes (c : Cursor) (ts : List Token) (rest : Cursor) : Prop where
  eq : c = rest.prepend ts
  lexical : rest.IsLexical

namespace Takes

theorem refl {c : Cursor} (h : c.IsLexical) : Takes c [] c := ⟨rfl, h⟩

theorem trans {c mid rest : Cursor} {ts us : List Token} (h : Takes c ts mid)
    (hrest : Takes mid us rest) : Takes c (ts ++ us) rest := by
  obtain ⟨rfl, hlexical⟩ := hrest
  exact ⟨h.eq.trans (prepend_append _ ts us).symm, hlexical⟩

theorem length_tokens {c rest : Cursor} {ts : List Token} (h : Takes c ts rest) :
    c.tokens.length = ts.length + rest.tokens.length := by
  rw [h.eq, tokens_prepend, List.length_append]

end Takes

theorem IsLexical.takes_advance {c : Cursor} (h : c.IsLexical) (hkind : c.current.kind ≠ .finish) :
    Takes c [c.current] c.advance ∧ c.current.IsLexical := by
  obtain ⟨heq, hcurrent⟩ := h.eq_prepend_advance hkind
  exact ⟨⟨heq, (heq ▸ h).of_prepend⟩, hcurrent⟩

theorem IsLexical.advance {c : Cursor} (h : c.IsLexical) : c.advance.IsLexical := by
  by_cases hkind : c.current.kind = .finish
  · rwa [Cursor.advance, if_pos hkind]
  · exact (h.takes_advance hkind).1.lexical

/-- Tokens that a text can spell, and a closing token behind them. -/
theorem isLexical_prepend {ts : List Token} {closing : Token} (hts : ∀ t ∈ ts, t.IsLexical)
    (hclosing : closing.kind = .finish) : ((⟨closing, []⟩ : Cursor).prepend ts).IsLexical :=
  ⟨ts, closing, tokens_prepend _ ts, hclosing, hts⟩

end Cursor

end Sprig
