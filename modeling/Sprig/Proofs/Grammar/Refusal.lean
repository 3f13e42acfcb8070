import Sprig.Proofs.Grammar.StatementRefusal
import Sprig.Proofs.Parse.TrackStatement

/-!
# Where a program is refused

A program is refused at the first token that no program has at its place: the tokens in front of it
begin a program, and no program begins with these tokens and that one. Where the closing token is
refused, the tokens in front of it are no program.

## Implementation notes

Two token lists with the same beginning are read the same way until the cursor steps out of the
beginning. So a token is refused because of the tokens up to it and of none behind it. How deep a
program may be nested plays no part: a program is what is read as one with some number of frames.
-/

namespace Sprig

theorem Cursor.length_prepend_add (rest other : Cursor) (us : List Token) :
    (rest.prepend us).tokens.length + other.tokens.length =
      (other.prepend us).tokens.length + rest.tokens.length := by
  simp only [tokens_prepend, List.length_append]
  omega

namespace Parse

section Common

/-- Cursors on two token lists that have the tokens in common up to the current one of two cursors
on them. -/
def upTo (rest other : Cursor) (hsame : other.current = rest.current)
    (hkind : rest.current.kind ≠ .finish) : Correspondence where
  near c d := c.IsLexical ∧ ∃ us, c = rest.prepend us ∧ d = other.prepend us
  beyond c := c.tokens.length < rest.tokens.length
  loose := True
  kind_eq := by
    rintro _ _ ⟨-, us, rfl, rfl⟩
    cases us with
    | nil => exact congrArg Token.kind hsame.symm
    | cons u us => rfl
  literal_eq := by
    rintro _ _ ⟨-, us, rfl, rfl⟩
    cases us with
    | nil => exact congrArg Token.literal hsame.symm
    | cons u us => rfl
  closed h := h.1.isClosed
  lexical _ h := h.1
  near_advance := by
    rintro _ _ ⟨hlexical, us, rfl, rfl⟩
    cases us with
    | nil => exact .inl (hlexical.isClosed.length_tokens_advance hkind)
    | cons u us =>
        -- A closing token would be the last one, but there are others behind this one.
        have hu : u.kind ≠ .finish := by
          intro hfinish
          have htokens := congrArg List.length (hlexical.tokens_of_finish hfinish)
          rw [Cursor.tokens_prepend] at htokens
          simp [Cursor.tokens] at htokens
        refine .inr ⟨hlexical.advance, us, ?_, ?_⟩
        · exact rest.advance_prepend_cons us hu
        · exact other.advance_prepend_cons us hu
  beyond_advance {c} h := Nat.lt_of_le_of_lt c.length_tokens_advance_le h
  loose_of_beyond _ := trivial
  gap := ⟨other.tokens.length, rest.tokens.length, by
    rintro _ _ ⟨-, us, rfl, rfl⟩
    exact rest.length_prepend_add other us⟩

variable {T : Correspondence} {n : Nat} {c d rest : Cursor} {what : Expectation}

/-- What is refused within what two token lists have in common, is refused in both. -/
theorem exists_refused (hloose : T.loose) (hnear : T.near c d) (hrest : ¬ T.beyond rest)
    (h : program n c = .refused (.expected what) rest) (m : Nat) :
    ∃ why mid, program m d = .refused why mid := by
  have hfollows : Follows T Eq (program n c) (program m d) :=
    follows_programStatements (.inr hloose) hnear (Nat.le_refl _) (Nat.le_refl _)
  rw [h] at hfollows
  generalize program m d = s at *
  cases hfollows with
  | otherTooDeep => exact ⟨_, _, rfl⟩
  | beyond hbeyond => exact absurd hbeyond hrest
  | refused => exact ⟨_, _, rfl⟩

end Common

end Parse

namespace Grammar

open Parse

/-- The tokens are a program, however deep it is nested. -/
def Accepted (ts : List Token) : Prop :=
  ∃ frames trees rest, program frames (Cursor.ofTokens ts) = .done trees rest

/-- The first of the tokens that no program has at its place, or the closing token behind them if
they only lack an end. -/
structure FirstImpossible (ts : List Token) (k : Nat) : Prop where
  /-- It is one of the tokens, or the closing token. -/
  le : k ≤ ts.length
  /-- The tokens in front of it begin a program. -/
  completes : ∃ later, (∀ t ∈ later, t.kind ≠ .finish) ∧ Accepted (ts.take k ++ later)
  /-- No program begins with these tokens and this one. -/
  impossible : k < ts.length → ∀ later, ¬ Accepted (ts.take (k + 1) ++ later)
  /-- If it is the closing token, the tokens are no program. -/
  incomplete : k = ts.length → ¬ Accepted ts

variable {n : Nat} {ts us : List Token} {trees : List Tree} {closing : Token} {rest : Cursor}
  {what : Expectation}

theorem accepted_of_derivation (h : Derivation n ts trees) : Accepted ts := by
  refine ⟨n, trees, ⟨Cursor.closing, []⟩, ?_⟩
  rw [Cursor.ofTokens_of_ne_finish h.kind_ne_finish]
  exact program_of_derivation h rfl

theorem Accepted.exists_derivation (hts : ∀ t ∈ ts, t.IsLexical) (h : Accepted ts) :
    ∃ n trees, Derivation n ts trees := by
  obtain ⟨n, trees, rest, hprogram⟩ := h
  rw [Cursor.ofTokens_of_ne_finish fun t ht => (hts t ht).kind_ne_finish] at hprogram
  exact ⟨n, trees, derivation_of_program hts rfl hprogram⟩

/-- What begins a sequence of statements begins a program. -/
theorem Part.Begins.exists_accepted (h : Part.sequence.Begins ts) :
    ∃ later, (∀ t ∈ later, t.kind ≠ .finish) ∧ Accepted (ts ++ later) := by
  obtain ⟨n, later, tree, h⟩ := h
  obtain ⟨trees, rfl⟩ := h.exists_list (.inr rfl)
  exact ⟨later, fun t ht => h.kind_ne_finish t (by simp [ht]), accepted_of_derivation h⟩

/-- No program begins with tokens the last one of which was refused behind the others. -/
theorem not_accepted_of_refused {c : Cursor} (hc : c.IsLexical) (htaken : Cursor.Takes c us rest)
    (h : program n c = .refused (.expected what) rest) (hkind : rest.current.kind ≠ .finish)
    (later : List Token) : ¬ Accepted (us ++ rest.current :: later) := by
  rintro ⟨frames, trees, last, hdone⟩
  obtain ⟨others, hothers⟩ := Cursor.ofTokens_append_cons us rest.current later
  have hnear : (upTo rest ⟨rest.current, others⟩ rfl hkind).near c
      (Cursor.ofTokens (us ++ rest.current :: later)) := ⟨hc, us, htaken.eq, hothers⟩
  obtain ⟨why, mid, hrefused⟩ :=
    exists_refused trivial hnear (Nat.lt_irrefl _) h frames
  cases hdone.symm.trans hrefused

/-- What is refused with some nesting is accepted with no other one. -/
theorem not_accepted_of_program (hts : ∀ t ∈ ts, t.IsLexical) (hclosing : closing.kind = .finish)
    (h : program n ((⟨closing, []⟩ : Cursor).prepend ts) = .refused (.expected what) rest) :
    ¬ Accepted ts := by
  intro haccepted
  obtain ⟨m, trees, hderivation⟩ := haccepted.exists_derivation hts
  have hdone := program_of_derivation hderivation hclosing
  have hnear : (sameCursor True).near ((⟨closing, []⟩ : Cursor).prepend ts) _ :=
    ⟨rfl, (Cursor.isLexical_prepend hts hclosing).isClosed⟩
  obtain ⟨why, mid, hrefused⟩ := exists_refused trivial hnear id h m
  cases hdone.symm.trans hrefused

/-- A program is refused at the first token that no program has at its place, and the message names
this token and its place. -/
theorem refused_at_first_impossible (hts : ∀ t ∈ ts, t.IsLexical)
    (hclosing : closing.kind = .finish)
    (h : program nestingLimit (Cursor.ofTokens (ts ++ [closing])) =
      .refused (.expected what) rest) :
    ∃ k t fault, FirstImpossible ts k ∧ rest.tokens = (ts ++ [closing]).drop k ∧
      (ts ++ [closing])[k]? = some t ∧
      Parse.ofTokens (ts ++ [closing]) = .error fault ∧ fault.found = t ∧
      fault.message = "ParseError: expected " ++ what.text ++ " at " ++ t.position.text ++
        ", got " ++ t.shown := by
  have hfault : Parse.ofTokens (ts ++ [closing]) = .error ⟨.expected what, rest.current⟩ := by
    rw [Parse.ofTokens, h]
    rfl
  rw [Cursor.ofTokens_concat hclosing] at h
  have hlexical := Cursor.isLexical_prepend hts hclosing
  obtain ⟨us, hus, hbegins⟩ := viable_program nestingLimit hlexical what rest h
  -- The tokens that were taken are the first ones of the list.
  have htokens : ts ++ [closing] = us ++ rest.tokens := by
    have htokens := congrArg Cursor.tokens hus.eq
    rwa [Cursor.tokens_prepend, Cursor.tokens_prepend] at htokens
  have hle : us.length ≤ ts.length := by
    have hlength := congrArg List.length htokens
    simp only [List.length_append, Cursor.tokens, List.length_cons, List.length_nil] at hlength
    omega
  have htake : ts.take us.length = us := by
    rw [← List.take_append_of_le_length hle, htokens, List.take_left]
  have hget : (ts ++ [closing])[us.length]? = some rest.current := by
    rw [htokens, List.getElem?_append_right (Nat.le_refl _), Nat.sub_self]
    rfl
  refine ⟨us.length, rest.current, _, ?_, by rw [htokens, List.drop_left], hget, hfault, rfl, rfl⟩
  refine ⟨hle, ?_, fun hlt later => ?_, fun _ => not_accepted_of_program hts hclosing h⟩
  · rw [htake]
    exact hbegins.exists_accepted
  · have hat : ts[us.length]? = some rest.current := by
      rwa [List.getElem?_append_left hlt] at hget
    rw [List.take_add_one, htake, hat, Option.toList_some, List.append_assoc, List.singleton_append]
    exact not_accepted_of_refused hlexical hus h
      (hts _ (List.mem_of_getElem? hat)).kind_ne_finish later

theorem refused_behind_abandoned_parameters :
    let ts : List Token := [⟨.identifier, .text "f", ⟨1, 1⟩⟩, ⟨.leftParen, .text "(", ⟨1, 2⟩⟩,
      ⟨.identifier, .text "x", ⟨1, 3⟩⟩, ⟨.identifier, .text "y", ⟨1, 5⟩⟩,
      ⟨.rightParen, .text ")", ⟨1, 6⟩⟩]
    let closing : Token := ⟨.finish, .absent, ⟨1, 7⟩⟩
    Token.scan "f(x y)" = .ok (ts ++ [closing]) ∧
      program nestingLimit (Cursor.ofTokens (ts ++ [closing])) =
        .refused (.expected (.phrase "')' after arguments"))
          ⟨⟨.identifier, .text "y", ⟨1, 5⟩⟩, [⟨.rightParen, .text ")", ⟨1, 6⟩⟩, closing]⟩ ∧
      FirstImpossible ts 3 ∧ ∃ fault, Parse.ofTokens (ts ++ [closing]) = .error fault ∧
        fault.message = "ParseError: expected ')' after arguments at 1:5, got IDENTIFIER 'y'" := by
  intro ts closing
  have hscan : Token.scan "f(x y)" = .ok (ts ++ [closing]) := by decide +kernel
  have hprogram : program nestingLimit (Cursor.ofTokens (ts ++ [closing])) =
      .refused (.expected (.phrase "')' after arguments"))
        ⟨⟨.identifier, .text "y", ⟨1, 5⟩⟩, [⟨.rightParen, .text ")", ⟨1, 6⟩⟩, closing]⟩ := by cbv
  have hts : ∀ t ∈ ts, t.IsLexical := by
    unfold Token.IsLexical
    decide
  obtain ⟨k, t, fault, hfirst, hrest, hget, hfault, -, hmessage⟩ :=
    refused_at_first_impossible hts rfl hprogram
  have hk : k = 3 := by
    have hlength := congrArg List.length hrest
    have hle := hfirst.le
    simp [ts, Cursor.tokens] at hlength hle
    omega
  subst hk
  obtain rfl := Option.some.inj hget
  exact ⟨hscan, hprogram, hfirst, fault, hfault, by rw [hmessage]; decide +kernel⟩

end Grammar

end Sprig
