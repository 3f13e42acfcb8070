import Sprig.Proofs.Parse.Concat
import Sprig.Run.Program

/-!
# Layout

Where the tokens of a program stand does not matter. Two lists of tokens that agree in kind and
literal are read as the same program, or they are refused for the same reason as many tokens from
the start. So two texts with such tokens run alike from every state.

## Implementation notes

A cursor does not count the tokens it has passed, so its place is the number of tokens that it has
left out of those of another cursor. Two cursors keep in step if that number is the same for both.
-/

namespace Sprig

namespace Token

/-- What a token says, wherever it stands. -/
def content (t : Token) : Kind × Literal := (t.kind, t.literal)

theorem content_eq_of_agreeAll {ts us : List Token} (h : agreeAll ts us = true) :
    ts.map content = us.map content := of_decide_eq_true h

end Token

namespace Cursor

variable {start c d : Cursor} {k : Nat}

/-- What the tokens ahead of a cursor say. -/
def contents (c : Cursor) : List (Token.Kind × Token.Literal) := c.tokens.map Token.content

theorem alike_of_contents (h : c.contents = d.contents) : Parse.Alike c.current d.current :=
  Prod.mk.inj (List.cons.inj h).1

/-- Whether there is a closing token ahead is told by what the tokens say. -/
theorem IsClosed.of_contents (hc : c.IsClosed) (h : c.contents = d.contents) : d.IsClosed := by
  obtain ⟨t, ht, hfinish⟩ := hc
  have hmem : t.content ∈ d.contents := h ▸ List.mem_map_of_mem ht
  obtain ⟨u, hu, heq⟩ := List.mem_map.mp hmem
  exact ⟨u, hu, (congrArg Prod.fst heq).trans hfinish⟩

theorem IsClosed.contents_eq (h : c.IsClosed) (hkind : c.current.kind ≠ .finish) :
    c.contents = c.current.content :: c.advance.contents := by
  rw [contents, h.tokens_eq hkind, List.map_cons]
  rfl

/-- The cursor stands a number of tokens behind the start. -/
def IsPast (start : Cursor) (k : Nat) (c : Cursor) : Prop := c.tokens = start.tokens.drop k

theorem isPast_zero (c : Cursor) : c.IsPast 0 c := rfl

/-- From a token that does not close the list, the cursor comes to the next place. -/
theorem IsPast.advance (h : start.IsPast k c) (hc : c.IsClosed)
    (hkind : c.current.kind ≠ .finish) : start.IsPast (k + 1) c.advance := by
  have htokens := hc.tokens_eq hkind
  rw [h] at htokens
  rw [IsPast, ← List.drop_drop, htokens]
  rfl

theorem tokens_ofTokens (ts : List Token) : (ofTokens ts).tokens =
    if ts.getLast?.map (·.kind) = some .finish then ts else ts ++ [closing] := by
  cases ts with
  | nil => rfl
  | cons t ts =>
      simp only [ofTokens, List.getLast?_cons, Option.map_some, Option.some_inj]
      split <;> rfl

/-- Cursors that are made for tokens with the same contents have the same contents. -/
theorem contents_ofTokens {ts us : List Token} (h : ts.map Token.content = us.map Token.content) :
    (ofTokens ts).contents = (ofTokens us).contents := by
  have hkinds : ts.map (·.kind) = us.map (·.kind) := by
    have hfirsts := congrArg (List.map Prod.fst) h
    rwa [List.map_map, List.map_map] at hfirsts
  rw [contents, contents, tokens_ofTokens, tokens_ofTokens, ← List.getLast?_map,
    ← List.getLast?_map, hkinds]
  split
  · exact h
  · rw [List.map_append, List.map_append, h]

end Cursor

namespace Parse

variable {α : Type} {start other c d : Cursor}

/-- Two cursors stand equally far behind two others, on tokens that say the same. -/
structure InStep (start other c d : Cursor) : Prop where
  closed : c.IsClosed
  contents_eq : c.contents = d.contents
  place : ∃ k, start.IsPast k c ∧ other.IsPast k d

theorem inStep_refl (hclosed : c.IsClosed) (h : c.contents = d.contents) : InStep c d c d :=
  ⟨hclosed, h, 0, c.isPast_zero, d.isPast_zero⟩

theorem InStep.advance (h : InStep start other c d) : InStep start other c.advance d.advance := by
  have hsame : c.current.kind = d.current.kind := (Cursor.alike_of_contents h.contents_eq).1
  by_cases hkind : c.current.kind = .finish
  · rwa [Cursor.advance, if_pos hkind, Cursor.advance, if_pos (hsame ▸ hkind)]
  · have hother : d.current.kind ≠ .finish := hsame ▸ hkind
    have hclosed := h.closed.of_contents h.contents_eq
    obtain ⟨k, hc, hd⟩ := h.place
    refine ⟨h.closed.advance, ?_, k + 1, hc.advance h.closed hkind, hd.advance hclosed hother⟩
    have hcontents := h.contents_eq
    rw [h.closed.contents_eq hkind, hclosed.contents_eq hother] at hcontents
    exact (List.cons.inj hcontents).2

/-- Cursors that keep in step with one another behind two others. -/
def inStep (start other : Cursor) : Correspondence where
  near := InStep start other
  beyond _ := False
  loose := False
  kind_eq h := (Cursor.alike_of_contents h.contents_eq).1
  literal_eq h := (Cursor.alike_of_contents h.contents_eq).2
  closed h := h.closed
  lexical h := h.elim
  near_advance h := .inr h.advance
  beyond_advance h := h
  loose_of_beyond h := h
  gap := ⟨0, 0, fun h => by
    have hlength := congrArg List.length h.contents_eq
    rwa [Cursor.contents, Cursor.contents, List.length_map, List.length_map] at hlength⟩

/-- Two parsers end alike: with the same value or for the same reason, and equally far behind where
they started. -/
inductive EndsAlike (start other : Cursor) : Step α → Step α → Prop
  | done (value : α) (k : Nat) {rest mid : Cursor} (hrest : start.IsPast k rest)
      (hmid : other.IsPast k mid) : EndsAlike start other (.done value rest) (.done value mid)
  | refused (why : Refusal) (k : Nat) {rest mid : Cursor} (hrest : start.IsPast k rest)
      (hmid : other.IsPast k mid) : EndsAlike start other (.refused why rest) (.refused why mid)

theorem EndsAlike.of_follows {s t : Step α} (h : Follows (inStep start other) Eq s t) :
    EndsAlike start other s t := by
  cases h with
  | tooDeep h => exact h.elim
  | otherTooDeep h => exact h.elim
  | beyond h => exact h.elim
  | done hvalue hnear =>
      obtain ⟨k, hrest, hmid⟩ := hnear.place
      exact hvalue ▸ .done _ k hrest hmid
  | refused hnear =>
      obtain ⟨k, hrest, hmid⟩ := hnear.place
      exact .refused _ k hrest hmid

theorem EndsAlike.toOption_eq {s t : Step α} (h : EndsAlike start other s t) :
    s.toExcept.toOption = t.toExcept.toOption := by
  cases h <;> rfl

/-- Programs are read alike from cursors whose tokens say the same. -/
theorem endsAlike_program (n : Nat) (hclosed : start.IsClosed)
    (h : start.contents = other.contents) :
    EndsAlike start other (program n start) (program n other) :=
  .of_follows (follows_programStatements (.inl rfl) (inStep_refl hclosed h) (Nat.le_refl _)
    (Nat.le_refl _))

theorem toOption_treesOf (ts : List Token) : (treesOf ts).toOption =
    (program nestingLimit (Cursor.ofTokens ts)).toExcept.toOption := by
  rw [treesOf, ofTokens]
  cases (program nestingLimit (Cursor.ofTokens ts)).toExcept <;> rfl

/-- Tokens that agree in kind and literal are read as the same program, or they are refused for the
same reason at the same index, however much nesting is allowed. Texts with such tokens run alike
from every state. -/
theorem endsAlike_of_agreeAll {ts us : List Token} (h : Token.agreeAll ts us = true) :
    (∀ frames, EndsAlike (.ofTokens ts) (.ofTokens us) (program frames (.ofTokens ts))
      (program frames (.ofTokens us))) ∧
    ∀ {a b : String}, Token.scan a = .ok ts → Token.scan b = .ok us →
      ∀ (fuel : Nat) (limits : Limits) (s : State),
        (source a).toOption.map (Run.program fuel · limits s) =
          (source b).toOption.map (Run.program fuel · limits s) := by
  have hread : ∀ frames, EndsAlike (.ofTokens ts) (.ofTokens us) (program frames (.ofTokens ts))
      (program frames (.ofTokens us)) := fun frames =>
    endsAlike_program frames (Cursor.isClosed_ofTokens ts)
      (Cursor.contents_ofTokens (Token.content_eq_of_agreeAll h))
  refine ⟨hread, fun {a b} ha hb fuel limits s => ?_⟩
  rw [source_of_scan ha, source_of_scan hb, toOption_treesOf, toOption_treesOf,
    (hread nestingLimit).toOption_eq]

/-- A statement on one line and the same statement on two lines. -/
theorem endsAlike_of_agreeAll_lines :
    let ts : List Token := [⟨.identifier, .text "x", ⟨1, 1⟩⟩, ⟨.assign, .text "=", ⟨1, 2⟩⟩,
      ⟨.identifier, .text "y", ⟨1, 3⟩⟩, ⟨.finish, .absent, ⟨1, 4⟩⟩]
    let us : List Token := [⟨.identifier, .text "x", ⟨1, 2⟩⟩, ⟨.assign, .text "=", ⟨1, 4⟩⟩,
      ⟨.identifier, .text "y", ⟨2, 2⟩⟩, ⟨.finish, .absent, ⟨2, 3⟩⟩]
    Token.agreeAll ts us = true ∧
      Token.scan "x=y" = .ok ts ∧ Token.scan " x =\n y" = .ok us ∧
      (∀ frames, EndsAlike (.ofTokens ts) (.ofTokens us) (program frames (.ofTokens ts))
        (program frames (.ofTokens us))) ∧
      ∀ (fuel : Nat) (limits : Limits) (s : State),
        (source "x=y").toOption.map (Run.program fuel · limits s) =
          (source " x =\n y").toOption.map (Run.program fuel · limits s) := by
  intro ts us
  have hagree : Token.agreeAll ts us = true := by decide +kernel
  have hone : Token.scan "x=y" = .ok ts := by decide +kernel
  have htwo : Token.scan " x =\n y" = .ok us := by decide +kernel
  obtain ⟨hread, hrun⟩ := endsAlike_of_agreeAll hagree
  exact ⟨hagree, hone, htwo, hread, hrun hone htwo⟩

end Parse

end Sprig
