import Sprig.Proofs.Parse.TrackStatement

/-!
# Parsers without a nesting limit

The frames of a parser settle whether it gives up, and nothing else: with any two numbers of frames
it goes the same way from the same cursor unless it gives up with one of them. As the tokens ahead
bound the nesting, there are always frames enough, and what a parser reads with these is what it
reads without a limit.
-/

namespace Sprig

/-- Whether a step gives up because of the nesting. -/
def Step.GivesUp {α : Type} (s : Step α) : Prop := ∃ rest, s = .refused .nestedTooDeeply rest

namespace Parse

variable {α : Type}

theorem not_givesUp_of_ends {s : Step α} {P : α → Cursor → Prop} {roomy : Prop}
    (h : s.Ends P roomy) (hroom : roomy) : ¬ s.GivesUp := by
  rintro ⟨rest, rfl⟩
  exact h hroom rfl

/-- Steps that go the same way from one cursor are one step, unless one of them gives up. -/
theorem eq_of_follows {loose : Prop} {s t : Step α} (h : Follows (sameCursor loose) Eq s t)
    (hs : loose → ¬ s.GivesUp) (ht : loose → ¬ t.GivesUp) : s = t := by
  cases h with
  | tooDeep hloose => exact absurd ⟨_, rfl⟩ (hs hloose)
  | otherTooDeep hloose => exact absurd ⟨_, rfl⟩ (ht hloose)
  | beyond hbeyond => exact hbeyond.elim
  | done hvalue hnear => rw [hvalue, hnear.1]
  | refused hnear => rw [hnear.1]

/-- A parser as it reads without a nesting limit, with frames enough for the tokens ahead. -/
def unbounded (parser : Nat → Parse α) : Parse α := fun c => parser (8 * c.tokens.length + 8) c

/-- At a cursor the frames of a parser only settle whether it gives up, and enough of them do away
with that. -/
structure SettledAt (parser : Nat → Parse α) (c : Cursor) : Prop where
  ends : ¬ (unbounded parser c).GivesUp
  same : ∀ n, (parser n c).GivesUp ∨ parser n c = unbounded parser c

/-- The frames of a parser do not change where it goes, and as many as are enough for the tokens
ahead are enough for it to get there. -/
structure Settles (parser : Nat → Parse α) : Prop where
  tracks : ∀ n m, Tracks (sameCursor True) Eq (parser n) (parser m)
  ends : ∀ n {c : Cursor}, c.IsClosed →
    (parser n c).Ends (fun _ _ => True) (8 * c.tokens.length + 1 ≤ n)

namespace Settles

variable {parser : Nat → Parse α} {n : Nat} {c : Cursor}

theorem not_givesUp (h : Settles parser) (hc : c.IsClosed) (hn : 8 * c.tokens.length + 1 ≤ n) :
    ¬ (parser n c).GivesUp :=
  not_givesUp_of_ends (h.ends n hc) hn

theorem unbounded_not_givesUp (h : Settles parser) (hc : c.IsClosed) :
    ¬ (unbounded parser c).GivesUp :=
  h.not_givesUp hc (by omega)

/-- Unless a parser gives up, it reads what it reads without a limit. -/
theorem givesUp_or_eq (h : Settles parser) (hc : c.IsClosed) (n : Nat) :
    (parser n c).GivesUp ∨ parser n c = unbounded parser c := by
  by_cases hgives : (parser n c).GivesUp
  · exact .inl hgives
  · exact .inr (eq_of_follows ((h.tracks n _).follows ⟨rfl, hc⟩) (fun _ => hgives)
      fun _ => h.unbounded_not_givesUp hc)

theorem settledAt (h : Settles parser) (hc : c.IsClosed) : SettledAt parser c :=
  ⟨h.unbounded_not_givesUp hc, h.givesUp_or_eq hc⟩

theorem eq_unbounded (h : Settles parser) (hc : c.IsClosed) (hn : 8 * c.tokens.length + 1 ≤ n) :
    parser n c = unbounded parser c :=
  (h.givesUp_or_eq hc n).resolve_left (h.not_givesUp hc hn)

theorem within (h : Settles parser) {left : Nat} (hc : c.HasAtMost left)
    (hn : 8 * left + 1 ≤ n) : parser n c = unbounded parser c :=
  h.eq_unbounded hc.closed (Nat.le_trans (Nat.succ_le_succ (Nat.mul_le_mul_left 8 hc.length_le)) hn)

end Settles

theorem settles_of_leaves {parser : Nat → Parse α} {few : Nat → Nat}
    (htracks : ∀ n m, Tracks (sameCursor True) Eq (parser n) (parser m))
    (hleaves : ∀ n {c : Cursor} {left}, c.HasAtMost left →
      (parser n c).Leaves (few left) (8 * left + 1 ≤ n)) : Settles parser where
  tracks := htracks
  ends n _ hc := Step.Ends.mono (hleaves n hc.hasAtMost) (fun _ _ _ => trivial) id

theorem settles_expression : Settles expression :=
  settles_of_leaves (fun _ _ => (tracks_expressions (.inr trivial)).expression)
    fun n _ _ hc => ((leaves_expressions n).expression hc).mono (Nat.le_refl _) (by omega)

theorem settles_statement : Settles statement :=
  settles_of_leaves (fun _ _ => (tracks_statements (.inr trivial)).statement)
    fun n _ _ hc => (leaves_statements n).statement hc

theorem settles_block : Settles block :=
  settles_of_leaves (fun _ _ => (tracks_statements (.inr trivial)).block)
    fun n _ _ hc => ((leaves_statements n).block hc).mono (Nat.le_refl _) (by omega)

theorem settles_arguments (words : String) : Settles (arguments · words) :=
  settles_of_leaves (fun _ _ => (tracks_expressions (.inr trivial)).arguments words)
    fun n _ _ hc => ((leaves_expressions n).arguments words hc).mono (Nat.le_refl _) (by omega)

end Parse

end Sprig
