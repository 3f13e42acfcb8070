import Sprig.Proofs.Run.Lockstep

/-!
# What limits can change about a run

A depth limit can only end a run: what a run does within one limit it does within every larger one,
and what it has printed when a limit ends it is printed within every larger one too. More fuel
changes no run that has ended.
-/

namespace Sprig

namespace Easing

variable {E : Easing} {base : List Event} {s t : State}

/-- When both runs note the same events, their states are the same. -/
theorem Alike.eq (h : E.Alike base s t) (hlevel : E.tight.traceLevel = E.loose.traceLevel) :
    t = s := by
  obtain ⟨⟨trace, rfl⟩, -, events, hs, ht, hlevels⟩ := h
  rw [List.filter_eq_self.mpr fun event hevent => by
    simpa [← hlevel] using hlevels event hevent] at ht
  have htrace : trace = s.trace := Array.toList_inj.mp (ht.trans hs.symm)
  rw [htrace]

theorem Alike.printed (h : E.Alike base s t) : t.printed = s.printed := by
  obtain ⟨trace, rfl⟩ := h.same
  rfl

end Easing

namespace Run

variable {E : Easing} {trees : List Tree} {s : State}

/-- Programs go side by side under eased limits, if the depth limits can both be kept or both
cannot. -/
theorem coupled_program (hfragile : E.fragile)
    (hkept : E.loose.depth ≤ greatestDepth ∨ greatestDepth < E.tight.depth)
    (htrees : ∀ tree ∈ trees, E.Fits tree) (hs : E.named → s.HasNamed) {fuel others : Nat}
    (hfuel : (E.coupling s.trace.toList).Fuels fuel others) :
    (program fuel trees E.tight s).Coupled (E.coupling s.trace.toList) Eq
      (program others trees E.loose s) := by
  have hdepth := E.depth_le
  unfold program
  rcases hkept with hkept | hkept
  · rw [if_neg (by omega), if_neg (by omega)]
    exact (couples_statements hfragile hfuel htrees).together (.refl hs)
  · rw [if_pos (by omega), if_pos (by omega)]
    exact .failed rfl (.refl hs)

/-- A run and the same run with more fuel. -/
def refueled (limits : Limits) : Easing where
  tight := limits
  loose := limits
  named := False
  spare := True
  fragile := True
  depth_le := Int.le_refl _
  traceLevel_le := Nat.le_refl _
  eq_of_spare _ := rfl

/-- What goes side by side with itself under more fuel ends in the same way, unless its own fuel is
spent. -/
theorem eq_of_coupled {α : Type} {limits : Limits} {base : List Event} {outcome other : Outcome α}
    (h : outcome.Coupled ((refueled limits).coupling base) Eq other)
    (hends : ∀ t, outcome ≠ .outOfFuel t) : other = outcome := by
  cases h with
  | done values states => rw [values, states.eq rfl]
  | failed faults states => rw [faults, states.eq rfl]
  | outOfFuel states => rw [states.eq rfl]
  | early ends =>
      exact absurd ends.after (((refueled limits).coupling base).not_early_of_spare trivial)
  | spare => exact absurd rfl (hends _)

/-- More fuel changes no run that has ended. -/
theorem program_of_le {fuel more : Nat} (hle : fuel ≤ more) {limits : Limits}
    (h : ∀ t, program fuel trees limits s ≠ .outOfFuel t) :
    program more trees limits s = program fuel trees limits s := by
  have hkept : limits.depth ≤ greatestDepth ∨ greatestDepth < limits.depth := by omega
  have hcoupled : (program fuel trees limits s).Coupled
      ((refueled limits).coupling s.trace.toList) Eq (program more trees limits s) :=
    coupled_program (E := refueled limits) trivial hkept (fun _ _ => False.elim) False.elim
      (.of_le _ trivial hle)
  exact eq_of_coupled hcoupled h

/-- More fuel changes no evaluation that has ended. -/
theorem evaluate_of_le {fuel more : Nat} (hle : fuel ≤ more) {limits : Limits} {tree : Tree}
    {outcome : Outcome Value} (h : evaluate fuel tree limits s = outcome)
    (hends : ∀ t, outcome ≠ .outOfFuel t) : evaluate more tree limits s = outcome := by
  subst h
  have hpaired : Paired (refueled limits) s.trace.toList fuel more :=
    paired_of_fuels trivial (.of_le _ trivial hle)
  have hcoupled : (evaluate fuel tree limits s).Coupled
      ((refueled limits).coupling s.trace.toList) Eq (evaluate more tree limits s) :=
    (hpaired.evaluate False.elim).together (.refl False.elim)
  exact eq_of_coupled hcoupled hends

/-- A run that stopped alone has printed what the other run has printed too, also with more fuel. -/
theorem printed_prefix (hfragile : E.fragile)
    (hkept : E.loose.depth ≤ greatestDepth ∨ greatestDepth < E.tight.depth)
    (htrees : ∀ tree ∈ trees, E.Fits tree) (hs : E.named → s.HasNamed) {fuel more : Nat}
    {fault : Fault} {t : State} (h : program fuel trees E.tight s = .failed fault t)
    (hle : fuel ≤ more) :
    t.printed.toList <+: (program more trees E.loose s).after.printed.toList := by
  have hmore : program more trees E.tight s = .failed fault t := by
    rw [← h]
    exact program_of_le hle (by simp [h])
  have hcoupled := coupled_program hfragile hkept htrees hs (.same _ more)
  rw [hmore] at hcoupled
  generalize program more trees E.loose s = other at hcoupled ⊢
  cases hcoupled with
  | failed _ states =>
      simp only [Outcome.after, Easing.Alike.printed states, List.prefix_rfl]
  | early ends => exact ends.after.printed

/-- What a run does within a depth limit, unless the limit ends it, it does within every larger one
that can be kept. What it has printed when the limit ends it is the beginning of what it prints
within the larger one. -/
theorem depth_limit_only_ends {shallow deep : Int} (h : shallow ≤ deep)
    (hkept : deep ≤ greatestDepth ∨ greatestDepth < shallow) (level fuel : Nat)
    (trees : List Tree) (s : State) :
    ((∀ fault t, program fuel trees ⟨shallow, level⟩ s = .failed fault t →
        fault.category? ≠ some .recursionLimit) →
      program fuel trees ⟨deep, level⟩ s = program fuel trees ⟨shallow, level⟩ s) ∧
    ∀ fault t, program fuel trees ⟨shallow, level⟩ s = .failed fault t →
      fault.category? = some .recursionLimit → ∀ more, fuel ≤ more →
        t.printed.toList <+: (program more trees ⟨deep, level⟩ s).after.printed.toList := by
  let deeper : Easing :=
    ⟨⟨shallow, level⟩, ⟨deep, level⟩, False, False, True, h, Nat.le_refl _, False.elim⟩
  constructor
  · intro hfaults
    have hcoupled : (program fuel trees ⟨shallow, level⟩ s).Coupled
        (deeper.coupling s.trace.toList) Eq (program fuel trees ⟨deep, level⟩ s) :=
      coupled_program (E := deeper) trivial hkept (fun _ _ => False.elim) False.elim (.same _ fuel)
    generalize program fuel trees ⟨shallow, level⟩ s = outcome at hfaults hcoupled ⊢
    generalize hother : program fuel trees ⟨deep, level⟩ s = other at hcoupled ⊢
    cases hcoupled with
    | done values states => rw [values, states.eq rfl]
    | failed faults states => rw [faults, states.eq rfl]
    | outOfFuel states => rw [states.eq rfl]
    | @early fault t _ ends =>
        obtain ⟨stops, -, -⟩ := ends.after
        have hnone := hfaults fault t rfl
        cases stops with
        | depthExceeded | textTooDeep => exact absurd rfl hnone
        -- Both runs note the same levels, so neither makes a line that the other does not.
        | misshapen _ _ hloose htight => exact absurd htight (Nat.not_le_of_lt hloose)
    | spare hspare => exact hspare.elim
  · intro fault t hfault _ more hle
    exact printed_prefix (E := deeper) trivial hkept (fun _ _ => False.elim) False.elim hfault hle

/-- The first of two lines fits a limit that the second does not fit. -/
theorem depth_limit_behind_a_line :
    let holds : Tree := .boolean (.scalar (.boolean true))
    let same : Tree := .comparison (.text "==") holds (.comparison (.text "==") holds holds)
    let trees : List Tree := [.print holds, .print same]
    program 5 trees ⟨2, 0⟩ .start =
      .failed (.depthExceeded 2 .boolean) { State.start with printed := #["true\n"] } ∧
    ["true\n"] <+: (program 9 trees ⟨1500, 0⟩ .start).after.printed.toList := by
  intro holds same trees
  have hfailed : program 5 trees ⟨2, 0⟩ .start =
      .failed (.depthExceeded 2 .boolean) { State.start with printed := #["true\n"] } := rfl
  have honly := depth_limit_only_ends (by decide : (2 : Int) ≤ 1500) (.inl (by decide))
  exact ⟨hfailed, (honly 0 5 trees .start).2 _ _ hfailed rfl 9 (by decide)⟩

/-- A limit that is too large to be kept ends a run that a smaller one does not. -/
theorem depth_limit_not_kept :
    let trees : List Tree := [.print (.boolean (.scalar (.boolean true)))]
    (1500 : Int) ≤ 1000000000 ∧
    (∀ fault t, program 3 trees ⟨1500, 0⟩ .start = .failed fault t →
      fault.category? ≠ some .recursionLimit) ∧
    program 3 trees ⟨1000000000, 0⟩ .start ≠ program 3 trees ⟨1500, 0⟩ .start := by
  intro trees
  have hdone : program 3 trees ⟨1500, 0⟩ .start =
      .done (.boolean true) { State.start with printed := #["true\n"] } := rfl
  have hfailed : program 3 trees ⟨1000000000, 0⟩ .start = .failed .limitTooLarge .start := rfl
  rw [hdone, hfailed]
  refine ⟨by decide, ?_, ?_⟩
  · intro fault t h
    cases h
  · intro h
    cases h

end Run

end Sprig
