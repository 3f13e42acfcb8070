import Sprig.Proofs.Run.Hearing
import Sprig.Proofs.Run.Nesting

/-!
# A trace only looks on

A run and the same run at a lower trace level end alike, and the trace of the second is that of the
first without the events above its level. The only exception is an event above that level which
cannot be made: there the first run stops, and the second one goes on past the place. A run that
stops because the program itself shows a value without a text stops alike at every level.
-/

namespace Sprig

namespace Outcome

variable {α : Type}

/-- An ending without the events that were noted. -/
def untraced : Outcome α → Outcome α
  | .done v after => .done v { after with trace := #[] }
  | .failed fault after => .failed fault { after with trace := #[] }
  | .outOfFuel after => .outOfFuel { after with trace := #[] }

/-- Whether a run at a lower trace level ended as one at a higher level did, and noted just those of
its events that are not above the lower level. -/
structure AgreesUpTo (low high : Nat) (base : List Event) (outcome other : Outcome α) : Prop where
  same : other.untraced = outcome.untraced
  traces : ∃ events, outcome.after.trace.toList = base ++ events ∧
    other.after.trace.toList = base ++ events.filter (·.level ≤ low) ∧
    ∀ event ∈ events, event.level ≤ high

end Outcome

namespace Run

variable {trees : List Tree} {depth : Int} {low high : Nat}

/-- A run, and the same run at a lower trace level, with what is known of the declarations and
whether events may stop the first run. -/
def observing (depth : Int) (h : low ≤ high) (named fragile : Prop) : Easing where
  tight := ⟨depth, high⟩
  loose := ⟨depth, low⟩
  named := named
  spare := False
  fragile := fragile
  depth_le := Int.le_refl depth
  traceLevel_le := h
  eq_of_spare := False.elim

/-- Where events do not stop the first run, nothing does that leaves the second one alone. -/
theorem hushes_observing (depth : Int) (h : low ≤ high) : (observing depth h False False).Hushes :=
  ⟨rfl, id, id, id⟩

/-- Two runs that went side by side ended alike but for their events, or the first stopped alone. -/
theorem agrees_or_stops {α : Type} {h : low ≤ high} {named fragile : Prop} {base : List Event}
    {outcome other : Outcome α}
    (hcoupled : outcome.Coupled ((observing depth h named fragile).coupling base) Eq other) :
    outcome.AgreesUpTo low high base other ∨ ∃ fault t, outcome = .failed fault t ∧
      (observing depth h named fragile).Stops t.heap fault := by
  cases hcoupled with
  | done values states =>
      obtain ⟨⟨trace, rfl⟩, -, htraces⟩ := states
      exact .inl ⟨by rw [values]; rfl, htraces⟩
  | failed faults states =>
      obtain ⟨⟨trace, rfl⟩, -, htraces⟩ := states
      exact .inl ⟨by rw [faults]; rfl, htraces⟩
  | outOfFuel states =>
      obtain ⟨⟨trace, rfl⟩, -, htraces⟩ := states
      exact .inl ⟨rfl, htraces⟩
  | early ends => exact .inr ⟨_, _, rfl, ends.after.stops⟩
  | spare h => exact h.elim

/-- Whether a run comes to the place at which another one that is traced further notes an event, in
the same state but for the events above its own level, and goes on there without the event. -/
def Passes (limits : Limits) (first : Task) (s : State) (draft : Draft) (t : State) : Prop :=
  ∃ trace events, t.trace.toList = s.trace.toList ++ events ∧
    trace.toList = s.trace.toList ++ events.filter (·.level ≤ limits.traceLevel) ∧
    Faces limits first s draft { t with trace } ∧
    note draft.level draft.event limits { t with trace } = .done () { t with trace }

variable {first : Task} {s t : State} {draft : Draft} {fault : Fault}

/-- What a run faces at one level, it faces at a lower level. -/
theorem Faces.observed (hfaces : Faces ⟨depth, high⟩ first s draft t) (h : low ≤ high) :
    ∃ t', Faces ⟨depth, low⟩ first s draft t' ∧
      (observing depth h False True).Alike s.trace.toList t t' := by
  obtain ⟨task, u, comes, notes⟩ := hfaces
  obtain ⟨u', comes', hu⟩ :=
    Comes.eased (E := observing depth h False True) trivial id comes (.refl False.elim)
  obtain ⟨t', notes', ht⟩ := notes.eased trivial id hu
  exact ⟨t', ⟨task, u', comes', notes'⟩, ht⟩

/-- An event at which a run stops does not stop the run at a lower level. -/
theorem StopsAt.passes (hstops : StopsAt ⟨depth, high⟩ low first s draft fault t)
    (h : low ≤ high) : Passes ⟨depth, low⟩ first s draft t := by
  obtain ⟨_, hfaces, ⟨⟨trace, rfl⟩, -, events, hevents, htrace, -⟩⟩ := hstops.faces.observed h
  exact ⟨trace, events, hevents, htrace, hfaces, note_of_lt hstops.above ..⟩

/-- A run stops at an event only for want of a text or of names. -/
theorem StopsAt.cause {limits : Limits} (hstops : StopsAt limits low first s draft fault t) :
    fault = .textTooDeep ∧
        (∃ v ∈ draft.values, v.display? t.heap limits.textAllowance = none) ∨
      fault = .misshapen ∧ ¬draft.IsNamed := by
  have hends := draft.ends_event limits t
  rw [hstops.fails] at hends
  cases hends with
  | noText hmem hnone => exact .inl ⟨rfl, _, hmem, hnone⟩
  | noNames hnames => exact .inr ⟨rfl, hnames⟩

/-- A program that comes to an event at which it stops does end there. -/
theorem StopsAt.program_fails {limits : Limits}
    (hstops : StopsAt limits low (.program trees) s draft fault t)
    (hkept : limits.depth ≤ greatestDepth) :
    ∃ least levels, ∀ fuel, least ≤ fuel →
      program fuel trees limits s = .failed fault (t.outOf levels) := by
  obtain ⟨task, u, comes, notes⟩ := hstops.faces
  exact (notes.fails hstops.noted hstops.fails).program_fails comes hkept

/-- A run that ends otherwise than at a lower level stops at an event above that level. -/
theorem exists_stopsAt_of_not_agrees (h : low ≤ high) {fuel : Nat}
    (hagrees : ¬(program fuel trees ⟨depth, high⟩ s).AgreesUpTo low high s.trace.toList
      (program fuel trees ⟨depth, low⟩ s)) :
    ∃ draft fault t levels, program fuel trees ⟨depth, high⟩ s = .failed fault (t.outOf levels) ∧
      StopsAt ⟨depth, high⟩ low (.program trees) s draft fault t := by
  have hhears := hears_program (hushes_observing depth h) fuel trees s
  rcases hhears with hcoupled | ⟨draft, fault, t, levels, hstops, hfailed⟩
  · rcases agrees_or_stops hcoupled with hsame | ⟨fault, t, -, hstops⟩
    · exact absurd hsame hagrees
    · exact absurd hstops (hushes_observing depth h).not_stops
  · exact ⟨draft, fault, t, levels, hfailed, hstops⟩

/-- Where all declarations name their parameters, runs end otherwise only for want of a text. -/
theorem not_named_of_misshapen (h : low ≤ high) {fuel : Nat}
    (hagrees : ¬(program fuel trees ⟨depth, high⟩ s).AgreesUpTo low high s.trace.toList
      (program fuel trees ⟨depth, low⟩ s))
    (hfailed : program fuel trees ⟨depth, high⟩ s = .failed .misshapen t) :
    ¬((∀ tree ∈ trees, tree.Named) ∧ s.HasNamed) := by
  let quieter := observing depth h ((∀ tree ∈ trees, tree.Named) ∧ s.HasNamed) True
  have hkept : depth ≤ greatestDepth ∨ greatestDepth < depth := by omega
  have htrees : ∀ tree ∈ trees, quieter.Fits tree := fun tree htree hnamed => hnamed.1 tree htree
  have hcoupled := coupled_program (E := quieter) trivial hkept htrees And.right (.same _ fuel)
  rcases agrees_or_stops hcoupled with hsame | ⟨fault, u, hfault, hstops⟩
  · exact absurd hsame hagrees
  · obtain ⟨rfl, -⟩ := Outcome.failed.inj (hfault.symm.trans hfailed)
    cases hstops with
    | misshapen _ hnamed => exact hnamed

/-- Where the program shows a value without a text, it stops alike at a lower level. -/
theorem agrees_of_shows (h : low ≤ high) (hkept : depth ≤ greatestDepth) {task : Task}
    {v : Value} {u : State} (comes : Comes ⟨depth, high⟩ (.program trees) s task t)
    (shows : Shows ⟨depth, high⟩ task t v u)
    (hnone : v.display? u.heap (Limits.textAllowance ⟨depth, high⟩) = none) :
    ∃ least, ∀ fuel, least ≤ fuel →
      (∃ after, program fuel trees ⟨depth, high⟩ s = .failed .textTooDeep after) ∧
      (program fuel trees ⟨depth, high⟩ s).AgreesUpTo low high s.trace.toList
        (program fuel trees ⟨depth, low⟩ s) := by
  obtain ⟨t', comes', ht⟩ :=
    Comes.eased (E := observing depth h False True) trivial id comes (.refl False.elim)
  obtain ⟨_, shows', ⟨⟨trace, rfl⟩, -, htraces⟩⟩ := shows.eased trivial id ht
  obtain ⟨least, levels, hhigh⟩ := shows.program_fails comes hkept hnone
  obtain ⟨other, others, hlow⟩ := shows'.program_fails comes' hkept hnone
  refine ⟨max least other, fun fuel hle => ?_⟩
  have hfailed : program fuel trees ⟨depth, high⟩ s = .failed .textTooDeep (u.outOf levels) :=
    hhigh fuel (Nat.le_trans (Nat.le_max_left ..) hle)
  have hfailed' : program fuel trees ⟨depth, low⟩ s =
      .failed .textTooDeep (State.outOf others { u with trace }) :=
    hlow fuel (Nat.le_trans (Nat.le_max_right ..) hle)
  -- Both runs have left all nodes again, however many they were inside of.
  have hdepth := accounted_program ⟨depth, high⟩ fuel trees s
  have hdepth' := accounted_program ⟨depth, low⟩ fuel trees s
  rw [hfailed] at hdepth ⊢
  rw [hfailed'] at hdepth' ⊢
  refine ⟨⟨_, rfl⟩, ?_, htraces⟩
  have hsame : u.depth - others = u.depth - levels := hdepth'.1.trans hdepth.1.symm
  simp only [Outcome.untraced, State.outOf, hsame]

end Run

end Sprig
