import Sprig.Proofs.Run.Coupling
import Sprig.Proofs.Run.Draft
import Sprig.Run.Program

/-!
# Runs under eased limits

Two runs of the same program from the same state, the second allowed at least the depth of the first
and noting at most the events that the first one notes. They go side by side, with the same values,
faults and states, and the events of the second are those of the first up to its own level. The
first run may stop alone in two ways only: a node or a text was too deep for its lower limit, or an
event that it alone notes could not be made, since a text in it was too deep or a declaration was to
be told whose parameters are no names. The second run has then printed what the first one has, and
may print more.

## Implementation notes

Only where both runs have the same limits may the second have more fuel. There no run can stop
alone, so it is the comparison of a run with itself under more fuel.

Whether an event may stop the first run is a field of its own, so that steps which note nothing can
be said to end alike, whatever the levels of the two runs are.
-/

namespace Sprig

/-- Whether the bodies of all functions name the parameters of what they declare. -/
def State.HasNamed (s : State) : Prop :=
  ∀ name function, s.functions.get? name = some function → function.body.Named

/-- The limits of two runs, where those of the second are no tighter than those of the first. -/
structure Easing where
  /-- The limits of the first run. -/
  tight : Limits
  /-- The limits of the second run. -/
  loose : Limits
  /-- Whether all declarations are known to name their parameters. -/
  named : Prop
  /-- Whether the second run may have more fuel. -/
  spare : Prop
  /-- Whether the first run may stop at an event that it alone notes. -/
  fragile : Prop
  depth_le : tight.depth ≤ loose.depth
  traceLevel_le : loose.traceLevel ≤ tight.traceLevel
  eq_of_spare : spare → tight = loose

namespace Easing

variable (E : Easing)

/-- The faults with which the first run may stop alone, by the arrays at the fault. -/
inductive Stops (heap : Heap) : Fault → Prop
  | depthExceeded (kind : NodeKind) (h : E.tight.depth < E.loose.depth) :
      Stops heap (.depthExceeded E.tight.depth kind)
  | textTooDeep {v : Value} (h : v.display? heap E.tight.textAllowance = none)
      (hcause : E.tight.depth < E.loose.depth ∨
        E.fragile ∧ E.loose.traceLevel < E.tight.traceLevel) : Stops heap .textTooDeep
  | misshapen (hfragile : E.fragile) (h : ¬E.named) (hloose : E.loose.traceLevel < 2)
      (htight : 2 ≤ E.tight.traceLevel) : Stops heap .misshapen

/-- Whether two states are the same but for the events noted since the runs began. -/
structure Alike (base : List Event) (s t : State) : Prop where
  same : ∃ trace, t = { s with trace }
  named : E.named → s.HasNamed
  traces : ∃ events, s.trace.toList = base ++ events ∧
    t.trace.toList = base ++ events.filter (·.level ≤ E.loose.traceLevel) ∧
    ∀ event ∈ events, event.level ≤ E.tight.traceLevel

/-- Whether the first run may have stopped alone in one state and the second have gone on to
another. -/
structure Ahead (fault : Fault) (s t : State) : Prop where
  stops : E.Stops s.heap fault
  printed : s.printed.toList <+: t.printed.toList
  named : E.named → t.HasNamed

/-- The coupling of two runs that began with the same events. -/
def coupling (base : List Event) : Coupling where
  first := E.tight
  second := E.loose
  states := E.Alike base
  faults := Eq
  early := E.Ahead
  spare := E.spare
  not_early_of_spare := by
    rintro hspare fault s t ⟨stops, -, -⟩
    have h := E.eq_of_spare hspare
    cases stops with
    | depthExceeded kind hlt => exact absurd hlt (by rw [h]; exact Int.lt_irrefl _)
    | textTooDeep _ hcause =>
        rw [h] at hcause
        omega
    | misshapen _ _ hloose htight =>
        rw [h] at htight
        omega

/-- Whether what is known of all declarations is known of those inside a tree. -/
def Fits (tree : Tree) : Prop := E.named → tree.Named

variable {E} {base : List Event} {α β : Type}

theorem Alike.refl {s : State} (h : E.named → s.HasNamed) : E.Alike s.trace.toList s s where
  same := ⟨s.trace, rfl⟩
  named := h
  traces := ⟨[], by simp⟩

/-- An event of a level that the second run does not note is none of its own. -/
theorem Alike.push {s t : State} (hs : E.Alike base s t) {event : Event}
    (hloose : E.loose.traceLevel < event.level) (htight : event.level ≤ E.tight.traceLevel) :
    E.Alike base { s with trace := s.trace.push event } t := by
  obtain ⟨⟨trace, rfl⟩, named, events, hfirst, hsecond, hlevels⟩ := hs
  refine ⟨⟨trace, rfl⟩, named, events ++ [event], ?_, ?_, ?_⟩
  · simp [hfirst]
  · have hnone : ¬event.level ≤ E.loose.traceLevel := by omega
    simpa [hnone] using hsecond
  · simpa [or_imp, forall_and, htight] using hlevels

/-- What stopped the first run does not depend on more than the arrays. -/
theorem Ahead.of_heap {fault : Fault} {s s' t : State} (h : E.Ahead fault s t)
    (hheap : s'.heap = s.heap) (hprinted : s'.printed = s.printed) : E.Ahead fault s' t where
  stops := hheap ▸ h.stops
  printed := hprinted ▸ h.printed
  named := h.named

end Easing

/-- A larger depth comes with a larger allowance for texts. -/
theorem Limits.textAllowance_mono {limits others : Limits} (h : limits.depth ≤ others.depth) :
    limits.textAllowance ≤ others.textAllowance := by
  simp only [textAllowance]
  omega

namespace Run

variable {E : Easing} {base : List Event} {α : Type}

/-- A step that the trace has no part in goes side by side with itself. -/
theorem couples_step {part : State → α} {f : State → State}
    (hpart : ∀ s trace, part { s with trace } = part s)
    (hf : ∀ s trace, f { s with trace } = { f s with trace })
    (hprinted : ∀ s, s.printed.toList <+: (f s).printed.toList)
    (hnamed : ∀ s, E.named → s.HasNamed → (f s).HasNamed) :
    Couples (E.coupling base) Eq (fun _ s => .done (part s) (f s))
      (fun _ s => .done (part s) (f s)) where
  together {s t} hs := by
    have htrace : ∀ s, (f s).trace = s.trace := fun s => by rw [show f s = _ from hf s s.trace]
    obtain ⟨⟨trace, rfl⟩, named, traces⟩ := hs
    refine .done (hpart s trace).symm ⟨⟨trace, hf s trace⟩, fun h => hnamed s h (named h), ?_⟩
    simpa only [htrace] using traces
  behind ht :=
    ⟨⟨_, rfl⟩, ht.stops, ht.printed.trans (hprinted _), fun h => hnamed _ h (ht.named h)⟩

theorem couples_read {part : State → α} (h : ∀ s trace, part { s with trace } = part s) :
    Couples (E.coupling base) Eq (read part) (read part) :=
  couples_step h (fun _ _ => rfl) (fun _ => List.prefix_refl _) fun _ _ hs => hs

/-- A change of variables or arrays goes side by side with itself. -/
theorem couples_change {f : State → State} (hf : ∀ s trace, f { s with trace } = { f s with trace })
    (hprinted : ∀ s, (f s).printed = s.printed) (hfunctions : ∀ s, (f s).functions = s.functions) :
    Couples (E.coupling base) Eq (change f) (change f) := by
  refine couples_step (fun _ _ => rfl) hf (fun s => ?_) fun s _ hs => ?_
  · exact hprinted s ▸ List.prefix_refl _
  · simpa only [State.HasNamed, hfunctions] using hs

theorem couples_printLine (text : String) :
    Couples (E.coupling base) Eq (printLine text) (printLine text) :=
  couples_step (fun _ _ => rfl) (fun _ _ => rfl) (fun s => by simp) fun _ _ hs => hs

/-- Declaring a function goes side by side with itself. -/
theorem couples_declare (name : Scalar) (params : Tree) {body : Tree} (h : E.Fits body) :
    let declare := change fun s => { s with functions := s.functions.set name ⟨params, body⟩ }
    Couples (E.coupling base) Eq declare declare := by
  refine couples_step (fun _ _ => rfl) (fun _ _ => rfl) (fun _ => List.prefix_refl _) ?_
  intro s hE hs other function hfunction
  rw [Table.get?_set] at hfunction
  split at hfunction
  · obtain rfl := Option.some.inj hfunction
    exact h hE
  · exact hs other function hfunction

/-- The function of a name is the same on both sides, and what is known of declarations is known of
those inside its body. -/
theorem couples_function (name : Scalar) :
    Couples (E.coupling base)
      (fun found other => found = other ∧ ∀ function, found = some function → E.Fits function.body)
      (read (·.functions.get? name)) (read (·.functions.get? name)) where
  together {s t} hs := by
    have hnamed := hs.named
    obtain ⟨trace, rfl⟩ := hs.same
    exact .done ⟨rfl, fun function hfunction hE => hnamed hE name function hfunction⟩ hs
  behind ht := ⟨⟨_, rfl, fun function hfunction hE => ht.named hE name function hfunction⟩, ht⟩

theorem couples_same_lift (result : Except Fault α) :
    Couples (E.coupling base) Eq (lift result) (lift result) :=
  couples_lift fun _ _ => rfl

theorem couples_scalarPart (tree : Tree) :
    Couples (E.coupling base) Eq (scalarPart tree) (scalarPart tree) := by
  unfold scalarPart
  split
  · exact couples_pure rfl
  · exact couples_fail rfl

theorem couples_listPart (tree : Tree) :
    Couples (E.coupling base) Eq (listPart tree) (listPart tree) := by
  unfold listPart
  split
  · exact couples_pure rfl
  · exact couples_fail rfl

/-- What is known of the declarations inside a tree is known of those inside its items. -/
theorem couples_fittingParts {tree : Tree} (h : E.Fits tree) :
    Couples (E.coupling base) (fun trees others => trees = others ∧ ∀ tree ∈ trees, E.Fits tree)
      (listPart tree) (listPart tree) := by
  unfold listPart
  split
  · next trees htrees =>
    exact couples_pure ⟨rfl, fun tree htree hE => (h hE).items htrees tree htree⟩
  · exact couples_fail rfl

/-- A text is the same on both sides, unless the allowance of the first run is too small. -/
theorem couples_text {made : Run α} (text? : Heap → Nat → Option α)
    (hmade : ∀ limits s, made limits s =
      (text? s.heap limits.textAllowance).elim (.failed .textTooDeep s) (.done · s))
    (hmono : ∀ heap allowance more, allowance ≤ more → ∀ text, text? heap allowance = some text →
      text? heap more = some text)
    (hnone : ∀ heap allowance, text? heap allowance = none →
      ∃ v : Value, v.display? heap allowance = none) :
    Couples (E.coupling base) Eq made made where
  together {s t} hs := by
    have hle := Limits.textAllowance_mono E.depth_le
    have hnamed := hs.named
    obtain ⟨trace, rfl⟩ := hs.same
    simp only [Easing.coupling, hmade]
    cases htight : text? s.heap E.tight.textAllowance with
    | some text =>
        rw [hmono _ _ _ hle text htight]
        exact .done rfl hs
    | none =>
        cases hloose : text? s.heap E.loose.textAllowance with
        | none => exact .failed rfl hs
        | some text =>
            obtain ⟨v, hv⟩ := hnone _ _ htight
            have hdepth : E.tight.depth ≠ E.loose.depth := by
              intro heq
              rw [Limits.textAllowance, heq, ← Limits.textAllowance, hloose] at htight
              cases htight
            have hlt : E.tight.depth < E.loose.depth := by
              have hle := E.depth_le
              omega
            exact .early ⟨⟨text, rfl⟩, .textTooDeep hv (.inl hlt), List.prefix_refl _, hnamed⟩
  behind {fault s t} ht := by
    rw [hmade]
    cases text? t.heap (E.coupling base).second.textAllowance with
    | some text => exact ⟨⟨text, rfl⟩, ht⟩
    | none => exact ht

theorem couples_display (v : Value) :
    Couples (E.coupling base) Eq (display v) (display v) := by
  refine couples_text (Value.display? · · v) (fun limits s => ?_)
    (fun _ _ _ hle _ htext => Value.display?_mono hle htext) fun _ _ hnone => ⟨v, hnone⟩
  unfold display
  split <;> simp [*]

theorem couples_displayAll (vs : List Value) :
    Couples (E.coupling base) Eq (displayAll vs) (displayAll vs) := by
  refine couples_text (fun heap allowance => vs.mapM (Value.display? heap allowance))
    (fun limits s => ?_) (fun _ _ _ hle _ htexts => ?_)
    fun _ _ hnone => (Value.exists_mem_display?_eq_none hnone).imp fun _ hv => hv.2
  · unfold displayAll
    split <;> simp [*]
  · exact Value.mapM_mono (fun _ _ htext => Value.display?_mono hle htext) htexts

section Events

theorem couples_textParts (trees : List Tree) :
    Couples (E.coupling base) Eq (textParts trees) (textParts trees) := by
  rcases textParts_cases trees with ⟨names, -, hnames⟩ | ⟨-, hfail⟩
  · rw [hnames]
    exact couples_pure rfl
  · rw [hfail]
    exact couples_fail rfl

/-- Both runs make the same event of a draft. -/
theorem couples_event (draft : Draft) :
    Couples (E.coupling base) (fun event other => event = other ∧ event.level = draft.level)
      draft.event draft.event := by
  cases draft with
  | executing label => exact couples_pure ⟨rfl, rfl⟩
  | calling name args =>
      exact couples_next (couples_displayAll args) fun texts => couples_pure ⟨rfl, rfl⟩
  | defined name params =>
      exact couples_next (couples_listPart params) fun trees =>
        couples_next (couples_textParts trees) fun names => couples_pure ⟨rfl, rfl⟩
  | elementSet array index v =>
      exact couples_next (couples_display index) fun text =>
        couples_next (couples_display v) fun other => couples_pure ⟨rfl, rfl⟩
  | returned _ v | assigned _ v | bound _ v | branchTested v | loopTested v
  | methodAnswered _ _ v =>
      exact couples_next (couples_display v) fun text => couples_pure ⟨rfl, rfl⟩

/-- Adds an event to the trace. -/
def push (event : Event) : Run Unit := change fun s => { s with trace := s.trace.push event }

theorem note_of_le {level : Nat} {limits : Limits} (h : level ≤ limits.traceLevel)
    (event : Run Event) (s : State) :
    note level event limits s = (event >>= push) limits s := if_neg (Nat.not_lt.mpr h)

/-- An event that both runs note stays with both. -/
theorem couples_push {event : Event} (h : event.level ≤ E.loose.traceLevel) :
    Couples (E.coupling base) Eq (push event) (push event) where
  together hs := by
    obtain ⟨⟨trace, rfl⟩, named, events, hfirst, hsecond, hlevels⟩ := hs
    refine .done rfl ⟨⟨_, rfl⟩, named, events ++ [event], ?_, ?_, ?_⟩
    · simp [hfirst]
    · have htrace : trace.toList = base ++ events.filter (·.level ≤ E.loose.traceLevel) := hsecond
      simp [h, htrace]
    · have htight := Nat.le_trans h E.traceLevel_le
      simpa [or_imp, forall_and, htight] using hlevels
  behind ht := ⟨⟨(), rfl⟩, ht.stops, ht.printed, ht.named⟩

/-- An event that only the first run notes is noted by it, or stops it. -/
theorem couples_note_alone {draft : Draft} (h : E.named → draft.IsNamed) (hfragile : E.fragile)
    (hloose : E.loose.traceLevel < draft.level) :
    Couples (E.coupling base) Eq (note draft.level draft.event) (note draft.level draft.event) where
  together {s t} hs := by
    have hsecond : note draft.level draft.event (E.coupling base).second t = .done () t :=
      note_of_lt hloose ..
    rw [hsecond]
    rcases Nat.lt_or_ge E.tight.traceLevel draft.level with htight | htight
    · have hfirst : note draft.level draft.event (E.coupling base).first s = .done () s :=
        note_of_lt htight ..
      rw [hfirst]
      exact .done rfl hs
    · have hfirst : note draft.level draft.event (E.coupling base).first s =
          (draft.event >>= push) E.tight s := note_of_le htight ..
      have hstops : ∀ fault, E.Stops s.heap fault →
          (Outcome.failed fault s).Coupled (E.coupling base) Eq (.done () t) := by
        intro fault hstops
        have hnamed := hs.named
        obtain ⟨trace, rfl⟩ := hs.same
        exact .early ⟨⟨(), rfl⟩, hstops, List.prefix_refl _, hnamed⟩
      have hlt : E.loose.traceLevel < E.tight.traceLevel := Nat.lt_of_lt_of_le hloose htight
      have hends := draft.ends_event E.tight s
      rw [hfirst, bind_apply]
      generalize draft.event E.tight s = made at hends ⊢
      cases hends with
      | made hlevel =>
          exact .done rfl (hs.push (hlevel ▸ hloose) (hlevel ▸ htight))
      | noText _ hnone => exact hstops _ (.textTooDeep hnone (.inr ⟨hfragile, hlt⟩))
      | noNames hnames =>
          cases draft with
          | defined name params =>
              exact hstops _ (.misshapen hfragile (fun hE => hnames (h hE)) hloose htight)
          | _ => exact absurd trivial hnames
  behind {fault s t} ht := by
    have hsecond : note draft.level draft.event (E.coupling base).second t = .done () t :=
      note_of_lt hloose ..
    rw [hsecond]
    exact ⟨⟨(), rfl⟩, ht⟩

/-- An event that both runs note is noted side by side. -/
theorem couples_note_both {draft : Draft} (hloose : draft.level ≤ E.loose.traceLevel) :
    Couples (E.coupling base) Eq (note draft.level draft.event) (note draft.level draft.event) := by
  have hboth : Couples (E.coupling base) Eq (draft.event >>= push) (draft.event >>= push) := by
    apply couples_bind (couples_event draft)
    rintro event _ ⟨rfl, hlevel⟩
    exact couples_push (hlevel ▸ hloose)
  have htight : draft.level ≤ E.tight.traceLevel := Nat.le_trans hloose E.traceLevel_le
  have hfirst : ∀ s, note draft.level draft.event (E.coupling base).first s =
      (draft.event >>= push) E.tight s := note_of_le htight draft.event
  have hsecond : ∀ t, note draft.level draft.event (E.coupling base).second t =
      (draft.event >>= push) E.loose t := note_of_le hloose draft.event
  refine ⟨fun {s t} hs => ?_, fun {fault s t} ht => ?_⟩
  · rw [hfirst, hsecond]
    exact hboth.together hs
  · rw [hsecond]
    exact hboth.behind ht

/-- Events are noted side by side, up to those that only the first run notes. -/
theorem couples_note (hfragile : E.fragile) (draft : Draft)
    (h : E.named → draft.IsNamed := by exact fun _ => trivial) :
    Couples (E.coupling base) Eq (note draft.level draft.event) (note draft.level draft.event) := by
  rcases Nat.lt_or_ge E.loose.traceLevel draft.level with hloose | hloose
  · exact couples_note_alone h hfragile hloose
  · exact couples_note_both hloose

end Events

/-- The ending of a node whose parts ended in a way. -/
def leave : Outcome α → Outcome α
  | .done v after => .done v { after with depth := after.depth - 1 }
  | .failed fault after => .failed fault { after with depth := after.depth - 1 }
  | .outOfFuel after => .outOfFuel after

theorem nested_apply (kind : NodeKind) (work : Run α) (limits : Limits) (s : State) :
    nested kind work limits s =
      if limits.depth < (s.depth : Int) + 1 then .failed (.depthExceeded limits.depth kind) s
      else leave (work limits { s with depth := s.depth + 1 }) := by
  unfold nested leave
  split
  · rfl
  · cases work limits { s with depth := s.depth + 1 } <;> rfl

theorem ends_leave {fault : Fault} {s : State} {P : α → Prop} {outcome : Outcome α}
    (h : outcome.Ends P (E.Ahead fault s)) : (leave outcome).Ends P (E.Ahead fault s) := by
  cases outcome with
  | done v mid => exact ⟨h.1, h.2.stops, h.2.printed, h.2.named⟩
  | failed _ mid => exact ⟨h.stops, h.printed, h.named⟩
  | outOfFuel mid => exact h

theorem coupled_leave {outcome other : Outcome α} (h : outcome.Coupled (E.coupling base) Eq other) :
    (leave outcome).Coupled (E.coupling base) Eq (leave other) := by
  have hstates : ∀ {s t : State}, E.Alike base s t →
      E.Alike base { s with depth := s.depth - 1 } { t with depth := t.depth - 1 } := by
    rintro s _ ⟨⟨trace, rfl⟩, named, traces⟩
    exact ⟨⟨trace, rfl⟩, named, traces⟩
  cases h with
  | done values states => exact .done values (hstates states)
  | failed faults states => exact .failed faults (hstates states)
  | outOfFuel states => exact .outOfFuel states
  | @early fault s _ ends =>
      have hends := ends_leave ends
      refine .early ?_
      cases hother : leave other with
      | done w mid =>
          rw [hother] at hends
          exact ⟨hends.1, hends.2.of_heap rfl rfl⟩
      | failed _ mid =>
          rw [hother] at hends
          exact hends.of_heap rfl rfl
      | outOfFuel mid =>
          rw [hother] at hends
          exact hends.of_heap rfl rfl
  | spare hspare => exact .spare hspare

/-- Nodes are worked on side by side, unless a node is too deep for the first run alone. -/
theorem couples_nested (kind : NodeKind) {work other : Run α}
    (h : Couples (E.coupling base) Eq work other) :
    Couples (E.coupling base) Eq (nested kind work) (nested kind other) := by
  have hbehind : ∀ {fault s t}, E.Ahead fault s t →
      (nested kind other E.loose t).Ends (fun w => ∃ v, v = w) (E.Ahead fault s) := by
    intro fault s t ht
    rw [nested_apply]
    split
    · exact ht
    · exact ends_leave (h.behind ⟨ht.stops, ht.printed, ht.named⟩)
  refine ⟨fun {s t} hs => ?_, hbehind⟩
  have hnamed := hs.named
  have hinner : E.Alike base { s with depth := s.depth + 1 } { t with depth := t.depth + 1 } := by
    obtain ⟨⟨trace, rfl⟩, named, traces⟩ := hs
    exact ⟨⟨trace, rfl⟩, named, traces⟩
  obtain ⟨trace, rfl⟩ := hs.same
  have hdepth := E.depth_le
  by_cases htight : E.tight.depth < (s.depth : Int) + 1
  · have hfirst : nested kind work (E.coupling base).first s =
        .failed (.depthExceeded E.tight.depth kind) s := by
      rw [nested_apply]
      exact if_pos htight
    rw [hfirst]
    -- Both runs stop here if they have the same limit, and otherwise the first one alone may.
    by_cases heq : E.tight.depth = E.loose.depth
    · have hsecond : nested kind other (E.coupling base).second { s with trace } =
          .failed (.depthExceeded E.tight.depth kind) { s with trace } := by
        rw [nested_apply, heq]
        exact if_pos (heq ▸ htight)
      rw [hsecond]
      exact .failed rfl hs
    · have hlt : E.tight.depth < E.loose.depth := by omega
      exact .early (hbehind ⟨.depthExceeded kind hlt, List.prefix_refl _, hnamed⟩)
  · have hloose : ¬E.loose.depth < (s.depth : Int) + 1 := by omega
    have hfirst : nested kind work (E.coupling base).first s =
        leave (work E.tight { s with depth := s.depth + 1 }) := by
      rw [nested_apply]
      exact if_neg htight
    have hsecond : nested kind other (E.coupling base).second { s with trace } =
        leave (other E.loose { s with trace, depth := s.depth + 1 }) := by
      rw [nested_apply]
      exact if_neg hloose
    rw [hfirst, hsecond]
    exact coupled_leave (h.together hinner)

end Run

end Sprig
