import Sprig.Proofs.Environment.Related
import Sprig.Proofs.Run.Easing
import Sprig.Proofs.Run.SharedArrays
import Sprig.Proofs.Tree.Recast

/-!
# Runs at different depths

Two runs of the same work need not be equally deep. Here the second one may be deeper, by a number
of nodes that changes on the way, and may be stopped by the depth limit alone. Until then the
variables, the arrays and what is printed are the same in both, and the bodies of the functions of
the second one are those of the first one recast.

## Implementation notes

A coupling has one relation between states and one way to compare fuel. The depths of both runs, and
which of them may be out of fuel first, are parameters here: the depths are exact at every step,
since a looser relation would be lost when the runs leave different numbers of nodes.
-/

namespace Sprig

/-- Whether a function has the body of another one recast. -/
def Function.Recast (function other : Function) : Prop :=
  function.params = other.params ∧ function.body.Recast other.body

/-- Which of two runs may be out of fuel while the other goes on. -/
inductive Scarce
  | first
  | second
deriving DecidableEq

/-- The fuel of two runs, of which the second one may spend two units where the first spends one. -/
def Scarce.Fuels : Scarce → (fuel others : Nat) → Prop
  | .first, fuel, others => 2 * fuel ≤ others
  | .second, fuel, others => others ≤ fuel

namespace Scarce

variable {scarce : Scarce} {fuel others more : Nat}

theorem fuels_zero (h : scarce.Fuels 0 others) :
    scarce = .first ∨ scarce = .second ∧ others = 0 := by
  cases scarce with
  | first => exact .inl rfl
  | second => exact .inr ⟨rfl, Nat.le_zero.mp h⟩

/-- When both spend one unit, the second one has none, or both have enough left. -/
theorem fuels_succ (h : scarce.Fuels (fuel + 1) others) :
    scarce = .second ∧ others = 0 ∨ ∃ more, others = more + 1 ∧ scarce.Fuels fuel more := by
  cases others with
  | zero =>
      cases scarce with
      | first => simp [Fuels] at h
      | second => exact .inl ⟨rfl, rfl⟩
  | succ more =>
      refine .inr ⟨more, rfl, ?_⟩
      cases scarce <;> simp only [Fuels] at h ⊢ <;> omega

/-- The second one may spend another unit. -/
theorem fuels_again (h : scarce.Fuels (fuel + 1) (more + 1)) :
    scarce = .second ∧ more = 0 ∨ ∃ fewer, more = fewer + 1 ∧ scarce.Fuels fuel fewer := by
  cases more with
  | zero =>
      cases scarce with
      | first => simp only [Fuels] at h; omega
      | second => exact .inl ⟨rfl, rfl⟩
  | succ fewer =>
      refine .inr ⟨fewer, rfl, ?_⟩
      cases scarce <;> simp only [Fuels] at h ⊢ <;> omega

end Scarce

/-- Where two runs stand to each other. -/
structure Offset where
  /-- What both runs are bound to. -/
  limits : Limits
  /-- Which of them may be out of fuel. -/
  scarce : Scarce
  /-- The depth of the first run. -/
  depth : Nat
  /-- The depth of the second run. -/
  deeper : Nat
  depth_le : depth ≤ deeper

namespace Offset

/-- Both runs inside of one more node. -/
def inside (O : Offset) : Offset :=
  { O with depth := O.depth + 1, deeper := O.deeper + 1, depth_le := Nat.succ_le_succ O.depth_le }

/-- The second run inside of one more node. -/
def below (O : Offset) : Offset :=
  { O with deeper := O.deeper + 1, depth_le := Nat.le_succ_of_le O.depth_le }

/-- Whether two states are those of runs with an offset. -/
structure Alike (O : Offset) (s t : State) : Prop where
  bindings : s.bindings = t.bindings
  functions : s.functions.Related Function.Recast t.functions
  heap : s.heap = t.heap
  printed : s.printed = t.printed
  depth : s.depth = O.depth
  deeper : t.depth = O.deeper

/-- The runs with an offset as long as none of them is stopped. -/
def coupling (O : Offset) : Coupling := .lockstep O.limits O.Alike

end Offset

/-- Whether two steps ended alike, unless the second one went too deep or fuel was scarce. -/
inductive Outcome.Matched {α β : Type} (O : Offset) (P : α → β → Prop) :
    Outcome α → Outcome β → Prop
  | done {v w s t} (values : P v w) (states : O.Alike s t) : Matched O P (.done v s) (.done w t)
  | failed {fault s t} (states : O.Alike s t) : Matched O P (.failed fault s) (.failed fault t)
  | tooDeep {outcome fault t} (h : fault.category? = some .recursionLimit) :
      Matched O P outcome (.failed fault t)
  | firstSpent {outcome s} (h : O.scarce = .first) : Matched O P (.outOfFuel s) outcome
  | secondSpent {outcome t} (h : O.scarce = .second) : Matched O P outcome (.outOfFuel t)

namespace Run

variable {α β γ δ : Type} {O : Offset} {P : α → β → Prop} {Q : γ → δ → Prop}

/-- Whether two steps go side by side with an offset. -/
def Matches (O : Offset) (P : α → β → Prop) (run : Run α) (other : Run β) : Prop :=
  ∀ s t, O.Alike s t → (run O.limits s).Matched O P (other O.limits t)

theorem matches_of_couples {run : Run α} {other : Run β} (h : Couples O.coupling P run other) :
    Matches O P run other := by
  intro s t hs
  have hends := h.together hs
  change (run O.limits s).Coupled O.coupling P (other O.limits t) at hends
  generalize run O.limits s = outcome at hends
  generalize other O.limits t = outcome' at hends
  cases hends with
  | done values states => exact .done values states
  | @failed fault _ _ _ faults states =>
      obtain rfl : fault = _ := faults
      exact .failed states
  | outOfFuel =>
      cases hscarce : O.scarce with
      | first => exact .firstSpent hscarce
      | second => exact .secondSpent hscarce
  | early ends => exact ends.after.elim
  | spare h => exact h.elim

theorem matches_bind {run : Run α} {other : Run β} {next : α → Run γ} {others : β → Run δ}
    (h : Matches O P run other) (hnext : ∀ v w, P v w → Matches O Q (next v) (others w)) :
    Matches O Q (run >>= next) (other >>= others) := by
  intro s t hs
  have hfirst := h s t hs
  rw [bind_apply, bind_apply]
  generalize run O.limits s = outcome at hfirst
  generalize other O.limits t = outcome' at hfirst
  cases hfirst with
  | done values states => exact hnext _ _ values _ _ states
  | failed states => exact .failed states
  | tooDeep hfault => exact .tooDeep hfault
  | firstSpent hscarce => exact .firstSpent hscarce
  | secondSpent hscarce => exact .secondSpent hscarce

theorem matches_next {run other : Run α} {next : α → Run γ} {others : α → Run δ}
    (h : Matches O Eq run other) (hnext : ∀ v, Matches O Q (next v) (others v)) :
    Matches O Q (run >>= next) (other >>= others) := by
  apply matches_bind h
  rintro v _ rfl
  exact hnext v

theorem matches_pure {v : α} {w : β} (h : P v w) : Matches O P (pure v) (pure w) :=
  fun _ _ hs => .done h hs

theorem matches_fail (fault : Fault) : Matches O P (fail fault) (fail fault) :=
  fun _ _ hs => .failed hs

theorem matches_lift (result : Except Fault α) : Matches O Eq (lift result) (lift result) := by
  cases result with
  | ok v => exact matches_pure rfl
  | error fault => exact matches_fail fault

theorem matches_firstSpent (h : O.scarce = .first) (other : Run β) : Matches O P spent other :=
  fun _ _ _ => .firstSpent h

theorem matches_secondSpent (h : O.scarce = .second) (run : Run α) : Matches O P run spent :=
  fun _ _ _ => .secondSpent h

theorem matches_read {part : State → α} {other : State → β}
    (h : ∀ s t, O.Alike s t → P (part s) (other t)) : Matches O P (read part) (read other) :=
  fun s t hs => .done (h s t hs) hs

theorem matches_change {f g : State → State} (h : ∀ s t, O.Alike s t → O.Alike (f s) (g t)) :
    Matches O Eq (change f) (change g) :=
  fun s t hs => .done rfl (h s t hs)

section Nodes

/-- The ending of a step whose state is changed after it. -/
def changed (f : State → State) : Outcome α → Outcome α
  | .done v after => .done v (f after)
  | .failed fault after => .failed fault (f after)
  | .outOfFuel after => .outOfFuel after

theorem leave_eq_changed (outcome : Outcome α) :
    leave outcome = changed (fun s => { s with depth := s.depth - 1 }) outcome := by
  cases outcome <;> rfl

theorem changed_id (outcome : Outcome α) : changed id outcome = outcome := by
  cases outcome <;> rfl

theorem matched_changed {inner : Offset} {outcome : Outcome α} {other : Outcome β}
    {f g : State → State} (hscarce : inner.scarce = O.scarce)
    (hstates : ∀ s t, inner.Alike s t → O.Alike (f s) (g t)) (h : outcome.Matched inner P other) :
    (changed f outcome).Matched O P (changed g other) := by
  cases h with
  | done values states => exact .done values (hstates _ _ states)
  | failed states => exact .failed (hstates _ _ states)
  | tooDeep hfault => exact .tooDeep hfault
  | firstSpent hfirst => exact .firstSpent (hscarce ▸ hfirst)
  | secondSpent hsecond => exact .secondSpent (hscarce ▸ hsecond)

/-- The second run goes into one more node than the first. -/
theorem matches_below (kind : NodeKind) {run : Run α} {other : Run β}
    (h : Matches O.below P run other) : Matches O P run (nested kind other) := by
  intro s t hs
  rw [nested_apply]
  split
  · exact .tooDeep rfl
  · rw [← changed_id (run O.limits s), leave_eq_changed]
    refine matched_changed (show O.below.scarce = O.scarce from rfl) ?_
      (h s _ { hs with deeper := congrArg (· + 1) hs.deeper })
    exact fun s t hs => { hs with deeper := congrArg (· - 1) hs.deeper }

/-- Both runs go into a node. Where the first one may not, the second may not either. -/
theorem matches_nested (kind kind' : NodeKind) {run : Run α} {other : Run β}
    (h : Matches O.inside P run other) :
    Matches O P (nested kind run) (nested kind' other) := by
  intro s t hs
  have hdepth := hs.depth
  have hdeeper := hs.deeper
  have hle := O.depth_le
  rw [nested_apply, nested_apply]
  by_cases hsecond : O.limits.depth < (t.depth : Int) + 1
  · rw [if_pos hsecond]
    exact .tooDeep rfl
  · rw [if_neg hsecond, if_neg (by omega), leave_eq_changed, leave_eq_changed]
    refine matched_changed (show O.inside.scarce = O.scarce from rfl) ?_ (h _ _ { hs with
      depth := congrArg (· + 1) hdepth, deeper := congrArg (· + 1) hdeeper })
    exact fun s t hs => { hs with
      depth := congrArg (· - 1) hs.depth, deeper := congrArg (· - 1) hs.deeper }

end Nodes

section Operations

/-- Runs with an offset have the same arrays. -/
theorem offset_sharesArrays : O.coupling.SharesArrays where
  read part := couples_lockstep fun hs => .done (congrArg part hs.heap) hs
  change f := couples_lockstep fun hs => .done rfl { hs with heap := congrArg f hs.heap }
  display v := couples_lockstep fun {s t} hs => by
    unfold display
    rw [hs.heap]
    split
    · exact .done rfl hs
    · exact .failed rfl hs
  displayAll vs := couples_lockstep fun {s t} hs => by
    unfold displayAll
    rw [hs.heap]
    split
    · exact .done rfl hs
    · exact .failed rfl hs
  faults _ _ := rfl

theorem matches_scalarPart (tree : Tree) : Matches O Eq (scalarPart tree) (scalarPart tree) := by
  cases tree with
  | scalar value => exact matches_pure rfl
  | _ => exact matches_fail _

theorem matches_listPart {tree other : Tree} (h : tree.Recast other) :
    Matches O (List.Forall₂ Tree.Recast) (listPart tree) (listPart other) := by
  unfold listPart
  have hitems := h.items?
  generalize tree.items? = items at hitems
  generalize other.items? = others at hitems
  cases hitems with
  | none => exact matches_fail _
  | some htrees => exact matches_pure htrees

theorem matches_sameList (tree : Tree) : Matches O Eq (listPart tree) (listPart tree) := by
  unfold listPart
  split
  · exact matches_pure rfl
  · exact matches_fail _

theorem matches_textParts (trees : List Tree) :
    Matches O Eq (textParts trees) (textParts trees) := by
  rcases textParts_cases trees with ⟨names, -, hnames⟩ | ⟨-, hfail⟩
  · rw [hnames]
    exact matches_pure rfl
  · rw [hfail]
    exact matches_fail _

theorem matches_display (v : Value) : Matches O Eq (display v) (display v) :=
  matches_of_couples (offset_sharesArrays.display v)

theorem matches_displayAll (vs : List Value) : Matches O Eq (displayAll vs) (displayAll vs) :=
  matches_of_couples (offset_sharesArrays.displayAll vs)

theorem matches_lookup (name : Scalar) : Matches O Eq (lookup name) (lookup name) := by
  refine matches_next (matches_read fun s t hs => by rw [hs.bindings]) fun v? => ?_
  cases v? with
  | none => exact matches_fail _
  | some v => exact matches_pure rfl

theorem matches_lookupArray (name : Scalar) :
    Matches O Eq (lookupArray name) (lookupArray name) := by
  apply matches_next (matches_lookup name)
  intro v
  cases v with
  | array address => exact matches_pure rfl
  | _ => exact matches_fail _

theorem matches_assign (name : Scalar) (v : Value) :
    Matches O Eq (assign name v) (assign name v) :=
  matches_change fun _ _ hs => { hs with bindings := congrArg (·.set name v) hs.bindings }

theorem matches_restore (kept : Table Value) :
    let restore := change fun s => { s with bindings := kept }
    Matches O Eq restore restore :=
  matches_change fun _ _ hs => { hs with bindings := rfl }

theorem matches_printLine (text : String) : Matches O Eq (printLine text) (printLine text) :=
  matches_change fun _ _ hs => { hs with printed := congrArg (·.push (text ++ "\n")) hs.printed }

theorem matches_declare (name : Scalar) (params : Tree) {body other : Tree}
    (h : body.Recast other) :
    Matches O Eq (change fun s => { s with functions := s.functions.set name ⟨params, body⟩ })
      (change fun s => { s with functions := s.functions.set name ⟨params, other⟩ }) :=
  matches_change fun _ _ hs => { hs with functions := hs.functions.set name ⟨rfl, h⟩ }

theorem matches_function (name : Scalar) :
    Matches O (Option.Rel Function.Recast) (read (·.functions.get? name))
      (read (·.functions.get? name)) :=
  matches_read fun _ _ hs => hs.functions.get? name

/-- Events may differ, since nothing depends on them. -/
theorem matches_note (level : Nat) {event other : Run Event}
    (h : Matches O (fun _ _ => True) event other) :
    Matches O Eq (note level event) (note level other) := by
  intro s t hs
  unfold note
  split
  · exact .done rfl hs
  · refine matches_bind h (fun _ _ _ => matches_change fun s t hs => ?_) s t hs
    exact ⟨hs.bindings, hs.functions, hs.heap, hs.printed, hs.depth, hs.deeper⟩

theorem matches_noteText (level : Nat) (v : Value) (event : String → Event) :
    Matches O Eq (note level (do return event (← display v)))
      (note level (do return event (← display v))) :=
  matches_note level (matches_next (matches_display v) fun _ => matches_pure trivial)

theorem matches_bindAll (params : List Tree) (args : List Value) :
    Matches O Eq (bindAll params args) (bindAll params args) := by
  induction params generalizing args with
  | nil => exact matches_pure rfl
  | cons param params ih =>
      apply matches_next (matches_scalarPart param)
      intro name
      apply matches_next (matches_assign name _)
      intro _
      apply matches_next (matches_noteText 2 _ _)
      exact fun _ => ih args.tail

end Operations

section Sequences

variable {statement statement' : Tree → Run Completion} {value value' : Tree → Run Value}

theorem matches_values (h : ∀ tree, Matches O Eq (value tree) (value' tree)) (trees : List Tree) :
    Matches O Eq (values value trees) (values value' trees) := by
  induction trees with
  | nil => exact matches_pure rfl
  | cons tree trees ih =>
      exact matches_next (h tree) fun _ => matches_next ih fun _ => matches_pure rfl

theorem matches_block {trees others : List Tree} (htrees : List.Forall₂ Tree.Recast trees others)
    (h : ∀ {tree other}, tree.Recast other → Matches O Eq (statement tree) (statement' other))
    (last : Completion) :
    Matches O Eq (block statement last trees) (block statement' last others) := by
  induction htrees generalizing last with
  | nil => exact matches_pure rfl
  | cons head _ ih =>
      apply matches_next (h head)
      intro completion
      split
      · exact matches_pure rfl
      · exact ih completion

theorem matches_repeatWhile {test test' : Run Bool} {body body' : Run Completion}
    (htest : Matches O Eq test test') (hbody : Matches O Eq body body') {fuel others : Nat}
    (hfuel : O.scarce.Fuels fuel others) (last : Completion) :
    Matches O Eq (repeatWhile test body fuel last) (repeatWhile test' body' others last) := by
  induction fuel generalizing others last with
  | zero =>
      rcases Scarce.fuels_zero hfuel with hfirst | ⟨hsecond, rfl⟩
      · exact matches_firstSpent hfirst _
      · exact matches_secondSpent hsecond _
  | succ fuel ih =>
      rcases Scarce.fuels_succ hfuel with ⟨hsecond, rfl⟩ | ⟨more, rfl, hmore⟩
      · exact matches_secondSpent hsecond _
      · apply matches_next htest
        intro again
        split
        · apply matches_next hbody
          intro completion
          split
          · exact matches_pure rfl
          · exact ih hmore completion
        · exact matches_pure rfl

end Sequences

end Run

end Sprig
