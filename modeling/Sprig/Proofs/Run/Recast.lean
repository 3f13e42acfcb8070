import Mathlib
import Sprig.Proofs.Grammar.Recast
import Sprig.Proofs.Run.Offset
import Sprig.Run.Program

/-!
# Runs of programs that are recast

A program in which statements that call methods are turned into expressions runs as the program did
before, but for the node that it is deeper inside of each such call. So both have the same end, the
same variables and arrays and print the same, unless the depth limit stops the one that is recast.
-/

namespace Sprig

/-- Whether two states are the same but for the bodies of functions, which are recast, and the
events noted. -/
structure State.Recast (s t : State) : Prop where
  bindings : s.bindings = t.bindings
  functions : s.functions.Related Function.Recast t.functions
  heap : s.heap = t.heap
  printed : s.printed = t.printed
  depth : s.depth = t.depth

theorem State.Recast.refl (s : State) : s.Recast s where
  bindings := rfl
  functions := Table.related_refl (fun function => ⟨rfl, .same function.body⟩) s.functions
  heap := rfl
  printed := rfl
  depth := rfl

/-- Whether two steps end with the same value or the same fault, in states of which the second is
the first recast. -/
inductive Outcome.Recast {α : Type} : Outcome α → Outcome α → Prop
  | done {v s t} (states : s.Recast t) : Recast (.done v s) (.done v t)
  | failed {fault s t} (states : s.Recast t) : Recast (.failed fault s) (.failed fault t)

/-- Whether a step fails because it goes too deep. -/
def Outcome.GoesTooDeep {α : Type} (outcome : Outcome α) : Prop :=
  ∃ fault after, outcome = .failed fault after ∧ fault.category? = some .recursionLimit

namespace Run

variable {O : Offset} {α : Type}

/-- Whether the interpreter with some fuel goes side by side with itself on trees that are recast,
at all depths and with all the fuel that the second run may have. -/
structure Recasts (fuel : Nat) : Prop where
  evaluate {O : Offset} {others : Nat} (h : O.scarce.Fuels fuel others) (tree : Tree) :
    Matches O Eq (evaluate fuel tree) (evaluate others tree)
  callMethod {O : Offset} {others : Nat} (h : O.scarce.Fuels fuel others)
    (array method args : Tree) :
    Matches O Eq (callMethod fuel array method args) (callMethod others array method args)
  execute {O : Offset} {others : Nat} (h : O.scarce.Fuels fuel others) {tree other : Tree}
    (hrecast : tree.Recast other) : Matches O Eq (execute fuel tree) (execute others other)

section Step

variable {fuel others more : Nat}

theorem Recasts.values (h : Recasts fuel) (hfuel : O.scarce.Fuels fuel others) (args : Tree) :
    Matches O Eq (do Run.values (Run.evaluate fuel) (← listPart args))
      (do Run.values (Run.evaluate others) (← listPart args)) :=
  matches_next (matches_sameList args) fun trees => matches_values (h.evaluate hfuel) trees

theorem Recasts.block (h : Recasts fuel) (hfuel : O.scarce.Fuels fuel others) {body body' : Tree}
    (hbody : body.Recast body') :
    Matches O Eq (do Run.block (Run.execute fuel) (plain .none) (← listPart body))
      (do Run.block (Run.execute others) (plain .none) (← listPart body')) :=
  matches_bind (matches_listPart hbody) fun _ _ htrees =>
    matches_block htrees (h.execute hfuel) _

theorem matches_call (h : Recasts fuel) (hfuel : O.scarce.Fuels fuel more) (name args : Tree) :
    Matches O Eq (evaluate (fuel + 1) (.call name args))
      (evaluate (more + 1) (.call name args)) := by
  have hinside : O.inside.scarce.Fuels fuel more := hfuel
  simp only [evaluate]
  refine matches_nested _ _ (matches_next (matches_scalarPart name) fun name => ?_)
  apply matches_bind (matches_function name)
  intro function? function'? hfunction
  cases hfunction with
  | none => exact matches_fail _
  | @some function function' hbodies =>
      obtain ⟨hparams, hbody⟩ := hbodies
      dsimp only
      rw [hparams]
      simp only [← bind_assoc (listPart args)]
      apply matches_next (h.values hinside args)
      intro vs
      apply matches_next (matches_note 1
        (matches_next (matches_displayAll vs) fun _ => matches_pure trivial))
      intro _
      apply matches_next (matches_read fun s t hs => hs.bindings)
      intro kept
      apply matches_next (matches_sameList function'.params)
      intro params
      apply matches_next (matches_bindAll params vs)
      intro _
      simp only [← bind_assoc (listPart function.body), ← bind_assoc (listPart function'.body)]
      apply matches_next (h.block hinside hbody)
      intro completion
      apply matches_next (matches_restore kept)
      intro _
      apply matches_next (matches_noteText 1 completion.value _)
      exact fun _ => matches_pure rfl

theorem matches_callMethod (h : Recasts fuel) (hfuel : O.scarce.Fuels fuel more)
    (array method args : Tree) :
    Matches O Eq (callMethod (fuel + 1) array method args)
      (callMethod (more + 1) array method args) := by
  simp only [callMethod]
  apply matches_next (matches_scalarPart array)
  intro array
  apply matches_next (matches_lookupArray array)
  intro address
  simp only [← bind_assoc (listPart args)]
  apply matches_next (h.values hfuel args)
  intro vs
  apply matches_next (matches_scalarPart method)
  intro method
  apply matches_next (matches_of_couples (offset_sharesArrays.applyMethod address method vs))
  intro v
  apply matches_next (matches_noteText 3 v _)
  exact fun _ => matches_pure rfl

theorem matches_evaluate (h : Recasts fuel) (hfuel : O.scarce.Fuels fuel more) (tree : Tree) :
    Matches O Eq (evaluate (fuel + 1) tree) (evaluate (more + 1) tree) := by
  have hinside : O.inside.scarce.Fuels fuel more := hfuel
  cases tree with
  | number value | string value | boolean value =>
      simp only [evaluate]
      exact matches_nested _ _ (matches_next (matches_scalarPart value) fun _ => matches_pure rfl)
  | «variable» name =>
      simp only [evaluate]
      exact matches_nested _ _ (matches_next (matches_scalarPart name) matches_lookup)
  | unary operator operand =>
      simp only [evaluate]
      refine matches_nested _ _ (matches_next (h.evaluate hinside operand) fun v => ?_)
      exact matches_next (matches_scalarPart operator) fun operator => matches_lift _
  | binary operator left right =>
      simp only [evaluate]
      refine matches_nested _ _ (matches_next (h.evaluate hinside left) fun l => ?_)
      refine matches_next (h.evaluate hinside right) fun r => ?_
      exact matches_next (matches_scalarPart operator) fun operator =>
        matches_of_couples (offset_sharesArrays.applyBinary operator l r)
  | comparison operator left right =>
      simp only [evaluate]
      refine matches_nested _ _ (matches_next (h.evaluate hinside left) fun l => ?_)
      refine matches_next (h.evaluate hinside right) fun r => ?_
      exact matches_next (matches_scalarPart operator) fun operator => matches_lift _
  | arrayLiteral elements =>
      simp only [evaluate, ← bind_assoc (listPart elements)]
      refine matches_nested _ _ (matches_next (h.values hinside elements) fun vs => ?_)
      exact matches_of_couples (offset_sharesArrays.newArray _)
  | elementAccess array index =>
      simp only [evaluate]
      refine matches_nested _ _ (matches_next (matches_scalarPart array) fun array => ?_)
      refine matches_next (matches_lookupArray array) fun address => ?_
      exact matches_next (h.evaluate hinside index) fun index =>
        matches_of_couples (offset_sharesArrays.elementAt address index)
  | methodExpression array method args =>
      simp only [evaluate]
      exact matches_nested _ _ (h.callMethod hinside array method args)
  | arrayProperty array property =>
      simp only [evaluate]
      refine matches_nested _ _ (matches_next (matches_scalarPart array) fun array => ?_)
      refine matches_next (matches_lookupArray array) fun address => ?_
      exact matches_next (matches_scalarPart property) fun property =>
        matches_of_couples (offset_sharesArrays.applyProperty address property)
  | call name args => exact matches_call h hfuel name args
  | _ =>
      simp only [evaluate]
      exact matches_fail _

/-- The call of a method is one node deeper, and spends one more unit of fuel, as an expression. -/
theorem matches_methodCall (h : Recasts fuel) (hfuel : O.scarce.Fuels (fuel + 1) (more + 1))
    (array method args : Tree) :
    Matches O Eq (execute (fuel + 1) (.methodCall array method args))
      (execute (more + 1) (.expressionStatement (.methodExpression array method args))) := by
  simp only [execute]
  refine matches_nested _ _ (matches_next ?_ fun _ => matches_pure rfl)
  rcases Scarce.fuels_again hfuel with ⟨hsecond, rfl⟩ | ⟨fewer, rfl, hfewer⟩
  · rw [evaluate_zero]
    exact matches_secondSpent (O := O.inside) hsecond _
  · simp only [evaluate]
    exact matches_below _ (h.callMethod (O := O.inside.below) hfewer array method args)

theorem matches_ifStatement (h : Recasts fuel) (hfuel : O.scarce.Fuels fuel more)
    (condition : Tree) {body body' rest rest' : Tree} (hbody : body.Recast body')
    (hrest : rest.Recast rest') :
    Matches O Eq (execute (fuel + 1) (.ifStatement condition body rest))
      (execute (more + 1) (.ifStatement condition body' rest')) := by
  have hinside : O.inside.scarce.Fuels fuel more := hfuel
  simp only [execute]
  refine matches_nested _ _ (matches_next (h.evaluate hinside condition) fun v => ?_)
  refine matches_next (matches_noteText 3 v _) fun _ => ?_
  split
  · exact h.block hinside hbody
  · by_cases hnone : rest = .scalar .none
    · obtain rfl := (hrest.eq_scalar_iff .none).mp hnone
      subst hnone
      exact matches_pure rfl
    · have hnone' : rest' ≠ .scalar .none := fun h => hnone ((hrest.eq_scalar_iff .none).mpr h)
      simp only
      exact h.block hinside hrest

theorem matches_whileStatement (h : Recasts fuel) (hfuel : O.scarce.Fuels fuel more)
    (condition : Tree) {body body' : Tree} (hbody : body.Recast body') :
    Matches O Eq (execute (fuel + 1) (.whileStatement condition body))
      (execute (more + 1) (.whileStatement condition body')) := by
  have hinside : O.inside.scarce.Fuels fuel more := hfuel
  simp only [execute]
  refine matches_nested _ _ (matches_repeatWhile ?_ (h.block hinside hbody) hinside _)
  refine matches_next (h.evaluate hinside condition) fun v => ?_
  exact matches_next (matches_noteText 3 v _) fun _ => matches_pure rfl

theorem matches_functionDeclaration (fuel more : Nat) (name params : Tree) {body body' : Tree}
    (hbody : body.Recast body') :
    Matches O Eq (execute (fuel + 1) (.functionDeclaration name params body))
      (execute (more + 1) (.functionDeclaration name params body')) := by
  simp only [execute]
  refine matches_nested _ _ (matches_next (matches_scalarPart name) fun name => ?_)
  refine matches_next (matches_declare name params hbody) fun _ => ?_
  refine matches_next (matches_note 2 ?_) fun _ => matches_pure rfl
  refine matches_next (matches_sameList params) fun params => ?_
  exact matches_next (matches_textParts params) fun _ => matches_pure trivial

/-- A statement that is not recast itself. -/
theorem matches_sameStatement (h : Recasts fuel) (hfuel : O.scarce.Fuels fuel more) (tree : Tree) :
    Matches O Eq (execute (fuel + 1) tree) (execute (more + 1) tree) := by
  have hinside : O.inside.scarce.Fuels fuel more := hfuel
  cases tree with
  | assignment name value =>
      simp only [execute]
      refine matches_nested _ _ (matches_next (h.evaluate hinside value) fun v => ?_)
      refine matches_next (matches_scalarPart name) fun name => ?_
      refine matches_next (matches_assign name v) fun _ => ?_
      exact matches_next (matches_noteText 2 v _) fun _ => matches_pure rfl
  | print value =>
      simp only [execute]
      refine matches_nested _ _ (matches_next (h.evaluate hinside value) fun v => ?_)
      refine matches_next (matches_display v) fun text => ?_
      exact matches_next (matches_printLine text) fun _ => matches_pure rfl
  | expressionStatement expression =>
      simp only [execute]
      refine matches_nested _ _ ?_
      exact matches_next (h.evaluate hinside expression) fun _ => matches_pure rfl
  | ifStatement condition body rest =>
      exact matches_ifStatement h hfuel condition (.same body) (.same rest)
  | whileStatement condition body => exact matches_whileStatement h hfuel condition (.same body)
  | elementAssignment array index value =>
      simp only [execute]
      refine matches_nested _ _ (matches_next (matches_scalarPart array) fun array => ?_)
      refine matches_next (matches_lookupArray array) fun address => ?_
      refine matches_next (h.evaluate hinside index) fun index => ?_
      refine matches_next (h.evaluate hinside value) fun v => ?_
      refine matches_next
        (matches_of_couples (offset_sharesArrays.setElement address index v)) fun _ => ?_
      refine matches_next (matches_note 3 ?_) fun _ => matches_pure rfl
      refine matches_next (matches_display index) fun _ => ?_
      exact matches_next (matches_display v) fun _ => matches_pure trivial
  | methodCall array method args =>
      simp only [execute]
      refine matches_nested _ _ ?_
      exact matches_next (h.callMethod hinside array method args) fun _ => matches_pure rfl
  | functionDeclaration name params body =>
      exact matches_functionDeclaration fuel more name params (.same body)
  | returnStatement value =>
      simp only [execute]
      refine matches_nested _ _ ?_
      split
      · exact matches_pure rfl
      · exact matches_next (h.evaluate hinside value) fun _ => matches_pure rfl
  | _ =>
      simp only [execute]
      exact matches_fail _

theorem matches_execute (h : Recasts fuel) (hfuel : O.scarce.Fuels (fuel + 1) (more + 1))
    (hless : O.scarce.Fuels fuel more) {tree other : Tree} (hrecast : tree.Recast other) :
    Matches O Eq (execute (fuel + 1) tree) (execute (more + 1) other) := by
  cases hrecast with
  | same => exact matches_sameStatement h hless tree
  | methodCall array method args => exact matches_methodCall h hfuel array method args
  | ifStatement condition hbody hrest => exact matches_ifStatement h hless condition hbody hrest
  | whileStatement condition hbody => exact matches_whileStatement h hless condition hbody
  | functionDeclaration name params hbody =>
      exact matches_functionDeclaration fuel more name params hbody
  | list =>
      simp only [execute]
      exact matches_fail _

end Step

/-- The interpreter goes side by side with itself on trees that are recast. -/
theorem recasts_of_fuel (fuel : Nat) : Recasts fuel := by
  induction fuel with
  | zero =>
      -- The run that is out of fuel here is the one whose fuel is scarce.
      have hspent : ∀ {O : Offset} {α : Type} {others : Nat} (run : Nat → Run α),
          O.scarce.Fuels 0 others → run 0 = spent → Matches O Eq spent (run others) := by
        intro O α others run h hrun
        rcases Scarce.fuels_zero h with hfirst | ⟨hsecond, rfl⟩
        · exact matches_firstSpent hfirst _
        · rw [hrun]
          exact matches_secondSpent hsecond _
      constructor
      · intro O others h tree
        rw [evaluate_zero]
        exact hspent (evaluate · tree) h (evaluate_zero tree)
      · intro O others h array method args
        rw [callMethod]
        exact hspent (callMethod · array method args) h (by simp only [callMethod])
      · intro O others h tree other _
        rw [execute_zero]
        exact hspent (execute · other) h (execute_zero other)
  | succ fuel ih =>
      constructor
      · intro O others h tree
        rcases Scarce.fuels_succ h with ⟨hsecond, rfl⟩ | ⟨more, rfl, hless⟩
        · rw [evaluate_zero]
          exact matches_secondSpent hsecond _
        · exact matches_evaluate ih hless tree
      · intro O others h array method args
        rcases Scarce.fuels_succ h with ⟨hsecond, rfl⟩ | ⟨more, rfl, hless⟩
        · rw [callMethod.eq_def 0]
          exact matches_secondSpent hsecond _
        · exact matches_callMethod ih hless array method args
      · intro O others h tree other hrecast
        rcases Scarce.fuels_succ h with ⟨hsecond, rfl⟩ | ⟨more, rfl, hless⟩
        · rw [execute_zero]
          exact matches_secondSpent hsecond _
        · exact matches_execute ih h hless hrecast

section Programs

variable {trees others : List Tree} {limits : Limits} {s t : State} {fuel more : Nat}

theorem matches_statements (hfuel : O.scarce.Fuels fuel more)
    (h : List.Forall₂ Tree.Recast trees others) :
    Matches O Eq (statements fuel trees) (statements more others) := by
  unfold statements
  generalize Value.none = v
  induction h generalizing v with
  | nil => exact matches_pure rfl
  | cons head _ ih =>
      simp only [List.foldlM_cons]
      refine matches_next ?_ ih
      refine matches_next (matches_note 1 (matches_pure trivial)) fun _ => ?_
      exact matches_next ((recasts_of_fuel fuel).execute hfuel head) fun _ => matches_pure rfl

theorem matches_program (hfuel : O.scarce.Fuels fuel more)
    (h : List.Forall₂ Tree.Recast trees others) :
    Matches O Eq (program fuel trees) (program more others) := by
  intro s t hs
  unfold program
  split
  · exact .failed hs
  · exact matches_statements hfuel h s t hs

theorem matched_program (h : List.Forall₂ Tree.Recast trees others) (hs : s.Recast t)
    (limits : Limits) {scarce : Scarce} (hfuel : scarce.Fuels fuel more) :
    (program fuel trees limits s).Matched ⟨limits, scarce, s.depth, s.depth, Nat.le_refl _⟩ Eq
      (program more others limits t) :=
  matches_program (O := ⟨limits, scarce, s.depth, s.depth, Nat.le_refl _⟩) hfuel h s t
    ⟨hs.bindings, hs.functions, hs.heap, hs.printed, rfl, hs.depth.symm⟩

/-- Steps that stand side by side ended alike if none is out of fuel and the second did not go too
deep. -/
theorem recast_of_matched {outcome other : Outcome α} (hdepth : O.depth = O.deeper)
    (h : outcome.Matched O Eq other) (hfirst : O.scarce = .first → ∀ s, outcome ≠ .outOfFuel s)
    (hsecond : O.scarce = .second → ∀ t, other ≠ .outOfFuel t) :
    other.GoesTooDeep ∨ outcome.Recast other := by
  have hstates : ∀ {s t : State}, O.Alike s t → s.Recast t := fun hs =>
    ⟨hs.bindings, hs.functions, hs.heap, hs.printed, hs.depth.trans (hdepth.trans hs.deeper.symm)⟩
  cases h with
  | @done v w _ _ values states =>
      obtain rfl : v = w := values
      exact .inr (.done (hstates states))
  | failed states => exact .inr (.failed (hstates states))
  | tooDeep hfault => exact .inl ⟨_, _, rfl, hfault⟩
  | firstSpent hscarce => exact absurd rfl (hfirst hscarce _)
  | secondSpent hscarce => exact absurd rfl (hsecond hscarce _)

/-- Calling a method in a statement of its own and calling it in an expression are the same. If some
calls of a program, in blocks and bodies at any depth, are turned from one into the other, then from
every state in which the functions may be recast as well, the program ends with the same value or
fault, in the same state but for the bodies of functions, unless it goes too deep then: each of its
runs that ends, and does not go too deep, ends as the program did before with the same fuel, and
where the program ended before, it ends with twice the fuel. Parentheses around the statement make
this change in the text of a program. -/
theorem program_recast (h : List.Forall₂ Tree.Recast trees others) (hs : s.Recast t)
    (limits : Limits) :
    (∀ fuel, (∀ after, program fuel others limits t ≠ .outOfFuel after) →
      (program fuel others limits t).GoesTooDeep ∨
        (program fuel trees limits s).Recast (program fuel others limits t)) ∧
    (∀ fuel, (∀ after, program fuel trees limits s ≠ .outOfFuel after) →
      (program (2 * fuel) others limits t).GoesTooDeep ∨
        (program fuel trees limits s).Recast (program (2 * fuel) others limits t)) ∧
    ∀ adjoin bound ts array method args left right,
      Grammar.States adjoin bound .statement ts (.methodCall array method args) →
      left.kind = .leftParen → right.kind = .rightParen →
      ∃ bound, Grammar.States adjoin bound .statement (left :: ts ++ [right])
        (.expressionStatement (.methodExpression array method args)) := by
  refine ⟨fun fuel hends => ?_, fun fuel hends => ?_, ?_⟩
  · have hfuel : Scarce.second.Fuels fuel fuel := Nat.le_refl fuel
    have hmatched := matched_program h hs limits hfuel
    exact recast_of_matched rfl hmatched Scarce.noConfusion fun _ => hends
  · have hfuel : Scarce.first.Fuels fuel (2 * fuel) := Nat.le_refl (2 * fuel)
    have hmatched := matched_program h hs limits hfuel
    exact recast_of_matched rfl hmatched (fun _ => hends) Scarce.noConfusion
  · intro adjoin bound ts array method args left right hstates hleft hright
    exact Grammar.states_parens hstates hleft hright

/-- A statement that takes the last item of an array away. -/
def popStatement : Tree := .methodCall (.text "a") (.text "pop") (.list [])

/-- The statement that evaluates it instead. -/
def popExpression : Tree :=
  .expressionStatement (.methodExpression (.text "a") (.text "pop") (.list []))

/-- A program that makes an array with an item and calls a function with one statement. -/
def arrayAndCall (statement : Tree) : List Tree :=
  [.assignment (.text "a") (.arrayLiteral (.list [.string (.text "x")])),
    .functionDeclaration (.text "f") (.list []) (.list [statement]),
    .expressionStatement (.call (.text "f") (.list []))]

/-- The item is gone in both. -/
theorem program_recast_in_body :
    (program 6 (arrayAndCall popStatement) ⟨1500, 0⟩ .start).Recast
      (program 6 (arrayAndCall popExpression) ⟨1500, 0⟩ .start) ∧
    (program 6 (arrayAndCall popExpression) ⟨1500, 0⟩ .start).after.heap.arrays = #[#[]] := by
  have htrees : List.Forall₂ Tree.Recast (arrayAndCall popStatement)
      (arrayAndCall popExpression) := by
    have hbody : Tree.Recast (.list [popStatement]) (.list [popExpression]) :=
      .list (.methodCall _ _ _) (.same _)
    exact .cons (.same _) (.cons (.functionDeclaration _ _ hbody) (.cons (.same _) .nil))
  have hafter : program 6 (arrayAndCall popExpression) ⟨1500, 0⟩ .start =
      .done (.text "x") ⟨⟨[(.text "a", .array 0)]⟩,
        ⟨[(.text "f", ⟨.list [], .list [popExpression]⟩)]⟩, ⟨#[#[]]⟩, 0, #[], #[]⟩ := by cbv
  obtain ⟨hends, -⟩ := program_recast htrees (.refl .start) ⟨1500, 0⟩
  rw [hafter]
  refine ⟨?_, rfl⟩
  have halike := hends 6
  rw [hafter] at halike
  rcases halike (fun _ h => by cases h) with ⟨fault, mid, hfailed, -⟩ | hrecast
  · cases hfailed
  · exact hrecast

end Programs

end Run

end Sprig
