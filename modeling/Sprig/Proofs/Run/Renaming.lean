import Mathlib
import Sprig.Proofs.Run.SharedArrays
import Sprig.Proofs.Tree.Renaming
import Sprig.Run.Program

/-!
# Runs of renamed programs

A run tells names apart and does nothing else with them. So a program whose variables and functions
have new names, run from a state in which they have the new names too, goes side by side with the
program as it was: it prints the same, has the same values and arrays, and ends in the same way,
with the new name in a fault that tells a name. Since variables and functions are renamed
independently, a variable never stands for a function of its name.
-/

namespace Sprig

section Definitions

variable (ρ : Renaming)

/-- An event with its names renamed. -/
def Event.rename : Event → Event
  | .calling name args => .calling (name.rename ρ.ofFunction) args
  | .returned name value => .returned (name.rename ρ.ofFunction) value
  | .assigned name kind value => .assigned (name.rename ρ.ofVariable) kind value
  | .bound param value => .bound (param.rename ρ.ofVariable) value
  | .defined name params => .defined (name.rename ρ.ofFunction) (params.map ρ.ofVariable)
  | .elementSet array index value => .elementSet (array.rename ρ.ofVariable) index value
  | .methodAnswered array method value =>
    .methodAnswered (array.rename ρ.ofVariable) method value
  | event => event

/-- A fault with its name renamed. -/
def Fault.rename : Fault → Fault
  | .undefinedVariable name => .undefinedVariable (name.rename ρ.ofVariable)
  | .undefinedFunction name => .undefinedFunction (name.rename ρ.ofFunction)
  | .notAnArray name => .notAnArray (name.rename ρ.ofVariable)
  | fault => fault

/-- A renamed fault is of the same kind. -/
theorem Fault.category?_rename (fault : Fault) :
    (fault.rename ρ).category? = fault.category? := by
  cases fault <;> rfl

theorem Fault.rename_of_isNameless {fault : Fault} (h : fault.IsNameless) :
    fault.rename ρ = fault := by
  cases fault <;> first | rfl | cases h

/-- A function with its parameters and the names in its body renamed. -/
def Function.rename (function : Function) : Function :=
  ⟨function.params.renameParams ρ.ofVariable, function.body.rename ρ⟩

/-- A state with its variables and functions renamed, also in the bodies of functions and in the
events noted so far. The arrays, the depth and what was printed are the same. -/
def State.rename (s : State) : State :=
  { s with
    bindings := s.bindings.rename ρ.ofVariable id
    functions := s.functions.rename ρ.ofFunction (Function.rename ρ)
    trace := s.trace.map (Event.rename ρ) }

/-- The end of a step with its fault and state renamed. -/
def Outcome.rename {α : Type} : Outcome α → Outcome α
  | .done value after => .done value (after.rename ρ)
  | .failed fault after => .failed (fault.rename ρ) (after.rename ρ)
  | .outOfFuel after => .outOfFuel (after.rename ρ)

/-- A run beside the one with new names, within the same limits. -/
def Renaming.coupling (limits : Limits) : Coupling where
  first := limits
  second := limits
  states s t := t = s.rename ρ
  faults fault other := other = fault.rename ρ
  early _ _ _ := False
  spare := False
  not_early_of_spare := False.elim

end Definitions

namespace Renaming

open Run

variable {ρ : Renaming} {limits : Limits} {α β : Type} {P : α → β → Prop}

theorem couples_of_apply {run : Run α} {other : Run β}
    (h : ∀ s, (run limits s).Coupled (ρ.coupling limits) P (other limits (s.rename ρ))) :
    Couples (ρ.coupling limits) P run other where
  together {s t} hs := by
    obtain rfl : t = s.rename ρ := hs
    exact h s
  behind := False.elim

theorem couples_read {part : State → α} {other : State → β}
    (h : ∀ s, P (part s) (other (s.rename ρ))) :
    Couples (ρ.coupling limits) P (read part) (read other) :=
  couples_of_apply fun s => .done (h s) rfl

theorem couples_change {f g : State → State} (h : ∀ s, g (s.rename ρ) = (f s).rename ρ) :
    Couples (ρ.coupling limits) Eq (change f) (change g) :=
  couples_of_apply fun s => .done rfl (h s)

/-- Renaming leaves the arrays alone. -/
theorem sharesArrays : (ρ.coupling limits).SharesArrays where
  read _ := couples_read fun _ => rfl
  change _ := couples_change fun _ => rfl
  display v := couples_of_apply fun s => by
    unfold display
    rw [show (s.rename ρ).heap = s.heap from rfl]
    split
    · exact .done rfl rfl
    · exact .failed rfl rfl
  displayAll vs := couples_of_apply fun s => by
    unfold displayAll
    rw [show (s.rename ρ).heap = s.heap from rfl]
    split
    · exact .done rfl rfl
    · exact .failed rfl rfl
  faults fault h := (Fault.rename_of_isNameless ρ h).symm

section Names

/-- A scalar part in the place of a name is renamed. -/
theorem couples_name (f : String → String) (tree : Tree) :
    Couples (ρ.coupling limits) (fun name other => other = name.rename f) (scalarPart tree)
      (scalarPart (tree.renameName f)) := by
  cases tree with
  | scalar value => exact couples_pure rfl
  | _ => exact couples_fail rfl

/-- A scalar part in any other place stays. -/
theorem couples_scalarPart (tree : Tree) :
    Couples (ρ.coupling limits) Eq (scalarPart tree) (scalarPart tree) := by
  cases tree with
  | scalar value => exact couples_pure rfl
  | _ => exact couples_fail rfl

theorem couples_listPart (tree : Tree) :
    Couples (ρ.coupling limits) (fun trees others => others = trees.map (Tree.rename ρ))
      (listPart tree) (listPart (tree.rename ρ)) := by
  unfold listPart
  rw [Tree.items?_rename]
  cases tree.items? with
  | some items => exact couples_pure rfl
  | none => exact couples_fail rfl

theorem couples_params (f : String → String) (params : Tree) :
    Couples (ρ.coupling limits) (fun trees others => others = trees.map (Tree.renameName f))
      (listPart params) (listPart (params.renameParams f)) := by
  unfold listPart
  rw [Tree.items?_renameParams]
  cases params.items? with
  | some items => exact couples_pure rfl
  | none => exact couples_fail rfl

theorem couples_lookup (name : Scalar) :
    Couples (ρ.coupling limits) Eq (lookup name) (lookup (name.rename ρ.ofVariable)) := by
  apply couples_next
  · refine couples_read fun s => ?_
    change _ = (s.bindings.rename ρ.ofVariable id).get? (name.rename ρ.ofVariable)
    rw [Table.get?_rename ρ.ofVariable_injective, Option.map_id_fun, id]
  · intro v?
    cases v? with
    | none => exact couples_fail rfl
    | some v => exact couples_pure rfl

theorem couples_lookupArray (name : Scalar) :
    Couples (ρ.coupling limits) Eq (lookupArray name) (lookupArray (name.rename ρ.ofVariable)) := by
  apply couples_next (couples_lookup name)
  intro v
  cases v with
  | array address => exact couples_pure rfl
  | _ => exact couples_fail rfl

/-- The array that a part names. -/
theorem couples_arrayOf {array : Tree} {next : Address → Run α} {others : Address → Run β}
    (h : ∀ address, Couples (ρ.coupling limits) P (next address) (others address)) :
    Couples (ρ.coupling limits) P (do next (← lookupArray (← scalarPart array)))
      (do others (← lookupArray (← scalarPart (array.renameName ρ.ofVariable)))) := by
  apply couples_bind (couples_name _ array)
  rintro name _ rfl
  exact couples_next (couples_lookupArray name) h

theorem couples_assign (name : Scalar) (v : Value) :
    Couples (ρ.coupling limits) Eq (assign name v) (assign (name.rename ρ.ofVariable) v) := by
  refine couples_change fun s => ?_
  have hset := Table.set_rename ρ.ofVariable_injective id s.bindings name v
  simp only [State.rename]
  rw [← hset, id]

theorem couples_restore {kept others : Table Value} (h : others = kept.rename ρ.ofVariable id) :
    Couples (ρ.coupling limits) Eq (change fun s => { s with bindings := kept })
      (change fun s => { s with bindings := others }) :=
  couples_change fun s => by rw [h]; rfl

theorem couples_function (name : Scalar) :
    Couples (ρ.coupling limits) (fun found other => other = found.map (Function.rename ρ))
      (read (·.functions.get? name)) (read (·.functions.get? (name.rename ρ.ofFunction))) :=
  couples_read fun s => Table.get?_rename ρ.ofFunction_injective _ s.functions name

theorem couples_declare (name : Scalar) (function : Function) :
    Couples (ρ.coupling limits) Eq
      (change fun s => { s with functions := s.functions.set name function })
      (change fun s => { s with
        functions := s.functions.set (name.rename ρ.ofFunction) (function.rename ρ) }) := by
  refine couples_change fun s => ?_
  simp only [State.rename]
  rw [Table.set_rename ρ.ofFunction_injective (Function.rename ρ)]

end Names

section Events

theorem couples_printLine (text : String) :
    Couples (ρ.coupling limits) Eq (printLine text) (printLine text) :=
  couples_change fun _ => rfl

theorem couples_note (level : Nat) {event other : Run Event}
    (h : Couples (ρ.coupling limits) (fun e f => f = e.rename ρ) event other) :
    Couples (ρ.coupling limits) Eq (note level event) (note level other) := by
  have hnoted : Couples (ρ.coupling limits) Eq
      (do let e ← event; change fun s => { s with trace := s.trace.push e })
      (do let e ← other; change fun s => { s with trace := s.trace.push e }) := by
    apply couples_bind h
    rintro e _ rfl
    exact couples_change fun s => by simp [State.rename]
  refine couples_of_apply fun s => ?_
  unfold note
  split
  · exact .done rfl rfl
  · exact hnoted.together rfl

/-- Noting an event that shows a value. -/
theorem couples_noteText (level : Nat) (v : Value) {event other : String → Event}
    (h : ∀ text, other text = (event text).rename ρ) :
    Couples (ρ.coupling limits) Eq (note level (do return event (← display v)))
      (note level (do return other (← display v))) :=
  couples_note level (couples_next (sharesArrays.display v) fun text => couples_pure (h text))

theorem couples_noteTexts (level : Nat) (vs : List Value) {event other : List String → Event}
    (h : ∀ texts, other texts = (event texts).rename ρ) :
    Couples (ρ.coupling limits) Eq (note level (do return event (← displayAll vs)))
      (note level (do return other (← displayAll vs))) :=
  couples_note level (couples_next (sharesArrays.displayAll vs) fun texts => couples_pure (h texts))

theorem couples_textParts (trees : List Tree) :
    Couples (ρ.coupling limits) (fun names others => others = names.map ρ.ofVariable)
      (textParts trees) (textParts (trees.map (Tree.renameName ρ.ofVariable))) := by
  fun_induction textParts trees with
  | case1 => exact couples_pure rfl
  | case2 name trees ih =>
      apply couples_bind ih
      rintro names _ rfl
      exact couples_pure rfl
  | case3 tree trees htree =>
      cases tree with
      | scalar value =>
          cases value with
          | text name => exact absurd rfl (htree name)
          | _ => exact couples_fail rfl
      | _ => exact couples_fail rfl

theorem couples_bindAll (params : List Tree) (args : List Value) :
    Couples (ρ.coupling limits) Eq (bindAll params args)
      (bindAll (params.map (Tree.renameName ρ.ofVariable)) args) := by
  induction params generalizing args with
  | nil => exact couples_pure rfl
  | cons param params ih =>
      apply couples_bind (couples_name _ param)
      rintro name _ rfl
      apply couples_next (couples_assign name _)
      intro _
      apply couples_next (couples_noteText 2 _ fun _ => rfl)
      exact fun _ => ih args.tail

end Events

/-- Steps that go side by side end alike, but for the names. -/
theorem eq_of_coupled {outcome other : Outcome α}
    (h : outcome.Coupled (ρ.coupling limits) Eq other) : other = outcome.rename ρ := by
  cases h with
  | done values states => rw [← values, states]; rfl
  | failed faults states => rw [faults, states]; rfl
  | outOfFuel states => rw [states]; rfl
  | early ends => exact ends.after.elim
  | spare hspare => exact hspare.elim

/-- Working on a node goes side by side when working on its parts does. -/
theorem couples_nested (kind : NodeKind) {work other : Run α}
    (h : Couples (ρ.coupling limits) Eq work other) :
    Couples (ρ.coupling limits) Eq (nested kind work) (nested kind other) := by
  refine couples_of_apply fun s => ?_
  have hinner : other limits { s.rename ρ with depth := s.depth + 1 } =
      (work limits { s with depth := s.depth + 1 }).rename ρ := eq_of_coupled (h.together rfl)
  unfold nested
  rw [show (s.rename ρ).depth = s.depth from rfl, hinner]
  split
  · exact .failed rfl rfl
  · cases work limits { s with depth := s.depth + 1 } with
    | done value after => exact .done rfl rfl
    | failed fault after => exact .failed rfl rfl
    | outOfFuel after => exact .outOfFuel rfl

/-- Whether the interpreter goes side by side with itself on renamed trees. -/
structure Renames (ρ : Renaming) (limits : Limits) (fuel : Nat) : Prop where
  evaluate (tree : Tree) :
    Couples (ρ.coupling limits) Eq (evaluate fuel tree) (evaluate fuel (tree.rename ρ))
  callMethod (array method args : Tree) :
    Couples (ρ.coupling limits) Eq (callMethod fuel array method args)
      (callMethod fuel (array.renameName ρ.ofVariable) method (args.rename ρ))
  execute (tree : Tree) :
    Couples (ρ.coupling limits) Eq (execute fuel tree) (execute fuel (tree.rename ρ))

section Step

variable {fuel : Nat}

theorem forall₂_rename {R : Tree → Tree → Prop} (h : ∀ tree, R tree (tree.rename ρ))
    (trees : List Tree) : List.Forall₂ R trees (trees.map (Tree.rename ρ)) :=
  List.forall₂_map_right_iff.mpr (List.forall₂_same.mpr fun tree _ => h tree)

theorem Renames.values (h : Renames ρ limits fuel) (args : Tree) :
    Couples (ρ.coupling limits) Eq (do Run.values (Run.evaluate fuel) (← listPart args))
      (do Run.values (Run.evaluate fuel) (← listPart (args.rename ρ))) := by
  apply couples_bind (couples_listPart args)
  rintro trees _ rfl
  exact couples_values (forall₂_rename h.evaluate trees)

theorem Renames.block (h : Renames ρ limits fuel) (body : Tree) :
    Couples (ρ.coupling limits) Eq
      (do Run.block (Run.execute fuel) (plain .none) (← listPart body))
      (do Run.block (Run.execute fuel) (plain .none) (← listPart (body.rename ρ))) := by
  apply couples_bind (couples_listPart body)
  rintro trees _ rfl
  exact couples_block (forall₂_rename h.execute trees) _

theorem couples_call (h : Renames ρ limits fuel) (name args : Tree) :
    Couples (ρ.coupling limits) Eq (Run.evaluate (fuel + 1) (.call name args))
      (Run.evaluate (fuel + 1) ((Tree.call name args).rename ρ)) := by
  simp only [Tree.rename, Run.evaluate]
  refine couples_nested _ (couples_bind (couples_name _ name) ?_)
  rintro name _ rfl
  apply couples_bind (couples_function name)
  rintro function? _ rfl
  cases function? with
  | none => exact couples_fail rfl
  | some function =>
      dsimp only [Option.map_some, Function.rename]
      simp only [← bind_assoc (listPart args), ← bind_assoc (listPart (args.rename ρ))]
      apply couples_next (h.values args)
      intro vs
      apply couples_next (couples_noteTexts 1 vs fun _ => rfl)
      intro _
      apply couples_bind (P := fun kept others => others = kept.rename ρ.ofVariable id)
        (couples_read fun _ => rfl)
      rintro kept _ rfl
      apply couples_bind (couples_params ρ.ofVariable function.params)
      rintro params _ rfl
      apply couples_next (couples_bindAll params vs)
      intro _
      simp only [← bind_assoc (listPart function.body),
        ← bind_assoc (listPart (function.body.rename ρ))]
      apply couples_next (h.block function.body)
      intro completion
      apply couples_next (couples_restore rfl)
      intro _
      apply couples_next (couples_noteText 1 completion.value fun _ => rfl)
      exact fun _ => couples_pure rfl

theorem couples_callMethod (h : Renames ρ limits fuel) (array method args : Tree) :
    Couples (ρ.coupling limits) Eq (Run.callMethod (fuel + 1) array method args)
      (Run.callMethod (fuel + 1) (array.renameName ρ.ofVariable) method (args.rename ρ)) := by
  simp only [Run.callMethod]
  apply couples_bind (couples_name _ array)
  rintro array _ rfl
  apply couples_next (couples_lookupArray array)
  intro address
  simp only [← bind_assoc (listPart args), ← bind_assoc (listPart (args.rename ρ))]
  apply couples_next (h.values args)
  intro vs
  apply couples_next (couples_scalarPart method)
  intro method
  apply couples_next (sharesArrays.applyMethod address method vs)
  intro v
  apply couples_next (couples_noteText 3 v fun _ => rfl)
  exact fun _ => couples_pure rfl

theorem couples_evaluate (h : Renames ρ limits fuel) (tree : Tree) :
    Couples (ρ.coupling limits) Eq (Run.evaluate (fuel + 1) tree)
      (Run.evaluate (fuel + 1) (tree.rename ρ)) := by
  cases tree with
  | number value | string value | boolean value =>
      simp only [Tree.rename, Run.evaluate]
      exact couples_nested _ (couples_next (couples_scalarPart value) fun v => couples_pure rfl)
  | «variable» name =>
      simp only [Tree.rename, Run.evaluate]
      refine couples_nested _ (couples_bind (couples_name _ name) ?_)
      rintro name _ rfl
      exact couples_lookup name
  | unary operator operand =>
      simp only [Tree.rename, Run.evaluate]
      refine couples_nested _ (couples_next (h.evaluate operand) fun v => ?_)
      apply couples_next (couples_scalarPart operator)
      exact fun operator => sharesArrays.lifts fun _ => isNameless_of_applyUnary
  | binary operator left right =>
      simp only [Tree.rename, Run.evaluate]
      refine couples_nested _ (couples_next (h.evaluate left) fun l => ?_)
      apply couples_next (h.evaluate right)
      intro r
      apply couples_next (couples_scalarPart operator)
      exact fun operator => sharesArrays.applyBinary operator l r
  | comparison operator left right =>
      simp only [Tree.rename, Run.evaluate]
      refine couples_nested _ (couples_next (h.evaluate left) fun l => ?_)
      apply couples_next (h.evaluate right)
      intro r
      apply couples_next (couples_scalarPart operator)
      exact fun operator => sharesArrays.lifts fun _ => isNameless_of_applyComparison
  | arrayLiteral elements =>
      simp only [Tree.rename, Run.evaluate, ← bind_assoc (listPart elements),
        ← bind_assoc (listPart (elements.rename ρ))]
      refine couples_nested _ (couples_next (h.values elements) fun vs => ?_)
      exact sharesArrays.newArray _
  | elementAccess array index =>
      simp only [Tree.rename, Run.evaluate]
      refine couples_nested _ (couples_arrayOf fun address => ?_)
      exact couples_next (h.evaluate index) fun index => sharesArrays.elementAt address index
  | methodExpression array method args =>
      simp only [Tree.rename, Run.evaluate]
      exact couples_nested _ (h.callMethod array method args)
  | arrayProperty array property =>
      simp only [Tree.rename, Run.evaluate]
      refine couples_nested _ (couples_arrayOf fun address => ?_)
      apply couples_next (couples_scalarPart property)
      exact fun property => sharesArrays.applyProperty address property
  | call name args => exact couples_call h name args
  | _ =>
      simp only [Tree.rename, Run.evaluate]
      exact couples_fail rfl

theorem couples_execute (h : Renames ρ limits fuel) (tree : Tree) :
    Couples (ρ.coupling limits) Eq (Run.execute (fuel + 1) tree)
      (Run.execute (fuel + 1) (tree.rename ρ)) := by
  cases tree with
  | assignment name value =>
      simp only [Tree.rename, Run.execute]
      refine couples_nested _ (couples_next (h.evaluate value) fun v => ?_)
      apply couples_bind (couples_name _ name)
      rintro name _ rfl
      apply couples_next (couples_assign name v)
      intro _
      apply couples_next (couples_noteText 2 v fun _ => rfl)
      exact fun _ => couples_pure rfl
  | print value =>
      simp only [Tree.rename, Run.execute]
      refine couples_nested _ (couples_next (h.evaluate value) fun v => ?_)
      apply couples_next (sharesArrays.display v)
      intro text
      exact couples_next (couples_printLine text) fun _ => couples_pure rfl
  | expressionStatement expression =>
      simp only [Tree.rename, Run.execute]
      exact couples_nested _ (couples_next (h.evaluate expression) fun v => couples_pure rfl)
  | ifStatement condition ifBlock elseBlock =>
      simp only [Tree.rename, Run.execute]
      refine couples_nested _ (couples_next (h.evaluate condition) fun v => ?_)
      apply couples_next (couples_noteText 3 v fun _ => rfl)
      intro _
      split
      · exact h.block ifBlock
      · split
        · exact couples_pure rfl
        · next hsome =>
          split
          · next hnone => exact absurd (Tree.eq_none_of_rename hnone) hsome
          · exact h.block elseBlock
  | whileStatement condition body =>
      simp only [Tree.rename, Run.execute]
      refine couples_nested _ (couples_repeatWhile ?_ (h.block body) (.same _ fuel) _)
      apply couples_next (h.evaluate condition)
      intro v
      exact couples_next (couples_noteText 3 v fun _ => rfl) fun _ => couples_pure rfl
  | elementAssignment array index value =>
      simp only [Tree.rename, Run.execute]
      refine couples_nested _ (couples_bind (couples_name _ array) ?_)
      rintro array _ rfl
      apply couples_next (couples_lookupArray array)
      intro address
      apply couples_next (h.evaluate index)
      intro index
      apply couples_next (h.evaluate value)
      intro v
      apply couples_next (sharesArrays.setElement address index v)
      intro _
      refine couples_next (couples_note 3 ?_) fun _ => couples_pure rfl
      apply couples_next (sharesArrays.display index)
      intro place
      exact couples_next (sharesArrays.display v) fun text => couples_pure rfl
  | methodCall array method args =>
      simp only [Tree.rename, Run.execute]
      refine couples_nested _ (couples_next (h.callMethod array method args) fun v => ?_)
      exact couples_pure rfl
  | functionDeclaration name params body =>
      simp only [Tree.rename, Run.execute]
      refine couples_nested _ (couples_bind (couples_name _ name) ?_)
      rintro name _ rfl
      apply couples_next (couples_declare name ⟨params, body⟩)
      intro _
      refine couples_next (couples_note 2 ?_) fun _ => couples_pure rfl
      apply couples_bind (couples_params ρ.ofVariable params)
      rintro trees _ rfl
      apply couples_bind (couples_textParts trees)
      rintro names _ rfl
      exact couples_pure rfl
  | returnStatement value =>
      simp only [Tree.rename, Run.execute]
      refine couples_nested _ ?_
      split
      · exact couples_pure rfl
      · next hsome =>
        split
        · next hnone => exact absurd (Tree.eq_none_of_rename hnone) hsome
        · exact couples_next (h.evaluate value) fun v => couples_pure rfl
  | _ =>
      simp only [Tree.rename, Run.execute]
      exact couples_fail rfl

end Step

/-- The interpreter goes side by side with itself on renamed trees, with any fuel. -/
theorem renames_of_fuel (ρ : Renaming) (limits : Limits) (fuel : Nat) :
    Renames ρ limits fuel := by
  induction fuel with
  | zero =>
      constructor
      · intro tree
        simp only [evaluate_zero]
        exact couples_spent
      · intro array method args
        simp only [callMethod]
        exact couples_spent
      · intro tree
        simp only [execute_zero]
        exact couples_spent
  | succ fuel ih =>
      constructor
      · exact couples_evaluate ih
      · exact couples_callMethod ih
      · exact couples_execute ih

/-- The statements of a program go side by side with the renamed ones. -/
theorem couples_statements (fuel : Nat) (trees : List Tree) :
    Couples (ρ.coupling limits) Eq (statements fuel trees)
      (statements fuel (trees.map (Tree.rename ρ))) := by
  unfold statements
  generalize Value.none = first
  induction trees generalizing first with
  | nil => exact couples_pure rfl
  | cons tree trees ih =>
      simp only [List.map_cons, List.foldlM_cons, Tree.label_rename]
      apply couples_next
      · apply couples_next (couples_note 1 (couples_pure rfl))
        intro _
        exact couples_next ((renames_of_fuel ρ limits fuel).execute tree) fun last =>
          couples_pure rfl
      · exact ih

end Renaming

namespace Run

/-- A program with new names for its variables and functions runs as it did with the old ones: the
ending, the values, what is printed, the arrays and the depth are the same, and the names in a
fault, in the tables and in the events are the new ones. The fault is of the same kind. -/
theorem program_rename (ρ : Renaming) (fuel : Nat) (trees : List Tree) (limits : Limits)
    (s : State) :
    program fuel (trees.map (Tree.rename ρ)) limits (s.rename ρ) =
        (program fuel trees limits s).rename ρ ∧
      ∀ fault after, program fuel trees limits s = .failed fault after →
        (fault.rename ρ).category? = fault.category? := by
  refine ⟨?_, fun fault _ _ => fault.category?_rename ρ⟩
  unfold program
  split
  · rfl
  · exact Renaming.eq_of_coupled ((Renaming.couples_statements fuel trees).together rfl)

/-- A program that passes a variable to a function, and prints a variable that is not there. -/
def passingVariable (word f x y : String) : List Tree := [
  .functionDeclaration (.text word) (.list [.text x])
    (.list [.returnStatement (.variable (.text x))]),
  .assignment (.text f) (.boolean (.scalar (.boolean true))),
  .print (.call (.text word) (.list [.variable (.text f)])),
  .print (.variable (.text y))]

/-- A function and a variable of one name part when they are renamed, and the fault of a variable
that is not there tells its new name. -/
theorem program_rename_apart :
    let ρ : Renaming := .prefixed "var_" "fun_"
    (passingVariable "f" "f" "x" "y").map (Tree.rename ρ) =
        passingVariable "fun_f" "var_f" "var_x" "var_y" ∧
      ∃ after, program 9 (passingVariable "fun_f" "var_f" "var_x" "var_y") ⟨1500, 0⟩ .start =
          .failed (.undefinedVariable (.text "var_y")) after ∧
        after.printed = #["true\n"] ∧
        (Fault.undefinedVariable (.text "var_y")).category? =
          (Fault.undefinedVariable (.text "y")).category? := by
  intro ρ
  have hrenamed : (passingVariable "f" "f" "x" "y").map (Tree.rename ρ) =
      passingVariable "fun_f" "var_f" "var_x" "var_y" := by
    simp [ρ, Renaming.prefixed, passingVariable, Tree.rename, Tree.renameAll, Tree.renameName,
      Tree.renameParams, Tree.items?, Tree.text, Scalar.rename]
  have hfailed : program 9 (passingVariable "f" "f" "x" "y") ⟨1500, 0⟩ .start =
      .failed (.undefinedVariable (.text "y"))
        ⟨⟨[(.text "f", .boolean true)]⟩, ⟨[(.text "f", ⟨.list [.text "x"],
          .list [.returnStatement (.variable (.text "x"))]⟩)]⟩,
          Heap.empty, 0, #["true\n"], #[]⟩ := by cbv
  obtain ⟨hruns, hkind⟩ := program_rename ρ 9 (passingVariable "f" "f" "x" "y") ⟨1500, 0⟩ .start
  have hname : (Scalar.text "y").rename ρ.ofVariable = .text "var_y" := by
    simp [ρ, Renaming.prefixed, Scalar.rename]
  have hstart : State.start.rename ρ = .start := by
    simp [State.rename, State.start, Table.rename, Table.empty]
  have hcategory := hkind _ _ hfailed
  rw [Fault.rename, hname] at hcategory
  rw [hrenamed, hstart, hfailed, Outcome.rename, Fault.rename, hname] at hruns
  exact ⟨hrenamed, _, hruns, rfl, hcategory⟩

end Run

end Sprig
