import Sprig.Proofs.Run.Carry
import Sprig.Run.Interpreter

/-!
# The scope of variables

All calls share one table of variables. A call puts the table back as it was when its body ends, so
an expression that has a value leaves the table as it found it, whatever it called. A statement
changes what its own assignments name. When a run fails nothing is put back, but no name that was
bound is unbound.

## Implementation notes

An expression and a statement keep different contracts, and the body of a function that is called
keeps a third one, under which every name may change. All three speak of a table that is fixed at
the start, and stop with a table that retains its names.
-/

namespace Sprig

namespace Table

variable {α : Type} {a b c : Table α}

/-- Whether each name that is bound in a table is bound in another one. -/
def Retains (a b : Table α) : Prop := ∀ name, a.contains name = true → b.contains name = true

theorem Retains.refl (a : Table α) : a.Retains a := fun _ h => h

theorem Retains.trans (h : a.Retains b) (hnext : b.Retains c) : a.Retains c :=
  fun name hname => hnext name (h name hname)

theorem retains_set (a : Table α) (name : Scalar) (v : α) : a.Retains (a.set name v) := by
  intro other h
  unfold contains at h ⊢
  rw [get?_set]
  split
  · rfl
  · exact h

end Table

namespace Tree

mutual

/-- The names that the assignments of a statement are to, outside of the functions it declares. -/
def targets : Tree → List Scalar
  | .list items => targetsOfAll items
  | .assignment (.scalar name) _ => [name]
  | .ifStatement _ ifBlock elseBlock => targets ifBlock ++ targets elseBlock
  | .whileStatement _ body => targets body
  | _ => []

/-- The names that the assignments of some statements are to. -/
def targetsOfAll : List Tree → List Scalar
  | [] => []
  | tree :: trees => targets tree ++ targetsOfAll trees

end

theorem mem_targets_list {items : List Tree} {tree : Tree} (hmem : tree ∈ items) {name : Scalar}
    (h : name ∈ tree.targets) : name ∈ (Tree.list items).targets := by
  simp only [targets]
  induction items with
  | nil => cases hmem
  | cons first items ih =>
      simp only [targetsOfAll, List.mem_append]
      rcases List.mem_cons.mp hmem with rfl | hmem
      · exact .inl h
      · exact .inr (ih hmem)

end Tree

namespace Contract

/-- The table of variables is a given one, and its names stay bound when a step stops. -/
def fixed (b : Table Value) : Contract where
  holds s := s.bindings = b
  stops s := b.Retains s.bindings
  allows _ := True
  stops_of_holds h := h ▸ Table.Retains.refl _
  holds_of_same _ _ hbindings _ _ h := hbindings.trans h
  stops_of_same _ _ hbindings _ _ h := hbindings ▸ h

/-- The table of variables differs from a given one at most at the names that are free to change,
and its names stay bound. -/
def within (free : Scalar → Prop) (b : Table Value) : Contract where
  holds s := (∀ name, ¬ free name → s.bindings.get? name = b.get? name) ∧ b.Retains s.bindings
  stops s := b.Retains s.bindings
  allows _ := True
  stops_of_holds h := h.2
  holds_of_same _ _ hbindings _ _ h := hbindings ▸ h
  stops_of_same _ _ hbindings _ _ h := hbindings ▸ h

theorem fixed_carries (b : Table Value) : (fixed b).Carries (fun _ => True) where
  none := trivial
  boolean _ := trivial
  number _ := trivial
  text _ := trivial
  array _ := trivial
  expected _ _ := trivial
  bound _ _ := trivial
  item _ _ := trivial
  allocate h _ := h
  update h _ := h

theorem within_carries (free : Scalar → Prop) (b : Table Value) :
    (within free b).Carries (fun _ => True) where
  none := trivial
  boolean _ := trivial
  number _ := trivial
  text _ := trivial
  array _ := trivial
  expected _ _ := trivial
  bound _ _ := trivial
  item _ _ := trivial
  allocate h _ := h
  update h _ := h

end Contract

namespace Run

open Contract

variable {α β : Type} {b : Table Value} {free : Scalar → Prop} {P : α → Prop} {Q : β → Prop}

/-- A step that leaves every table as it is changes no name, free or not. -/
theorem meets_within {run : Run α} (h : ∀ b, Meets (fixed b) P run) :
    Meets (within free b) P run := by
  intro limits s hs
  have hrun := h s.bindings limits s rfl
  cases hout : run limits s with
  | done v after =>
      rw [hout] at hrun
      have hbindings : after.bindings = s.bindings := hrun.2
      refine ⟨hrun.1, ?_⟩
      simp only [within, hbindings]
      exact hs
  | failed fault after =>
      rw [hout] at hrun
      exact ⟨trivial, hs.2.trans hrun.2⟩
  | outOfFuel after =>
      rw [hout] at hrun
      exact hs.2.trans hrun

theorem meets_assign (name : Scalar) (v : Value)
    (hkey : ∀ other : Scalar, name.key = other.key → free other) :
    Meets (within free b) (fun _ => True) (assign name v) := by
  apply meets_change
  rintro s ⟨hsame, hretains⟩
  refine ⟨?_, hretains.trans (Table.retains_set _ name v)⟩
  intro other hother
  rw [Table.get?_set, if_neg (fun heq => hother (hkey other heq))]
  exact hsame other hother

theorem meets_scalarPart {C : Contract} (hC : C.allows .misshapen) (tree : Tree) :
    Meets C (fun name => tree = .scalar name) (scalarPart tree) := by
  cases tree with
  | scalar value => exact meets_pure rfl
  | _ => exact meets_fail hC

theorem meets_listPart {C : Contract} (hC : C.allows .misshapen) (tree : Tree) :
    Meets C (fun items => ∀ item ∈ items, ∀ name ∈ item.targets, name ∈ tree.targets)
      (listPart tree) := by
  cases tree with
  | list items => exact meets_pure fun item hitem name hname => Tree.mem_targets_list hitem hname
  | scalar value =>
      cases value with
      | text s =>
          apply meets_pure
          intro item hitem name hname
          obtain ⟨c, -, rfl⟩ := List.mem_map.mp hitem
          simp [Tree.text, Tree.targets] at hname
      | _ => exact meets_fail hC
  | _ => exact meets_fail hC

theorem meets_textParts {C : Contract} (hC : C.allows .misshapen) (trees : List Tree) :
    Meets C (fun _ => True) (textParts trees) := by
  induction trees with
  | nil => exact meets_pure trivial
  | cons tree trees ih =>
      cases tree with
      | scalar value =>
          cases value with
          | text s => exact meets_bind ih fun _ _ => meets_pure trivial
          | _ => exact meets_fail hC
      | _ => exact meets_fail hC

/-- Binding parameters unbinds nothing. -/
theorem meets_bindAll (params : List Tree) (args : List Value) :
    Meets (within (fun _ => True) b) (fun _ => True) (bindAll params args) := by
  have hC := (within_carries (fun _ => True) b).encloses
  induction params generalizing args with
  | nil => exact meets_pure trivial
  | cons param params ih =>
      apply meets_bind (meets_scalarPart trivial param)
      intro name _
      apply meets_bind (meets_assign name _ fun _ _ => trivial)
      intro _ _
      apply meets_bind (meets_noteText hC 2 _ _)
      intro _ _
      exact ih args.tail

/-- A step that unbinds nothing leaves the table as it was once the table is put back. -/
theorem meets_restoring {work : Run α} {rest : α → Run β}
    (hwork : Meets (within (fun _ => True) b) (fun _ => True) work)
    (hrest : ∀ a, Meets (fixed b) Q (rest a)) :
    Meets (fixed b) Q (work >>= fun a =>
      change (fun s => { s with bindings := b }) >>= fun _ => rest a) := by
  intro limits s hs
  have hinner := hwork limits s ⟨fun _ h => absurd trivial h, hs ▸ Table.Retains.refl _⟩
  rw [bind_apply]
  cases hout : work limits s with
  | done a mid => exact hrest a limits { mid with bindings := b } rfl
  | failed fault after =>
      rw [hout] at hinner
      exact hinner
  | outOfFuel after =>
      rw [hout] at hinner
      exact hinner

/-- What is kept with some fuel: expressions and calls of methods leave every table as it is, and
statements change what they assign to. -/
structure Scoped (fuel : Nat) : Prop where
  evaluate : ∀ b tree, Meets (fixed b) (fun _ => True) (evaluate fuel tree)
  callMethod : ∀ b array method args,
    Meets (fixed b) (fun _ => True) (callMethod fuel array method args)
  execute : ∀ b tree (free : Scalar → Prop),
    (∀ target ∈ tree.targets, ∀ name : Scalar, target.key = name.key → free name) →
      Meets (within free b) (fun _ => True) (execute fuel tree)

section Step

variable {fuel : Nat}

theorem meets_blockOf (h : Scoped fuel) {tree : Tree}
    (hfree : ∀ target ∈ tree.targets, ∀ name : Scalar, target.key = name.key → free name) :
    Meets (within free b) (fun _ => True)
      (listPart tree >>= fun items => block (Run.execute fuel) (plain .none) items) := by
  apply meets_bind (meets_listPart trivial tree)
  intro items hitems
  refine meets_block (fun item hitem => h.execute b item free ?_) trivial
  intro target htarget
  exact hfree target (hitems item hitem target htarget)

/-- The body of a function that is called unbinds nothing. -/
theorem meets_body (h : Scoped fuel) (function : Function) (args : List Value) :
    Meets (within (fun _ => True) b) (fun _ => True) (do
      bindAll (← listPart function.params) args
      block (Run.execute fuel) (plain .none) (← listPart function.body)) := by
  apply meets_bind (meets_listPart trivial _)
  intro params _
  apply meets_bind (meets_bindAll params args)
  intro _ _
  exact meets_blockOf h fun _ _ _ _ => trivial

/-- A call leaves the table as it is, whatever its body does. -/
theorem meets_call (h : Scoped fuel) (name args : Tree) :
    Meets (fixed b) (fun _ => True) (Run.evaluate (fuel + 1) (.call name args)) := by
  have hC := (fixed_carries b).encloses
  simp only [Run.evaluate]
  apply meets_node hC
  apply meets_bind (meets_scalarPart trivial name)
  intro name _
  apply meets_bind (P := fun _ => True) (meets_read fun _ _ => trivial)
  intro function? _
  cases function? with
  | none => exact meets_fail trivial
  | some function =>
      dsimp only
      apply meets_bind (meets_listPart trivial args)
      intro items _
      apply meets_bind (meets_values fun tree _ => h.evaluate b tree)
      intro vs _
      apply meets_bind (meets_noteTexts hC 1 vs _)
      intro _ _
      apply meets_bind (P := fun kept => kept = b) (meets_read fun _ hs => hs)
      rintro kept rfl
      have hrest : ∀ completion : Completion, Meets (fixed kept) (fun _ => True) (do
          note 1 (do return .returned name (← display completion.value))
          return completion.value) := by
        intro completion
        apply meets_bind (meets_noteText hC 1 _ _)
        exact fun _ _ => meets_pure trivial
      have hcall := meets_restoring (meets_body h function vs) hrest
      simpa only [bind_assoc] using hcall

/-- A call of a method changes no variable. -/
theorem meets_callMethod (h : Scoped fuel) (array method args : Tree) :
    Meets (fixed b) (fun _ => True) (Run.callMethod (fuel + 1) array method args) := by
  have hC := (fixed_carries b).encloses
  simp only [Run.callMethod]
  apply meets_bind (meets_scalarPart trivial array)
  intro array _
  apply meets_bind (meets_lookupArray hC array)
  intro address haddress
  apply meets_bind (meets_listPart trivial args)
  intro items _
  apply meets_bind (meets_values fun tree _ => h.evaluate b tree)
  intro vs hvs
  apply meets_bind (meets_scalarPart trivial method)
  intro method _
  apply meets_bind (meets_applyMethod hC haddress method hvs)
  intro v _
  apply meets_bind (meets_noteText hC 3 v _)
  exact fun _ _ => meets_pure trivial

theorem meets_evaluate (h : Scoped fuel) (tree : Tree) :
    Meets (fixed b) (fun _ => True) (Run.evaluate (fuel + 1) tree) := by
  have hC := (fixed_carries b).encloses
  cases tree with
  | number value | string value | boolean value =>
      simp only [Run.evaluate]
      refine meets_node hC (meets_bind (meets_scalarPart trivial value) ?_)
      exact fun _ _ => meets_pure trivial
  | «variable» name =>
      simp only [Run.evaluate]
      refine meets_node hC (meets_bind (meets_scalarPart trivial name) ?_)
      exact fun name _ => meets_lookup hC name
  | unary operator operand =>
      simp only [Run.evaluate]
      refine meets_node hC (meets_bind (h.evaluate b operand) ?_)
      intro v _
      apply meets_bind (meets_scalarPart trivial operator)
      exact fun operator _ => meets_lift (fun _ _ => trivial) fun _ _ => trivial
  | binary operator left right =>
      simp only [Run.evaluate]
      refine meets_node hC (meets_bind (h.evaluate b left) ?_)
      intro l _
      apply meets_bind (h.evaluate b right)
      intro r _
      apply meets_bind (meets_scalarPart trivial operator)
      exact fun operator _ => meets_applyBinary hC fun _ _ => trivial
  | comparison operator left right =>
      simp only [Run.evaluate]
      refine meets_node hC (meets_bind (h.evaluate b left) ?_)
      intro l _
      apply meets_bind (h.evaluate b right)
      intro r _
      apply meets_bind (meets_scalarPart trivial operator)
      exact fun operator _ => meets_lift (fun _ _ => trivial) fun _ _ => trivial
  | arrayLiteral elements =>
      simp only [Run.evaluate]
      refine meets_node hC (meets_bind (meets_listPart trivial elements) ?_)
      intro items _
      apply meets_bind (meets_values fun tree _ => h.evaluate b tree)
      exact fun vs _ => meets_newArray (fixed_carries b) fun _ _ => trivial
  | elementAccess array index =>
      simp only [Run.evaluate]
      refine meets_node hC (meets_bind (meets_scalarPart trivial array) ?_)
      intro array _
      apply meets_bind (meets_lookupArray hC array)
      intro address haddress
      apply meets_bind (h.evaluate b index)
      exact fun index _ => meets_elementAt hC haddress index
  | methodExpression array method args =>
      simp only [Run.evaluate]
      exact meets_node hC (h.callMethod b array method args)
  | arrayProperty array property =>
      simp only [Run.evaluate]
      refine meets_node hC (meets_bind (meets_scalarPart trivial array) ?_)
      intro array _
      apply meets_bind (meets_lookupArray hC array)
      intro address _
      apply meets_bind (meets_scalarPart trivial property)
      intro property _
      unfold applyProperty
      split
      · exact meets_bind (meets_itemsOf address) fun _ _ => meets_pure trivial
      · exact meets_fail trivial
  | call name args => exact meets_call h name args
  | _ =>
      simp only [Run.evaluate]
      exact meets_fail trivial

/-- A statement changes the names that its assignments are to, and no others. -/
theorem meets_execute (h : Scoped fuel) (tree : Tree)
    (hfree : ∀ target ∈ tree.targets, ∀ name : Scalar, target.key = name.key → free name) :
    Meets (within free b) (fun _ => True) (Run.execute (fuel + 1) tree) := by
  have hC := (within_carries free b).encloses
  have hvalue : ∀ tree, Meets (within free b) (fun _ => True) (Run.evaluate fuel tree) :=
    fun tree => meets_within fun b => h.evaluate b tree
  cases tree with
  | assignment name value =>
      simp only [Run.execute]
      refine meets_node hC (meets_bind (hvalue value) ?_)
      intro v _
      apply meets_bind (meets_scalarPart trivial name)
      rintro name rfl
      apply meets_bind (meets_assign name v (hfree name (by simp [Tree.targets])))
      intro _ _
      apply meets_bind (meets_noteText hC 2 v _)
      exact fun _ _ => meets_pure trivial
  | print value =>
      simp only [Run.execute]
      refine meets_node hC (meets_bind (hvalue value) ?_)
      intro v _
      apply meets_bind (meets_text hC v)
      intro text _
      exact meets_bind (meets_printLine text) fun _ _ => meets_pure trivial
  | expressionStatement expression =>
      simp only [Run.execute]
      exact meets_node hC (meets_bind (hvalue expression) fun _ _ => meets_pure trivial)
  | ifStatement condition ifBlock elseBlock =>
      simp only [Run.execute]
      refine meets_node hC (meets_bind (hvalue condition) ?_)
      intro v _
      apply meets_bind (meets_noteText hC 3 v _)
      intro _ _
      split
      · apply meets_blockOf h
        exact fun target htarget => hfree target (by simp [Tree.targets, htarget])
      · split
        · exact meets_pure trivial
        · apply meets_blockOf h
          exact fun target htarget => hfree target (by simp [Tree.targets, htarget])
  | whileStatement condition body =>
      simp only [Run.execute]
      refine meets_node hC (meets_repeatWhile ?_ ?_ fuel trivial)
      · apply meets_bind (hvalue condition)
        intro v _
        apply meets_bind (meets_noteText hC 3 v _)
        exact fun _ _ => meets_pure trivial
      · apply meets_blockOf h
        exact fun target htarget => hfree target (by simpa [Tree.targets] using htarget)
  | elementAssignment array index value =>
      simp only [Run.execute]
      refine meets_node hC (meets_bind (meets_scalarPart trivial array) ?_)
      intro array _
      apply meets_bind (meets_lookupArray hC array)
      intro address haddress
      apply meets_bind (hvalue index)
      intro index _
      apply meets_bind (hvalue value)
      intro v hv
      apply meets_bind (meets_setElement hC haddress index hv)
      intro _ _
      refine meets_bind (meets_note (meets_bind (meets_text hC index) fun _ _ => ?_)) ?_
      · exact meets_bind (meets_text hC v) fun _ _ => meets_pure trivial
      · exact fun _ _ => meets_pure trivial
  | methodCall array method args =>
      simp only [Run.execute]
      refine meets_node hC (meets_bind (meets_within fun b => h.callMethod b array method args) ?_)
      exact fun _ _ => meets_pure trivial
  | functionDeclaration name params body =>
      simp only [Run.execute]
      refine meets_node hC (meets_bind (meets_scalarPart trivial name) ?_)
      intro name _
      refine meets_bind (meets_change fun _ hs => hs) ?_
      intro _ _
      refine meets_bind (meets_note (meets_bind (meets_listPart trivial params) ?_)) ?_
      · intro items _
        exact meets_bind (meets_textParts trivial items) fun _ _ => meets_pure trivial
      · exact fun _ _ => meets_pure trivial
  | returnStatement value =>
      simp only [Run.execute]
      apply meets_node hC
      split
      · exact meets_pure trivial
      · exact meets_bind (hvalue _) fun _ _ => meets_pure trivial
  | _ =>
      simp only [Run.execute]
      exact meets_fail trivial

end Step

/-- With any fuel, expressions leave every table as it is, and statements change what they assign
to. -/
theorem scoped_of_fuel (fuel : Nat) : Scoped fuel := by
  induction fuel with
  | zero =>
      refine ⟨?_, ?_, ?_⟩
      · intro b tree
        rw [evaluate_zero]
        exact meets_spent
      · intro b array method args
        rw [Run.callMethod]
        exact meets_spent
      · intro b tree free _
        rw [execute_zero]
        exact meets_spent
  | succ fuel ih =>
      exact ⟨fun b => meets_evaluate ih, fun b => meets_callMethod ih,
        fun b tree free hfree => meets_execute ih tree hfree⟩

/-- An expression that has a value leaves the variables bound as they were. A statement that is done
changes at most what the assignments in it name, outside of the functions it declares. And whether a
statement is done or not, every name that was bound is still bound. -/
theorem scope (fuel : Nat) (tree : Tree) (limits : Limits) (s : State) :
    (∀ v after, evaluate fuel tree limits s = .done v after → after.bindings = s.bindings) ∧
    (∀ completion after, execute fuel tree limits s = .done completion after →
      ∀ name, (∀ target ∈ tree.targets, target.key ≠ name.key) →
        after.bindings.get? name = s.bindings.get? name) ∧
    ∀ name, s.bindings.contains name = true →
      (execute fuel tree limits s).after.bindings.contains name = true := by
  have hfree : ∀ target ∈ tree.targets, ∀ name : Scalar, target.key = name.key →
      ∃ target ∈ tree.targets, target.key = name.key :=
    fun target htarget name hkey => ⟨target, htarget, hkey⟩
  have hexecute := (scoped_of_fuel fuel).execute s.bindings tree _ hfree limits s
    ⟨fun _ _ => rfl, Table.Retains.refl _⟩
  refine ⟨?_, ?_, ?_⟩
  · intro v after hdone
    have hevaluate := (scoped_of_fuel fuel).evaluate s.bindings tree limits s rfl
    rw [hdone] at hevaluate
    exact hevaluate.2
  · intro completion after hdone name hname
    rw [hdone] at hexecute
    apply hexecute.2.1 name
    rintro ⟨target, htarget, hkey⟩
    exact hname target htarget hkey
  · intro name hname
    cases hout : execute fuel tree limits s with
    | done completion after =>
        rw [hout] at hexecute
        exact hexecute.2.2 name hname
    | failed fault after =>
        rw [hout] at hexecute
        exact hexecute.2 name hname
    | outOfFuel after =>
        rw [hout] at hexecute
        exact hexecute name hname

end Run

end Sprig
