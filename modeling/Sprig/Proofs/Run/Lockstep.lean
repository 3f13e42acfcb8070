import Sprig.Proofs.Run.Easing
import Sprig.Proofs.Run.SharedArrays

/-!
# Programs under eased limits

The steps of the interpreter go side by side under eased limits, one by one, and by induction on the
fuel so do whole programs. From this follow what a depth limit and a trace can change about a run,
and that more fuel changes no run that has ended.
-/

namespace Sprig.Run

variable {E : Easing} {base : List Event} {α : Type}

section Operations

theorem couples_lookup (name : Scalar) :
    Couples (E.coupling base) Eq (lookup name) (lookup name) := by
  apply couples_next (couples_read fun _ _ => rfl)
  intro v?
  cases v? with
  | none => exact couples_fail rfl
  | some v => exact couples_pure rfl

theorem couples_lookupArray (name : Scalar) :
    Couples (E.coupling base) Eq (lookupArray name) (lookupArray name) := by
  apply couples_next (couples_lookup name)
  intro v
  cases v with
  | array address => exact couples_pure rfl
  | _ => exact couples_fail rfl

theorem couples_assign (name : Scalar) (v : Value) :
    Couples (E.coupling base) Eq (assign name v) (assign name v) :=
  couples_change (fun _ _ => rfl) (fun _ => rfl) fun _ => rfl

/-- Putting a table back. -/
theorem couples_restore (kept : Table Value) :
    let restore := change fun s => { s with bindings := kept }
    Couples (E.coupling base) Eq restore restore :=
  couples_change (fun _ _ => rfl) (fun _ => rfl) fun _ => rfl

/-- Eased limits leave the arrays alone. -/
theorem easing_sharesArrays : (E.coupling base).SharesArrays where
  read _ := couples_read fun _ _ => rfl
  change _ := couples_change (fun _ _ => rfl) (fun _ => rfl) fun _ => rfl
  display := couples_display
  displayAll := couples_displayAll
  faults _ _ := rfl

variable (hfragile : E.fragile)
include hfragile

theorem couples_bindAll (params : List Tree) (args : List Value) :
    Couples (E.coupling base) Eq (bindAll params args) (bindAll params args) := by
  induction params generalizing args with
  | nil => exact couples_pure rfl
  | cons param params ih =>
      apply couples_next (couples_scalarPart param)
      intro name
      apply couples_next (couples_assign name _)
      intro _
      apply couples_next (couples_note hfragile (.bound name _))
      exact fun _ => ih args.tail

end Operations

/-- Whether the interpreter goes side by side with itself, with fuel for each side. -/
structure Paired (E : Easing) (base : List Event) (fuel others : Nat) : Prop where
  evaluate {tree : Tree} (h : E.Fits tree) :
    Couples (E.coupling base) Eq (evaluate fuel tree) (evaluate others tree)
  callMethod (array method : Tree) {args : Tree} (h : E.Fits args) :
    Couples (E.coupling base) Eq (callMethod fuel array method args)
      (callMethod others array method args)
  execute {tree : Tree} (h : E.Fits tree) :
    Couples (E.coupling base) Eq (execute fuel tree) (execute others tree)

section Step

variable {fuel others : Nat}

theorem Paired.values (h : Paired E base fuel others) {args : Tree} (hargs : E.Fits args) :
    Couples (E.coupling base) Eq (do Run.values (Run.evaluate fuel) (← listPart args))
      (do Run.values (Run.evaluate others) (← listPart args)) := by
  apply couples_bind (couples_fittingParts hargs)
  rintro trees _ ⟨rfl, htrees⟩
  exact couples_values (List.forall₂_same.mpr fun tree htree => h.evaluate (htrees tree htree))

theorem Paired.block (h : Paired E base fuel others) {body : Tree} (hbody : E.Fits body) :
    Couples (E.coupling base) Eq
      (do Run.block (Run.execute fuel) (plain .none) (← listPart body))
      (do Run.block (Run.execute others) (plain .none) (← listPart body)) := by
  apply couples_bind (couples_fittingParts hbody)
  rintro trees _ ⟨rfl, htrees⟩
  exact couples_block (List.forall₂_same.mpr fun tree htree => h.execute (htrees tree htree)) _

variable (hfragile : E.fragile)
include hfragile

theorem couples_call (h : Paired E base fuel others) (name : Tree) {args : Tree}
    (hargs : E.Fits args) :
    Couples (E.coupling base) Eq (Run.evaluate (fuel + 1) (.call name args))
      (Run.evaluate (others + 1) (.call name args)) := by
  simp only [Run.evaluate]
  refine couples_nested _ (couples_next (couples_scalarPart name) fun name => ?_)
  apply couples_bind (couples_function name)
  rintro function? _ ⟨rfl, hfunction⟩
  cases function? with
  | none => exact couples_fail rfl
  | some function =>
      dsimp only
      simp only [← bind_assoc (listPart args)]
      apply couples_next (h.values hargs)
      intro vs
      apply couples_next (couples_note hfragile (.calling name vs))
      intro _
      apply couples_next (couples_read fun _ _ => rfl)
      intro kept
      apply couples_next (couples_listPart function.params)
      intro params
      apply couples_next (couples_bindAll hfragile params vs)
      intro _
      simp only [← bind_assoc (listPart function.body)]
      apply couples_next (h.block (hfunction function rfl))
      intro completion
      apply couples_next (couples_restore kept)
      intro _
      apply couples_next (couples_note hfragile (.returned name completion.value))
      exact fun _ => couples_pure rfl

theorem couples_callMethod (h : Paired E base fuel others) (array method : Tree) {args : Tree}
    (hargs : E.Fits args) :
    Couples (E.coupling base) Eq (Run.callMethod (fuel + 1) array method args)
      (Run.callMethod (others + 1) array method args) := by
  simp only [Run.callMethod]
  apply couples_next (couples_scalarPart array)
  intro array
  apply couples_next (couples_lookupArray array)
  intro address
  simp only [← bind_assoc (listPart args)]
  apply couples_next (h.values hargs)
  intro vs
  apply couples_next (couples_scalarPart method)
  intro method
  apply couples_next (easing_sharesArrays.applyMethod address method vs)
  intro v
  apply couples_next (couples_note hfragile (.methodAnswered array method v))
  exact fun _ => couples_pure rfl

theorem couples_evaluate (h : Paired E base fuel others) {tree : Tree} (htree : E.Fits tree) :
    Couples (E.coupling base) Eq (Run.evaluate (fuel + 1) tree)
      (Run.evaluate (others + 1) tree) := by
  have hpart : ∀ {kind parts}, tree.node? = some (kind, parts) → ∀ part ∈ parts, E.Fits part :=
    fun node part hmem hE => (htree hE).part node part hmem
  cases tree with
  | number value | string value | boolean value =>
      simp only [Run.evaluate]
      exact couples_nested _ (couples_next (couples_scalarPart value) fun v => couples_pure rfl)
  | «variable» name =>
      simp only [Run.evaluate]
      exact couples_nested _ (couples_next (couples_scalarPart name) couples_lookup)
  | unary operator operand =>
      simp only [Run.evaluate]
      refine couples_nested _ (couples_next (h.evaluate (hpart rfl operand (by simp))) fun v => ?_)
      exact couples_next (couples_scalarPart operator) fun operator => couples_same_lift _
  | binary operator left right =>
      simp only [Run.evaluate]
      refine couples_nested _ (couples_next (h.evaluate (hpart rfl left (by simp))) fun l => ?_)
      apply couples_next (h.evaluate (hpart rfl right (by simp)))
      intro r
      exact couples_next (couples_scalarPart operator) fun operator =>
        easing_sharesArrays.applyBinary _ l r
  | comparison operator left right =>
      simp only [Run.evaluate]
      refine couples_nested _ (couples_next (h.evaluate (hpart rfl left (by simp))) fun l => ?_)
      apply couples_next (h.evaluate (hpart rfl right (by simp)))
      intro r
      exact couples_next (couples_scalarPart operator) fun operator => couples_same_lift _
  | arrayLiteral elements =>
      simp only [Run.evaluate, ← bind_assoc (listPart elements)]
      refine couples_nested _ (couples_next (h.values (hpart rfl elements (by simp))) fun vs => ?_)
      exact easing_sharesArrays.newArray _
  | elementAccess array index =>
      simp only [Run.evaluate]
      refine couples_nested _ (couples_next (couples_scalarPart array) fun array => ?_)
      apply couples_next (couples_lookupArray array)
      intro address
      apply couples_next (h.evaluate (hpart rfl index (by simp)))
      exact easing_sharesArrays.elementAt address
  | methodExpression array method args =>
      simp only [Run.evaluate]
      exact couples_nested _ (h.callMethod array method (hpart rfl args (by simp)))
  | arrayProperty array property =>
      simp only [Run.evaluate]
      refine couples_nested _ (couples_next (couples_scalarPart array) fun array => ?_)
      apply couples_next (couples_lookupArray array)
      intro address
      exact couples_next (couples_scalarPart property) (easing_sharesArrays.applyProperty address)
  | call name args => exact couples_call hfragile h name (hpart rfl args (by simp))
  | _ =>
      simp only [Run.evaluate]
      exact couples_fail rfl

theorem couples_execute (h : Paired E base fuel others)
    (hfuel : (E.coupling base).Fuels fuel others) {tree : Tree} (htree : E.Fits tree) :
    Couples (E.coupling base) Eq (Run.execute (fuel + 1) tree) (Run.execute (others + 1) tree) := by
  have hpart : ∀ {kind parts}, tree.node? = some (kind, parts) → ∀ part ∈ parts, E.Fits part :=
    fun node part hmem hE => (htree hE).part node part hmem
  cases tree with
  | assignment name value =>
      simp only [Run.execute]
      refine couples_nested _ (couples_next (h.evaluate (hpart rfl value (by simp))) fun v => ?_)
      apply couples_next (couples_scalarPart name)
      intro name
      apply couples_next (couples_assign name v)
      intro _
      apply couples_next (couples_note hfragile (.assigned name v))
      exact fun _ => couples_pure rfl
  | print value =>
      simp only [Run.execute]
      refine couples_nested _ (couples_next (h.evaluate (hpart rfl value (by simp))) fun v => ?_)
      apply couples_next (couples_display v)
      intro text
      exact couples_next (couples_printLine text) fun _ => couples_pure rfl
  | expressionStatement expression =>
      simp only [Run.execute]
      refine couples_nested _ ?_
      exact couples_next (h.evaluate (hpart rfl expression (by simp))) fun v => couples_pure rfl
  | ifStatement condition ifBlock elseBlock =>
      simp only [Run.execute]
      refine couples_nested _
        (couples_next (h.evaluate (hpart rfl condition (by simp))) fun v => ?_)
      apply couples_next (couples_note hfragile (.branchTested v))
      intro _
      split
      · exact h.block (hpart rfl ifBlock (by simp))
      · split
        · exact couples_pure rfl
        · exact h.block (hpart rfl elseBlock (by simp))
  | whileStatement condition body =>
      simp only [Run.execute]
      refine couples_nested _ (couples_repeatWhile ?_ (h.block (hpart rfl body (by simp))) hfuel _)
      apply couples_next (h.evaluate (hpart rfl condition (by simp)))
      intro v
      exact couples_next (couples_note hfragile (.loopTested v)) fun _ => couples_pure rfl
  | elementAssignment array index value =>
      simp only [Run.execute]
      refine couples_nested _ (couples_next (couples_scalarPart array) fun array => ?_)
      apply couples_next (couples_lookupArray array)
      intro address
      apply couples_next (h.evaluate (hpart rfl index (by simp)))
      intro index
      apply couples_next (h.evaluate (hpart rfl value (by simp)))
      intro v
      apply couples_next (easing_sharesArrays.setElement address index v)
      intro _
      exact couples_next (couples_note hfragile (.elementSet array index v)) fun _ =>
        couples_pure rfl
  | methodCall array method args =>
      simp only [Run.execute]
      refine couples_nested _ ?_
      exact couples_next (h.callMethod array method (hpart rfl args (by simp)))
        fun v => couples_pure rfl
  | functionDeclaration name params body =>
      simp only [Run.execute]
      refine couples_nested _ (couples_next (couples_scalarPart name) fun name => ?_)
      apply couples_next (couples_declare name params (hpart rfl body (by simp)))
      intro _
      have hnames : E.named → (Draft.defined name params).IsNamed := fun hE => htree hE _ _ _ .self
      exact couples_next (couples_note hfragile (.defined name params) hnames)
        fun _ => couples_pure rfl
  | returnStatement value =>
      simp only [Run.execute]
      refine couples_nested _ ?_
      split
      · exact couples_pure rfl
      · exact couples_next (h.evaluate (hpart rfl value (by simp))) fun v => couples_pure rfl
  | _ =>
      simp only [Run.execute]
      exact couples_fail rfl

end Step

/-- The interpreter goes side by side with itself, with the fuel that a coupling allows. -/
theorem paired_of_fuels (hfragile : E.fragile) {fuel others : Nat}
    (h : (E.coupling base).Fuels fuel others) : Paired E base fuel others := by
  -- Each call of the interpreter spends fuel on both sides, until it is out on the first one.
  induction h with
  | spent =>
      constructor
      · intro tree _
        simp only [evaluate_zero]
        exact couples_spent
      · intro array method args _
        simp only [callMethod]
        exact couples_spent
      · intro tree _
        simp only [execute_zero]
        exact couples_spent
  | spare hspare fuel =>
      constructor
      · intro tree _
        simp only [evaluate_zero]
        exact couples_of_spare hspare _
      · intro array method args _
        simp only [callMethod]
        exact couples_of_spare hspare _
      · intro tree _
        simp only [execute_zero]
        exact couples_of_spare hspare _
  | succ hfuel ih =>
      constructor
      · exact fun htree => couples_evaluate hfragile ih htree
      · exact fun array method _ hargs => couples_callMethod hfragile ih array method hargs
      · exact fun htree => couples_execute hfragile ih hfuel htree

/-- Statements of a program go side by side. -/
theorem couples_statements (hfragile : E.fragile) {fuel others : Nat}
    (h : (E.coupling base).Fuels fuel others) {trees : List Tree}
    (htrees : ∀ tree ∈ trees, E.Fits tree) :
    Couples (E.coupling base) Eq (statements fuel trees) (statements others trees) := by
  have hpaired := paired_of_fuels hfragile h
  unfold statements
  generalize Value.none = first
  induction trees generalizing first with
  | nil => exact couples_pure rfl
  | cons tree trees ih =>
      simp only [List.foldlM_cons]
      apply couples_next
      · apply couples_next (couples_note hfragile (.executing tree.label))
        intro _
        exact couples_next (hpaired.execute (htrees tree (by simp))) fun last => couples_pure rfl
      · exact ih fun tree htree => htrees tree (by simp [htree])

end Sprig.Run
