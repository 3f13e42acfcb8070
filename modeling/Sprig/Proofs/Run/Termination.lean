import Sprig.Proofs.Run.Limits

/-!
# Programs without loops end

In a program without `while` every way to go on without end leads deeper: a function that calls
itself is worked on inside of its own call. So the depth limit ends every such run, whatever the
functions call and declare. For each node that may still be worked on inside of another, two units
of fuel are enough, since a method of an array takes one of its own. What is done side by side, the
statements of a block or the arguments of a call, starts with the same fuel.
-/

namespace Sprig

namespace Tree

variable {tree : Tree} {kind : NodeKind} {parts trees : List Tree}

/-- Whether there is no loop inside of a tree. -/
def Loopless (tree : Tree) : Prop := ∀ condition body, ¬Within (.whileStatement condition body) tree

theorem Loopless.part (h : tree.Loopless) (node : tree.node? = some (kind, parts)) :
    ∀ part ∈ parts, part.Loopless :=
  fun _ hpart _ _ hin => h _ _ (.part node hpart hin)

theorem Loopless.items (h : tree.Loopless) (hitems : tree.items? = some trees) :
    ∀ item ∈ trees, item.Loopless := by
  intro item hitem condition body hin
  rcases within_of_items hitems hitem hin with hin | ⟨s, heq⟩
  · exact h _ _ hin
  · simp [text] at heq

@[simp] theorem loopless_text (s : String) : (text s).Loopless :=
  fun _ _ hin => by cases within_scalar.mp hin

theorem loopless_list (h : ∀ item ∈ trees, item.Loopless) : (list trees).Loopless := by
  intro condition body hin
  rcases within_list.mp hin with heq | ⟨item, hmem, hin⟩
  · cases heq
  · exact h item hmem _ _ hin

/-- A node that is no loop has the loops of its parts. -/
theorem loopless_node (node : tree.node? = some (kind, parts)) (hkind : kind ≠ .whileStatement)
    (h : ∀ part ∈ parts, part.Loopless) : tree.Loopless := by
  intro condition body hin
  rcases (within_node node).mp hin with rfl | ⟨part, hmem, hin⟩
  · exact hkind (Prod.mk.inj (Option.some.inj node)).1.symm
  · exact h part hmem _ _ hin

end Tree

/-- Whether the bodies of all functions are without loops. -/
def State.IsLoopless (s : State) : Prop :=
  ∀ name function, s.functions.get? name = some function → function.body.Loopless

/-- Whether a step ended: at the depth at which it started, with a value of a property and with
functions without loops, or with a fault. -/
def Outcome.Settled {α : Type} (depth : Nat) (P : α → Prop) : Outcome α → Prop
  | .done v after => P v ∧ after.depth = depth ∧ after.IsLoopless
  | .failed _ _ => True
  | .outOfFuel _ => False

namespace Run

/-- Whether a step ends that starts at a depth with functions without loops. -/
def Settles {α : Type} (limits : Limits) (depth : Nat) (P : α → Prop) (run : Run α) : Prop :=
  ∀ s : State, s.depth = depth → s.IsLoopless → (run limits s).Settled depth P

variable {α β : Type} {limits : Limits} {depth : Nat} {P : α → Prop} {Q : β → Prop}

section Steps

theorem settles_pure {v : α} (h : P v) : Settles limits depth P (pure v) :=
  fun _ hdepth hs => ⟨h, hdepth, hs⟩

theorem settles_fail (fault : Fault) : Settles limits depth P (fail fault) :=
  fun _ _ _ => trivial

/-- One step after the other ends when both do. -/
theorem settles_bind {first : Run α} {next : α → Run β} (hfirst : Settles limits depth P first)
    (hnext : ∀ a, P a → Settles limits depth Q (next a)) :
    Settles limits depth Q (first >>= next) := by
  intro s hdepth hs
  have hout := hfirst s hdepth hs
  rw [bind_apply]
  cases hrun : first limits s with
  | done a mid =>
      rw [hrun] at hout
      obtain ⟨ha, hmid, hloopless⟩ := hout
      exact hnext a ha mid hmid hloopless
  | failed fault after => exact trivial
  | outOfFuel after =>
      rw [hrun] at hout
      exact hout

/-- One step after the other ends when both do, whatever the first one gives. -/
theorem settles_next {first : Run α} {next : α → Run β}
    (hfirst : Settles limits depth (fun _ => True) first)
    (hnext : ∀ a, Settles limits depth Q (next a)) : Settles limits depth Q (first >>= next) :=
  settles_bind hfirst fun a _ => hnext a

theorem settles_read {part : State → α} (h : ∀ s : State, s.IsLoopless → P (part s)) :
    Settles limits depth P (read part) :=
  fun s hdepth hs => ⟨h s hs, hdepth, hs⟩

theorem settles_change {f : State → State} (hdepth : ∀ s, (f s).depth = s.depth)
    (h : ∀ s : State, s.IsLoopless → (f s).IsLoopless) :
    Settles limits depth (fun _ => True) (change f) :=
  fun s hs hloopless => ⟨trivial, (hdepth s).trans hs, h s hloopless⟩

theorem settles_lift (result : Except Fault α) :
    Settles limits depth (fun _ => True) (lift result) := by
  cases result with
  | ok v => exact settles_pure trivial
  | error fault => exact settles_fail fault

theorem settles_display (v : Value) : Settles limits depth (fun _ => True) (display v) := by
  intro s hdepth hs
  unfold display
  split
  · exact ⟨trivial, hdepth, hs⟩
  · exact trivial

theorem settles_displayAll (vs : List Value) :
    Settles limits depth (fun _ => True) (displayAll vs) := by
  intro s hdepth hs
  unfold displayAll
  split
  · exact ⟨trivial, hdepth, hs⟩
  · exact trivial

theorem settles_push (event : Event) : Settles limits depth (fun _ => True) (push event) :=
  settles_change (fun _ => rfl) fun _ hs => hs

theorem settles_note {event : Run Event} (level : Nat)
    (h : Settles limits depth (fun _ => True) event) :
    Settles limits depth (fun _ => True) (note level event) := by
  intro s hdepth hs
  unfold note
  split
  · exact ⟨trivial, hdepth, hs⟩
  · exact settles_next h settles_push s hdepth hs

/-- Working on a node ends when working on its parts does, if the limit allows it at all. -/
theorem settles_nested (kind : NodeKind) {work : Run α}
    (h : (depth : Int) + 1 ≤ limits.depth → Settles limits (depth + 1) P work) :
    Settles limits depth P (nested kind work) := by
  intro s hdepth hs
  unfold nested
  split
  · exact trivial
  · next hle =>
    have hinner := h (by omega) { s with depth := s.depth + 1 } (by simp [hdepth]) hs
    cases hwork : work limits { s with depth := s.depth + 1 } with
    | done v after =>
        rw [hwork] at hinner
        obtain ⟨hv, hafter, hloopless⟩ := hinner
        exact ⟨hv, by simp [hafter], hloopless⟩
    | failed fault after => exact trivial
    | outOfFuel after =>
        rw [hwork] at hinner
        exact hinner

end Steps

section Operations

theorem settles_scalarPart (tree : Tree) :
    Settles limits depth (fun _ => True) (scalarPart tree) := by
  unfold scalarPart
  split
  · exact settles_pure trivial
  · exact settles_fail _

theorem settles_listPart {tree : Tree} {P : List Tree → Prop}
    (h : ∀ trees, tree.items? = some trees → P trees) :
    Settles limits depth P (listPart tree) := by
  unfold listPart
  split
  · next items hitems => exact settles_pure (h items hitems)
  · exact settles_fail _

theorem settles_textParts (trees : List Tree) :
    Settles limits depth (fun _ => True) (textParts trees) := by
  rcases textParts_cases trees with ⟨names, -, hnames⟩ | ⟨-, hfail⟩
  · rw [hnames]
    exact settles_pure trivial
  · rw [hfail]
    exact settles_fail _

theorem settles_noteText (level : Nat) (v : Value) (event : String → Event) :
    Settles limits depth (fun _ => True) (note level (do return event (← display v))) :=
  settles_note level (settles_next (settles_display v) fun _ => settles_pure trivial)

theorem settles_lookup (name : Scalar) : Settles limits depth (fun _ => True) (lookup name) := by
  apply settles_next (settles_read fun _ _ => trivial)
  intro v?
  cases v? with
  | none => exact settles_fail _
  | some v => exact settles_pure trivial

theorem settles_lookupArray (name : Scalar) :
    Settles limits depth (fun _ => True) (lookupArray name) := by
  apply settles_next (settles_lookup name)
  intro v
  cases v with
  | array address => exact settles_pure trivial
  | _ => exact settles_fail _

theorem settles_assign (name : Scalar) (v : Value) :
    Settles limits depth (fun _ => True) (assign name v) :=
  settles_change (fun _ => rfl) fun _ hs => hs

/-- Putting a table back. -/
theorem settles_restore (kept : Table Value) : Settles limits depth (fun _ => True)
    (change fun s => { s with bindings := kept }) :=
  settles_change (fun _ => rfl) fun _ hs => hs

theorem settles_printLine (text : String) :
    Settles limits depth (fun _ => True) (printLine text) :=
  settles_change (fun _ => rfl) fun _ hs => hs

theorem settles_updateArray (address : Address) (f : Array Value → Array Value) :
    Settles limits depth (fun _ => True) (updateArray address f) :=
  settles_change (fun _ => rfl) fun _ hs => hs

theorem settles_bindAll (params : List Tree) (args : List Value) :
    Settles limits depth (fun _ => True) (bindAll params args) := by
  induction params generalizing args with
  | nil => exact settles_pure trivial
  | cons param params ih =>
      apply settles_next (settles_scalarPart param)
      intro name
      apply settles_next (settles_assign name _)
      intro _
      exact settles_next (settles_noteText 2 _ _) fun _ => ih args.tail

theorem settles_applyBinary (operator : Scalar) (left right : Value) :
    Settles limits depth (fun _ => True) (applyBinary operator left right) := by
  unfold applyBinary
  split
  · apply settles_next (settles_display left)
    intro front
    exact settles_next (settles_display right) fun back => settles_pure trivial
  · exact settles_lift _

theorem settles_checkIndex (address : Address) (index : Value) :
    Settles limits depth (fun _ => True) (checkIndex address index) :=
  settles_next (settles_read fun _ _ => trivial) settles_lift

theorem settles_joinItems (address : Address) (args : List Value) :
    Settles limits depth (fun _ => True) (joinItems address args) := by
  have hrest : ∀ separator, Settles limits depth (fun _ => True) (do
      let items ← itemsOf address
      let texts ← displayAll items.toList
      return Value.text (String.intercalate separator texts)) := by
    intro separator
    apply settles_next (settles_read fun _ _ => trivial)
    intro items
    exact settles_next (settles_displayAll _) fun texts => settles_pure trivial
  unfold joinItems
  dsimp only
  split
  · exact settles_next (settles_display _) hrest
  · exact hrest ","

theorem settles_applyMethod (address : Address) (method : Scalar) (args : List Value) :
    Settles limits depth (fun _ => True) (applyMethod address method args) := by
  unfold applyMethod
  split
  · apply settles_next (settles_updateArray address _)
    intro _
    exact settles_next (settles_read fun _ _ => trivial) fun items => settles_pure trivial
  split
  · apply settles_next (settles_read fun _ _ => trivial)
    intro last
    exact settles_next (settles_updateArray address _) fun _ => settles_pure trivial
  split
  · exact settles_joinItems address args
  · exact settles_fail _

theorem settles_applyProperty (address : Address) (property : Scalar) :
    Settles limits depth (fun _ => True) (applyProperty address property) := by
  unfold applyProperty
  split
  · exact settles_next (settles_read fun _ _ => trivial) fun items => settles_pure trivial
  · exact settles_fail _

/-- A function without loops may take the place of another. -/
theorem settles_declare (name : Scalar) (params : Tree) {body : Tree} (h : body.Loopless) :
    Settles limits depth (fun _ => True)
      (change fun s => { s with functions := s.functions.set name ⟨params, body⟩ }) := by
  refine settles_change (fun _ => rfl) fun s hs other function hfunction => ?_
  simp only [Table.get?_set] at hfunction
  split at hfunction
  · obtain rfl := Option.some.inj hfunction
    exact h
  · exact hs other function hfunction

theorem settles_block {statement : Tree → Run Completion} {trees : List Tree}
    (h : ∀ tree ∈ trees, Settles limits depth (fun _ => True) (statement tree))
    (last : Completion) : Settles limits depth (fun _ => True) (block statement last trees) := by
  induction trees generalizing last with
  | nil => exact settles_pure trivial
  | cons tree trees ih =>
      apply settles_next (h tree (by simp))
      intro completion
      split
      · exact settles_pure trivial
      · exact ih (fun t ht => h t (by simp [ht])) completion

theorem settles_values {value : Tree → Run Value} {trees : List Tree}
    (h : ∀ tree ∈ trees, Settles limits depth (fun _ => True) (value tree)) :
    Settles limits depth (fun _ => True) (values value trees) := by
  induction trees with
  | nil => exact settles_pure trivial
  | cons tree trees ih =>
      apply settles_next (h tree (by simp))
      intro first
      exact settles_next (ih fun t ht => h t (by simp [ht])) fun rest => settles_pure trivial

end Operations

/-- Whether everything without loops ends that the interpreter works on at a depth with some
fuel. -/
structure Ends (limits : Limits) (fuel depth : Nat) : Prop where
  evaluate {tree : Tree} (h : tree.Loopless) :
    Settles limits depth (fun _ => True) (evaluate fuel tree)
  callMethod (array method : Tree) {args : Tree} (h : args.Loopless) :
    Settles limits depth (fun _ => True) (callMethod fuel array method args)
  execute {tree : Tree} (h : tree.Loopless) :
    Settles limits depth (fun _ => True) (execute fuel tree)

section Interpreter

variable {fuel : Nat}

/-- The arguments of a call end when the interpreter does. -/
theorem settles_arguments
    (h : ∀ {tree : Tree}, tree.Loopless →
      Settles limits depth (fun _ => True) (evaluate fuel tree))
    {args : Tree} (hargs : args.Loopless) :
    Settles limits depth (fun _ => True) (do values (evaluate fuel) (← listPart args)) := by
  apply settles_bind (settles_listPart fun trees hitems => hargs.items hitems)
  intro trees htrees
  exact settles_values fun tree htree => h (htrees tree htree)

theorem Ends.block (h : Ends limits fuel depth) {body : Tree} (hbody : body.Loopless) :
    Settles limits depth (fun _ => True)
      (do Run.block (Run.execute fuel) (plain .none) (← listPart body)) := by
  apply settles_bind (settles_listPart fun trees hitems => hbody.items hitems)
  intro trees htrees
  exact settles_block (fun tree htree => h.execute (htrees tree htree)) _

/-- A method takes one unit of fuel more than its arguments, at the same depth. -/
theorem settles_callMethod
    (h : ∀ {tree : Tree}, tree.Loopless →
      Settles limits depth (fun _ => True) (evaluate fuel tree))
    (array method : Tree) {args : Tree} (hargs : args.Loopless) :
    Settles limits depth (fun _ => True) (callMethod (fuel + 1) array method args) := by
  simp only [callMethod]
  apply settles_next (settles_scalarPart array)
  intro array
  apply settles_next (settles_lookupArray array)
  intro address
  simp only [← bind_assoc (listPart args)]
  apply settles_next (settles_arguments h hargs)
  intro vs
  apply settles_next (settles_scalarPart method)
  intro method
  apply settles_next (settles_applyMethod address method vs)
  intro v
  exact settles_next (settles_noteText 3 v _) fun _ => settles_pure trivial

/-- A call ends, since the body of the function is worked on inside of it. -/
theorem settles_call (h : (depth : Int) + 1 ≤ limits.depth → Ends limits fuel (depth + 1))
    (name : Tree) {args : Tree} (hargs : args.Loopless) :
    Settles limits depth (fun _ => True) (evaluate (fuel + 1) (.call name args)) := by
  simp only [evaluate]
  refine settles_nested _ fun hle => settles_next (settles_scalarPart name) fun name => ?_
  apply settles_bind (P := fun function? => ∀ function, function? = some function →
    function.body.Loopless) (settles_read fun s hs function hfunction => hs name function hfunction)
  intro function? hfunction
  cases function? with
  | none => exact settles_fail _
  | some function =>
      dsimp only
      simp only [← bind_assoc (listPart args)]
      apply settles_next (settles_arguments (h hle).evaluate hargs)
      intro vs
      apply settles_next (settles_note 1 (settles_next (settles_displayAll vs) fun _ =>
        settles_pure trivial))
      intro _
      apply settles_next (settles_read fun _ _ => trivial)
      intro kept
      apply settles_next (settles_listPart fun _ _ => trivial)
      intro params
      apply settles_next (settles_bindAll params vs)
      intro _
      simp only [← bind_assoc (listPart function.body)]
      apply settles_next ((h hle).block (hfunction function rfl))
      intro completion
      apply settles_next (settles_restore kept)
      intro _
      exact settles_next (settles_noteText 1 completion.value _) fun _ => settles_pure trivial

/-- An expression ends when what it works on deeper down does. -/
theorem settles_evaluate (h : (depth : Int) + 1 ≤ limits.depth → Ends limits fuel (depth + 1))
    {tree : Tree} (htree : tree.Loopless) :
    Settles limits depth (fun _ => True) (evaluate (fuel + 1) tree) := by
  have hpart : ∀ {kind parts}, tree.node? = some (kind, parts) → ∀ part ∈ parts, part.Loopless :=
    fun node => htree.part node
  cases tree with
  | number value | string value | boolean value =>
      simp only [evaluate]
      exact settles_nested _ fun _ => settles_next (settles_scalarPart value) fun v =>
        settles_pure trivial
  | «variable» name =>
      simp only [evaluate]
      exact settles_nested _ fun _ => settles_next (settles_scalarPart name) settles_lookup
  | unary operator operand =>
      simp only [evaluate]
      refine settles_nested _ fun hle => ?_
      apply settles_next ((h hle).evaluate (hpart rfl operand (by simp)))
      intro v
      exact settles_next (settles_scalarPart operator) fun operator => settles_lift _
  | binary operator left right =>
      simp only [evaluate]
      refine settles_nested _ fun hle => ?_
      apply settles_next ((h hle).evaluate (hpart rfl left (by simp)))
      intro l
      apply settles_next ((h hle).evaluate (hpart rfl right (by simp)))
      intro r
      exact settles_next (settles_scalarPart operator) fun operator => settles_applyBinary _ l r
  | comparison operator left right =>
      simp only [evaluate]
      refine settles_nested _ fun hle => ?_
      apply settles_next ((h hle).evaluate (hpart rfl left (by simp)))
      intro l
      apply settles_next ((h hle).evaluate (hpart rfl right (by simp)))
      intro r
      exact settles_next (settles_scalarPart operator) fun operator => settles_lift _
  | arrayLiteral elements =>
      simp only [evaluate, ← bind_assoc (listPart elements)]
      refine settles_nested _ fun hle => ?_
      apply settles_next (settles_arguments (h hle).evaluate (hpart rfl elements (by simp)))
      exact fun vs s hs hloopless => ⟨trivial, hs, hloopless⟩
  | elementAccess array index =>
      simp only [evaluate]
      refine settles_nested _ fun hle => settles_next (settles_scalarPart array) fun array => ?_
      apply settles_next (settles_lookupArray array)
      intro address
      apply settles_next ((h hle).evaluate (hpart rfl index (by simp)))
      intro index
      exact settles_next (settles_checkIndex address index) fun place =>
        settles_read fun _ _ => trivial
  | methodExpression array method args =>
      simp only [evaluate]
      exact settles_nested _ fun hle => (h hle).callMethod array method (hpart rfl args (by simp))
  | arrayProperty array property =>
      simp only [evaluate]
      refine settles_nested _ fun hle => settles_next (settles_scalarPart array) fun array => ?_
      apply settles_next (settles_lookupArray array)
      intro address
      exact settles_next (settles_scalarPart property) (settles_applyProperty address)
  | call name args => exact settles_call h name (hpart rfl args (by simp))
  | _ =>
      simp only [evaluate]
      exact settles_fail _

/-- A statement that is no loop ends when what it works on deeper down does. -/
theorem settles_execute (h : (depth : Int) + 1 ≤ limits.depth → Ends limits fuel (depth + 1))
    {tree : Tree} (htree : tree.Loopless) :
    Settles limits depth (fun _ => True) (execute (fuel + 1) tree) := by
  have hpart : ∀ {kind parts}, tree.node? = some (kind, parts) → ∀ part ∈ parts, part.Loopless :=
    fun node => htree.part node
  cases tree with
  | assignment name value =>
      simp only [execute]
      refine settles_nested _ fun hle => ?_
      apply settles_next ((h hle).evaluate (hpart rfl value (by simp)))
      intro v
      apply settles_next (settles_scalarPart name)
      intro name
      apply settles_next (settles_assign name v)
      intro _
      exact settles_next (settles_noteText 2 v _) fun _ => settles_pure trivial
  | print value =>
      simp only [execute]
      refine settles_nested _ fun hle => ?_
      apply settles_next ((h hle).evaluate (hpart rfl value (by simp)))
      intro v
      apply settles_next (settles_display v)
      intro text
      exact settles_next (settles_printLine text) fun _ => settles_pure trivial
  | expressionStatement expression =>
      simp only [execute]
      exact settles_nested _ fun hle => settles_next
        ((h hle).evaluate (hpart rfl expression (by simp))) fun v => settles_pure trivial
  | ifStatement condition ifBlock elseBlock =>
      simp only [execute]
      refine settles_nested _ fun hle => ?_
      apply settles_next ((h hle).evaluate (hpart rfl condition (by simp)))
      intro v
      apply settles_next (settles_noteText 3 v _)
      intro _
      split
      · exact (h hle).block (hpart rfl ifBlock (by simp))
      · split
        · exact settles_pure trivial
        · exact (h hle).block (hpart rfl elseBlock (by simp))
  | whileStatement condition body => exact absurd .self (htree condition body)
  | elementAssignment array index value =>
      simp only [execute]
      refine settles_nested _ fun hle => settles_next (settles_scalarPart array) fun array => ?_
      apply settles_next (settles_lookupArray array)
      intro address
      apply settles_next ((h hle).evaluate (hpart rfl index (by simp)))
      intro index
      apply settles_next ((h hle).evaluate (hpart rfl value (by simp)))
      intro v
      have hset : Settles limits (depth + 1) (fun _ => True) (setElement address index v) :=
        settles_next (settles_checkIndex address index) fun place => settles_updateArray address _
      apply settles_next hset
      intro _
      have htold : Settles limits (depth + 1) (fun _ => True)
          (do return Event.elementSet array (← display index) (← display v)) :=
        settles_next (settles_display index) fun _ => settles_next (settles_display v) fun _ =>
          settles_pure trivial
      exact settles_next (settles_note 3 htold) fun _ => settles_pure trivial
  | methodCall array method args =>
      simp only [execute]
      exact settles_nested _ fun hle => settles_next
        ((h hle).callMethod array method (hpart rfl args (by simp))) fun v => settles_pure trivial
  | functionDeclaration name params body =>
      simp only [execute]
      refine settles_nested _ fun hle => settles_next (settles_scalarPart name) fun name => ?_
      apply settles_next (settles_declare name params (hpart rfl body (by simp)))
      intro _
      have htold : Settles limits (depth + 1) (fun _ => True)
          (do return Event.defined name (← textParts (← listPart params))) :=
        settles_next (settles_listPart fun _ _ => trivial) fun trees =>
          settles_next (settles_textParts trees) fun _ => settles_pure trivial
      exact settles_next (settles_note 2 htold) fun _ => settles_pure trivial
  | returnStatement value =>
      simp only [execute]
      refine settles_nested _ fun hle => ?_
      split
      · exact settles_pure trivial
      · exact settles_next ((h hle).evaluate (hpart rfl value (by simp))) fun v =>
          settles_pure trivial
  | _ =>
      simp only [execute]
      exact settles_fail _

end Interpreter

/-- Two units of fuel for each node that may still be worked on inside of another, and one more, are
enough for statements and expressions without loops. -/
theorem settles_of_fuel {left fuel : Nat} (hleft : (limits.depth - depth).toNat ≤ left)
    (hfuel : 2 * left < fuel) {tree : Tree} (htree : tree.Loopless) :
    Settles limits depth (fun _ => True) (evaluate fuel tree) ∧
      Settles limits depth (fun _ => True) (execute fuel tree) := by
  -- On how many nodes may still be worked on inside of another, for all trees at once.
  induction left generalizing depth fuel tree with
  | zero =>
      obtain ⟨fuel, rfl⟩ := Nat.exists_eq_add_one_of_ne_zero (Nat.ne_of_gt hfuel)
      have hnone : (depth : Int) + 1 ≤ limits.depth → Ends limits fuel (depth + 1) := by omega
      exact ⟨settles_evaluate hnone htree, settles_execute hnone htree⟩
  | succ left ih =>
      obtain ⟨fuel, rfl⟩ : ∃ less, fuel = less + 2 := ⟨fuel - 2, by omega⟩
      have hdeeper : (limits.depth - (depth + 1 : Nat)).toNat ≤ left := by omega
      have hends : Ends limits (fuel + 1) (depth + 1) := {
        evaluate := fun h => (ih hdeeper (by omega) h).1
        callMethod := fun array method _ h =>
          settles_callMethod (fun htree => (ih hdeeper (by omega) htree).1) array method h
        execute := fun h => (ih hdeeper (by omega) h).2 }
      exact ⟨settles_evaluate (fun _ => hends) htree, settles_execute (fun _ => hends) htree⟩

/-- Fuel that is enough for every program without loops. -/
def enoughFuel (limits : Limits) (s : State) : Nat := 2 * (limits.depth - s.depth).toNat + 1

/-- The statements of a program without loops end one after the other. -/
theorem settles_statements {fuel : Nat} (hfuel : 2 * (limits.depth - depth).toNat < fuel)
    {trees : List Tree} (htrees : ∀ tree ∈ trees, tree.Loopless) :
    Settles limits depth (fun _ => True) (statements fuel trees) := by
  unfold statements
  generalize Value.none = first
  induction trees generalizing first with
  | nil => exact settles_pure trivial
  | cons tree trees ih =>
      simp only [List.foldlM_cons]
      apply settles_next
      · apply settles_next (settles_note 1 (settles_pure trivial))
        intro _
        exact settles_next (settles_of_fuel (Nat.le_refl _) hfuel (htrees tree (by simp))).2
          fun last => settles_pure trivial
      · exact ih fun tree htree => htrees tree (by simp [htree])

variable {trees : List Tree} {s : State}

theorem program_ne_outOfFuel (htrees : ∀ tree ∈ trees, tree.Loopless) (hs : s.IsLoopless)
    {fuel : Nat} (hfuel : enoughFuel limits s ≤ fuel) (t : State) :
    program fuel trees limits s ≠ .outOfFuel t := by
  intro hout
  unfold program at hout
  split at hout
  · cases hout
  · have hstatements : Settles limits s.depth (fun _ => True) (statements fuel trees) :=
      settles_statements hfuel htrees
    have hsettled := hstatements s rfl hs
    rw [hout] at hsettled
    exact hsettled

/-- A program without loops ends in every state whose functions have none, whatever the variables,
the arrays and the limits are: there is a value or a fault with which it ends for every amount of
fuel that is enough. The fuel that programs are run with is. -/
theorem loopless_program_ends (htrees : ∀ tree ∈ trees, tree.Loopless) (hs : s.IsLoopless)
    (limits : Limits) :
    ((∃ v t, ∀ fuel, enoughFuel limits s ≤ fuel → program fuel trees limits s = .done v t) ∨
      ∃ fault t, ∀ fuel, enoughFuel limits s ≤ fuel →
        program fuel trees limits s = .failed fault t) ∧
    ∀ t, program ampleFuel trees limits s ≠ .outOfFuel t := by
  have hends : ∀ t, program (enoughFuel limits s) trees limits s ≠ .outOfFuel t :=
    program_ne_outOfFuel htrees hs (Nat.le_refl _)
  have hsame : ∀ fuel, enoughFuel limits s ≤ fuel →
      program fuel trees limits s = program (enoughFuel limits s) trees limits s :=
    fun fuel hfuel => program_of_le hfuel hends
  constructor
  · cases hout : program (enoughFuel limits s) trees limits s with
    | done v t => exact .inl ⟨v, t, fun fuel hfuel => (hsame fuel hfuel).trans hout⟩
    | failed fault t => exact .inr ⟨fault, t, fun fuel hfuel => (hsame fuel hfuel).trans hout⟩
    | outOfFuel t => exact absurd hout (hends t)
  · intro t
    by_cases hlimit : greatestDepth < limits.depth
    · rw [program, if_pos hlimit]
      nofun
    · have hample : enoughFuel limits s ≤ ampleFuel := by
        have hfuel : ampleFuel = 4611686018427387904 := by decide
        simp only [enoughFuel, greatestDepth] at hlimit ⊢
        omega
      exact program_ne_outOfFuel htrees hs hample t

/-- A function that declares itself anew, calls itself twice, and prints an array that holds
itself. -/
theorem loopless_program_ends_redeclared :
    let call : Tree := .expressionStatement (.call (.text "f") (.list []))
    let inner : Tree := .functionDeclaration (.text "f") (.list []) (.list [call, call])
    let print : Tree := .print (.variable (.text "a"))
    let s : State := { State.start with
      bindings := State.start.bindings.set (.text "a") (.array 0)
      functions := State.start.functions.set (.text "f") ⟨.list [], .list [inner, call, print]⟩
      heap := (Heap.empty.allocate #[.array 0]).2 }
    (∀ tree ∈ [call, print], tree.Loopless) ∧ s.IsLoopless ∧
      ∀ t, program ampleFuel [call, print] ⟨1500, 3⟩ s ≠ .outOfFuel t := by
  intro call inner print s
  have hcalled : (Tree.call (.text "f") (.list [])).Loopless :=
    Tree.loopless_node rfl (by simp) (by simp [Tree.loopless_list])
  have hcall : call.Loopless := Tree.loopless_node rfl (by simp) (by simpa using hcalled)
  have harray : (Tree.variable (.text "a")).Loopless :=
    Tree.loopless_node rfl (by simp) (by simp)
  have hprint : print.Loopless := Tree.loopless_node rfl (by simp) (by simpa using harray)
  have hinner : inner.Loopless :=
    Tree.loopless_node rfl (by simp) (by simp [Tree.loopless_list, hcall])
  have htrees : ∀ tree ∈ [call, print], tree.Loopless := by simp [hcall, hprint]
  have hs : s.IsLoopless := by
    intro name function hfunction
    simp only [s, State.start, Table.get?_set, Table.get?_empty] at hfunction
    split at hfunction
    · obtain rfl := Option.some.inj hfunction
      exact Tree.loopless_list (by simp [hinner, hcall, hprint])
    · cases hfunction
  exact ⟨htrees, hs, (loopless_program_ends htrees hs ⟨1500, 3⟩).2⟩

end Run

end Sprig
