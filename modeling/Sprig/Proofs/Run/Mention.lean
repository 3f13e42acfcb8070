import Sprig.Proofs.Run.Safety
import Sprig.Proofs.Run.Scope
import Sprig.Proofs.Tree.Words

/-!
# The names that faults tell

A fault tells the name, the operator or the method at which a run stopped. It takes it from a word
of the program, never from a value that the run made. So a property of all words of a program is one
of the names in its faults, also of those that come from inside of a call: the body of a function is
a part of the program that declared it.
-/

namespace Sprig

variable {P : Scalar → Prop}

namespace Contract

/-- The words in the functions that were declared have a property, and faults tell such names. -/
def telling (P : Scalar → Prop) : Contract where
  holds s := ∀ entry ∈ s.functions.entries, entry.2.body.Says P
  stops s := ∀ entry ∈ s.functions.entries, entry.2.body.Says P
  allows fault := ∀ name ∈ fault.names, P name
  stops_of_holds h := h
  holds_of_same _ _ _ hfunctions _ h := hfunctions ▸ h
  stops_of_same _ _ _ hfunctions _ h := hfunctions ▸ h

theorem telling_encloses : (telling P).Encloses (fun _ => True) P where
  none := trivial
  boolean _ := trivial
  number _ := trivial
  text _ := trivial
  expected _ _ h := h
  bound _ _ := trivial
  item _ _ _ := trivial
  update h _ _ := h

theorem telling_allows {fault : Fault} (h : fault.names = []) : (telling P).allows fault := by
  intro name hname
  simp [h] at hname

end Contract

namespace Run

open Contract

section Operators

variable {operator : Scalar} {fault : Fault} {v left right : Value}

/-- An operator tells no name but itself. -/
theorem eq_of_applyUnary (h : applyUnary operator v = .error fault) :
    ∀ name ∈ fault.names, name = operator := by
  rcases fault_of_applyUnary h with ⟨-, rfl⟩ | ⟨-, rfl⟩ <;> simp [Fault.names]

theorem eq_of_applyArithmetic (h : applyArithmetic operator left right = .error fault) :
    ∀ name ∈ fault.names, name = operator := by
  rcases fault_of_applyArithmetic h with ⟨-, rfl⟩ | rfl | ⟨-, rfl⟩ <;> simp [Fault.names]

theorem eq_of_applyComparison (h : applyComparison operator left right = .error fault) :
    ∀ name ∈ fault.names, name = operator := by
  rcases fault_of_applyComparison h with ⟨-, -, -, rfl⟩ | rfl <;> simp [Fault.names]

end Operators

section Parts

/-- A part that has to be a scalar is one that has the property, or nothing is told. -/
theorem meets_word {tree : Tree} (h : ∀ a, tree = .scalar a → P a) :
    Meets (telling P) P (scalarPart tree) := by
  cases tree with
  | scalar value => exact meets_pure (h value rfl)
  | _ => exact meets_fail (telling_allows rfl)

theorem meets_items {tree : Tree} (h : tree.Says P) :
    Meets (telling P) (fun items => ∀ item ∈ items, item.Says P) (listPart tree) := by
  unfold listPart
  cases hitems : tree.items? with
  | none => exact meets_fail (telling_allows rfl)
  | some items => exact meets_pure (h.items hitems)

theorem meets_binding (name : Scalar) (v : Value) :
    Meets (telling P) (fun _ => True) (assign name v) := by
  refine meets_change fun s hs => ?_
  exact hs

theorem meets_parameters (params : List Tree) (args : List Value) :
    Meets (telling P) (fun _ => True) (bindAll params args) := by
  induction params generalizing args with
  | nil => exact meets_pure trivial
  | cons param params ih =>
      apply meets_bind (meets_scalarPart (telling_allows rfl) param)
      intro name _
      apply meets_bind (meets_binding name _)
      intro _ _
      apply meets_bind (meets_noteText telling_encloses 2 _ _)
      intro _ _
      exact ih args.tail

end Parts

/-- What is kept with some fuel: work on a tree whose words have a property tells such names only,
and declares functions with such words only. -/
structure Tells (P : Scalar → Prop) (fuel : Nat) : Prop where
  evaluate : ∀ {tree : Tree}, tree.Says P → Meets (telling P) (fun _ => True) (evaluate fuel tree)
  callMethod : ∀ {array method args : Tree}, (∀ a, .scalar a ∈ [array, method] → P a) →
    args.Says P → Meets (telling P) (fun _ => True) (callMethod fuel array method args)
  execute : ∀ {tree : Tree}, tree.Says P → Meets (telling P) (fun _ => True) (execute fuel tree)

section Step

variable {fuel : Nat}

theorem Tells.block (h : Tells P fuel) {tree : Tree} (htree : tree.Says P) :
    Meets (telling P) (fun _ => True)
      (listPart tree >>= fun items => block (Run.execute fuel) (plain .none) items) := by
  apply meets_bind (meets_items htree)
  intro items hitems
  exact meets_block (fun item hitem => h.execute (hitems item hitem)) trivial

/-- A call tells the name of a function that is not there; what its body tells was declared. -/
theorem tells_call (h : Tells P fuel) {name args : Tree} (htree : (Tree.call name args).Says P) :
    Meets (telling P) (fun _ => True) (Run.evaluate (fuel + 1) (.call name args)) := by
  have hC := telling_encloses (P := P)
  have hargs : args.Says P := htree.part rfl args (by simp)
  simp only [Run.evaluate]
  apply meets_node hC
  apply meets_bind (meets_word fun a ha => htree.word (by simp [Tree.words, ha]))
  intro name hname
  apply meets_bind (P := fun function? : Option Function => ∀ f, function? = some f →
    f.body.Says P)
  · -- The body is no part of the call, so what is known of its words comes from the contract.
    refine meets_read fun s hs f hf => ?_
    obtain ⟨entry, hentry, rfl⟩ := Table.mem_of_get? hf
    exact hs entry hentry
  intro function? hfunction?
  cases function? with
  | none => exact meets_fail (allows_of_category hC rfl (by decide) (by simpa [Fault.names]))
  | some function =>
      have hbody := hfunction? function rfl
      dsimp only
      apply meets_bind (meets_items hargs)
      intro items hitems
      apply meets_bind (meets_values fun tree htree => h.evaluate (hitems tree htree))
      intro vs _
      apply meets_bind (meets_noteTexts hC 1 vs _)
      intro _ _
      apply meets_bind (P := fun _ => True) (meets_read fun _ _ => trivial)
      intro kept _
      apply meets_bind (meets_listPart (telling_allows rfl) function.params)
      intro params _
      apply meets_bind (meets_parameters params vs)
      intro _ _
      have hrest : ∀ completion : Completion, Meets (telling P) (fun _ => True) (do
          change fun s => { s with bindings := kept }
          note 1 (do return .returned name (← display completion.value))
          return completion.value) := by
        intro completion
        refine meets_bind (meets_change fun s hs => ?_) fun _ _ => ?_
        · exact hs
        apply meets_bind (meets_noteText hC 1 _ _)
        exact fun _ _ => meets_pure trivial
      have hcall := meets_bind (h.block hbody) fun completion _ => hrest completion
      simpa only [bind_assoc] using hcall

/-- A method tells the array or the method that a node names. -/
theorem tells_callMethod (h : Tells P fuel) {array method args : Tree}
    (hwords : ∀ a, .scalar a ∈ [array, method] → P a) (hargs : args.Says P) :
    Meets (telling P) (fun _ => True) (Run.callMethod (fuel + 1) array method args) := by
  have hC := telling_encloses (P := P)
  simp only [Run.callMethod]
  apply meets_bind (meets_word fun a ha => hwords a (by simp [ha]))
  intro array harray
  apply meets_bind (meets_lookupArray hC array harray)
  intro address haddress
  apply meets_bind (meets_items hargs)
  intro items hitems
  apply meets_bind (meets_values fun tree htree => h.evaluate (hitems tree htree))
  intro vs hvs
  apply meets_bind (meets_word fun a ha => hwords a (by simp [ha]))
  intro method hmethod
  apply meets_bind (meets_applyMethod hC haddress method hvs hmethod)
  intro v _
  apply meets_bind (meets_noteText hC 3 v _)
  exact fun _ _ => meets_pure trivial

/-- An expression tells words of its own node, or what its parts tell. -/
theorem tells_evaluate (h : Tells P fuel) {tree : Tree} (htree : tree.Says P) :
    Meets (telling P) (fun _ => True) (Run.evaluate (fuel + 1) tree) := by
  have hC := telling_encloses (P := P)
  cases tree with
  | number value | string value | boolean value =>
      simp only [Run.evaluate]
      refine meets_node hC (meets_bind (meets_scalarPart (telling_allows rfl) value) ?_)
      exact fun _ _ => meets_pure trivial
  | «variable» name =>
      simp only [Run.evaluate]
      refine meets_node hC (meets_bind (meets_word fun a ha => ?_) ?_)
      · exact htree.word (by simp [Tree.words, ha])
      · exact fun name hname => meets_lookup hC name hname
  | unary operator operand =>
      have hoperand : operand.Says P := htree.part rfl operand (by simp)
      simp only [Run.evaluate]
      refine meets_node hC (meets_bind (h.evaluate hoperand) ?_)
      intro v _
      apply meets_bind (meets_word fun a ha => htree.word (by simp [Tree.words, ha]))
      intro operator hoperator
      refine meets_lift (fun _ _ => trivial) fun fault hfault name hname => ?_
      exact eq_of_applyUnary hfault name hname ▸ hoperator
  | binary operator left right =>
      have hleft : left.Says P := htree.part rfl left (by simp)
      have hright : right.Says P := htree.part rfl right (by simp)
      simp only [Run.evaluate]
      refine meets_node hC (meets_bind (h.evaluate hleft) ?_)
      intro l _
      apply meets_bind (h.evaluate hright)
      intro r _
      apply meets_bind (meets_word fun a ha => htree.word (by simp [Tree.words, ha]))
      intro operator hoperator
      refine meets_applyBinary hC fun fault hfault name hname => ?_
      exact eq_of_applyArithmetic hfault name hname ▸ hoperator
  | comparison operator left right =>
      have hleft : left.Says P := htree.part rfl left (by simp)
      have hright : right.Says P := htree.part rfl right (by simp)
      simp only [Run.evaluate]
      refine meets_node hC (meets_bind (h.evaluate hleft) ?_)
      intro l _
      apply meets_bind (h.evaluate hright)
      intro r _
      apply meets_bind (meets_word fun a ha => htree.word (by simp [Tree.words, ha]))
      intro operator hoperator
      refine meets_lift (fun _ _ => trivial) fun fault hfault name hname => ?_
      exact eq_of_applyComparison hfault name hname ▸ hoperator
  | arrayLiteral elements =>
      have helements : elements.Says P := htree.part rfl elements (by simp)
      simp only [Run.evaluate]
      refine meets_node hC (meets_bind (meets_items helements) ?_)
      intro items hitems
      apply meets_bind (meets_values fun tree htree => h.evaluate (hitems tree htree))
      exact fun vs _ limits s hs => ⟨trivial, hs⟩
  | elementAccess array index =>
      have hindex : index.Says P := htree.part rfl index (by simp)
      simp only [Run.evaluate]
      refine meets_node hC (meets_bind (meets_word fun a ha => ?_) ?_)
      · exact htree.word (by simp [Tree.words, ha])
      intro array harray
      apply meets_bind (meets_lookupArray hC array harray)
      intro address haddress
      apply meets_bind (h.evaluate hindex)
      exact fun index _ => meets_elementAt hC haddress index
  | methodExpression array method args =>
      simp only [Run.evaluate]
      exact meets_node hC (h.callMethod (fun _ => htree.word) (htree.part rfl args (by simp)))
  | arrayProperty array property =>
      simp only [Run.evaluate]
      refine meets_node hC (meets_bind (meets_word fun a ha => ?_) ?_)
      · exact htree.word (by simp [Tree.words, ha])
      intro array harray
      apply meets_bind (meets_lookupArray hC array harray)
      intro address _
      apply meets_bind (meets_word fun a ha => htree.word (by simp [Tree.words, ha]))
      intro property hproperty
      unfold applyProperty
      split
      · exact meets_bind (meets_itemsOf address) fun _ _ => meets_pure trivial
      · exact meets_fail fun name hname => by simp_all [Fault.names]
  | call name args => exact tells_call h htree
  | _ =>
      simp only [Run.evaluate]
      exact meets_fail (telling_allows rfl)

/-- A statement tells words of its own node, or what its parts tell. -/
theorem tells_execute (h : Tells P fuel) {tree : Tree} (htree : tree.Says P) :
    Meets (telling P) (fun _ => True) (Run.execute (fuel + 1) tree) := by
  have hC := telling_encloses (P := P)
  cases tree with
  | assignment name value =>
      simp only [Run.execute]
      refine meets_node hC (meets_bind (h.evaluate (htree.part rfl value (by simp))) ?_)
      intro v _
      apply meets_bind (meets_scalarPart (telling_allows rfl) name)
      intro name _
      apply meets_bind (meets_binding name v)
      intro _ _
      apply meets_bind (meets_noteText hC 2 v _)
      exact fun _ _ => meets_pure trivial
  | print value =>
      simp only [Run.execute]
      refine meets_node hC (meets_bind (h.evaluate (htree.part rfl value (by simp))) ?_)
      intro v _
      apply meets_bind (meets_text hC v)
      intro text _
      exact meets_bind (meets_printLine text) fun _ _ => meets_pure trivial
  | expressionStatement expression =>
      simp only [Run.execute]
      refine meets_node hC (meets_bind (h.evaluate (htree.part rfl expression (by simp))) ?_)
      exact fun _ _ => meets_pure trivial
  | ifStatement condition ifBlock elseBlock =>
      simp only [Run.execute]
      refine meets_node hC (meets_bind (h.evaluate (htree.part rfl condition (by simp))) ?_)
      intro v _
      apply meets_bind (meets_noteText hC 3 v _)
      intro _ _
      split
      · exact h.block (htree.part rfl ifBlock (by simp))
      · split
        · exact meets_pure trivial
        · exact h.block (htree.part rfl elseBlock (by simp))
  | whileStatement condition body =>
      simp only [Run.execute]
      refine meets_node hC (meets_repeatWhile ?_ ?_ fuel trivial)
      · apply meets_bind (h.evaluate (htree.part rfl condition (by simp)))
        intro v _
        apply meets_bind (meets_noteText hC 3 v _)
        exact fun _ _ => meets_pure trivial
      · exact h.block (htree.part rfl body (by simp))
  | elementAssignment array index value =>
      simp only [Run.execute]
      refine meets_node hC (meets_bind (meets_word fun a ha => ?_) ?_)
      · exact htree.word (by simp [Tree.words, ha])
      intro array harray
      apply meets_bind (meets_lookupArray hC array harray)
      intro address haddress
      apply meets_bind (h.evaluate (htree.part rfl index (by simp)))
      intro index _
      apply meets_bind (h.evaluate (htree.part rfl value (by simp)))
      intro v hv
      apply meets_bind (meets_setElement hC haddress index hv)
      intro _ _
      refine meets_bind (meets_note (meets_bind (meets_text hC index) fun _ _ => ?_)) ?_
      · exact meets_bind (meets_text hC v) fun _ _ => meets_pure trivial
      · exact fun _ _ => meets_pure trivial
  | methodCall array method args =>
      simp only [Run.execute]
      have hcall := h.callMethod (fun _ => htree.word) (htree.part rfl args (by simp))
      exact meets_node hC (meets_bind hcall fun _ _ => meets_pure trivial)
  | functionDeclaration name params body =>
      have hbody : body.Says P := htree.part rfl body (by simp)
      simp only [Run.execute]
      refine meets_node hC (meets_bind (meets_scalarPart (telling_allows rfl) name) ?_)
      intro name _
      refine meets_bind (meets_change fun s hs => ?_) ?_
      · exact Table.forall_set (P := fun function : Function => function.body.Says P) hs hbody
      intro _ _
      have hparams := meets_listPart (telling_allows (P := P) rfl) params
      refine meets_bind (meets_note (meets_bind hparams fun items _ => ?_)) ?_
      · exact meets_bind (meets_textParts (telling_allows rfl) items) fun _ _ => meets_pure trivial
      · exact fun _ _ => meets_pure trivial
  | returnStatement value =>
      simp only [Run.execute]
      apply meets_node hC
      split
      · exact meets_pure trivial
      · refine meets_bind (h.evaluate (htree.part rfl _ (by simp))) fun _ _ => meets_pure trivial
  | _ =>
      simp only [Run.execute]
      exact meets_fail (telling_allows rfl)

end Step

/-- With any fuel, faults tell words of the program. -/
theorem tells_of_fuel (P : Scalar → Prop) (fuel : Nat) : Tells P fuel := by
  induction fuel with
  | zero =>
      refine ⟨?_, ?_, ?_⟩
      · intro tree _
        rw [evaluate_zero]
        exact meets_spent
      · intro array method args _ _
        rw [Run.callMethod]
        exact meets_spent
      · intro tree _
        rw [execute_zero]
        exact meets_spent
  | succ fuel ih => exact ⟨tells_evaluate ih, tells_callMethod ih, tells_execute ih⟩

theorem tells_statements (fuel : Nat) {trees : List Tree} (h : ∀ tree ∈ trees, tree.Says P) :
    Meets (telling P) (fun _ => True) (statements fuel trees) := by
  unfold statements
  generalize Value.none = last
  induction trees generalizing last with
  | nil => exact meets_pure trivial
  | cons tree trees ih =>
      have hfirst := (tells_of_fuel P fuel).execute (h tree (by simp))
      simp only [List.foldlM_cons]
      refine meets_bind (P := fun _ => True) ?_ fun v _ => ih (fun t ht => h t (by simp [ht])) v
      apply meets_bind (meets_note (meets_pure trivial))
      intro _ _
      exact meets_bind hfirst fun _ _ => meets_pure trivial

/-- The names that the fault of a program tells have every property that all its words have. -/
theorem names_of_program {fuel : Nat} {trees : List Tree} {limits : Limits} {fault : Fault}
    {after : State} (h : ∀ tree ∈ trees, tree.Says P)
    (hfailed : program fuel trees limits .start = .failed fault after) :
    ∀ name ∈ fault.names, P name := by
  unfold program at hfailed
  split at hfailed
  · obtain ⟨rfl, -⟩ := Outcome.failed.inj hfailed
    simp [Fault.names]
  · have hrun := tells_statements fuel h limits .start (by simp [telling, State.start, Table.empty])
    rw [hfailed] at hrun
    exact hrun.1

end Run

end Sprig
