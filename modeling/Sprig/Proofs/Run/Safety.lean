import Sprig.Proofs.Run.Carry
import Sprig.Proofs.Tree.Shape
import Sprig.Run.Program

/-!
# Safety of parsed programs

A state is well formed when no variable and no cell of an array holds a bare integer, and when every
function that was declared has the parameters and the body of a parsed declaration. Expressions and
statements with the shape of a text keep states well formed, whether they are done or not. They are
done with a value that is no bare integer, or fail with one of seven kinds of faults.
-/

namespace Sprig

/-- Whether a value is a Number, a String, a Boolean, an Array or nothing. -/
def Value.IsProper (v : Value) : Prop := v.kind ≠ .integer

/-- The parameters and the body of a declaration that was parsed. -/
structure Function.IsParsed (function : Function) : Prop where
  params : ∃ words : List String, function.params = .list (words.map .text)
  body : ∃ trees, function.body = .list trees ∧ Tree.IsProgram trees

/-- What holds of the variables, arrays and functions between the steps of parsed programs. -/
structure State.WellFormed (s : State) : Prop where
  bindings : ∀ entry ∈ s.bindings.entries, entry.2.IsProper
  cells : ∀ items ∈ s.heap.arrays, ∀ v ∈ items, v.IsProper
  functions : ∀ entry ∈ s.functions.entries, entry.2.IsParsed

theorem State.wellFormed_start : State.start.WellFormed where
  bindings := by simp [start, Table.empty]
  cells := by simp [start, Heap.empty]
  functions := by simp [start, Table.empty]

namespace Table

variable {α : Type} {P : α → Prop}

theorem mem_of_get? {table : Table α} {name : Scalar} {a : α} (h : table.get? name = some a) :
    ∃ entry ∈ table.entries, entry.2 = a := by
  obtain ⟨entry, hfind, heq⟩ := Option.map_eq_some_iff.mp h
  exact ⟨entry, List.mem_of_find?_eq_some hfind, heq⟩

/-- What holds of what is bound holds of it when another such thing is bound. -/
theorem forall_set {table : Table α} (h : ∀ entry ∈ table.entries, P entry.2) {name : Scalar}
    {a : α} (ha : P a) : ∀ entry ∈ (table.set name a).entries, P entry.2 := by
  obtain ⟨entries⟩ := table
  simp only [set] at h ⊢
  induction entries with
  | nil => simpa [bindIn] using ha
  | cons first entries ih =>
      have hrest := ih fun entry hentry => h entry (List.mem_cons_of_mem first hentry)
      unfold bindIn
      split
      · intro entry hentry
        rcases List.mem_cons.mp hentry with rfl | hentry
        · exact ha
        · exact h entry (List.mem_cons_of_mem first hentry)
      · intro entry hentry
        rcases List.mem_cons.mp hentry with rfl | hentry
        · exact h entry (by simp)
        · exact hrest entry hentry

end Table

theorem State.WellFormed.isParsed_of_get? {s : State} (hs : s.WellFormed) {name : Scalar}
    {function : Function} (h : s.functions.get? name = some function) : function.IsParsed := by
  obtain ⟨entry, hentry, rfl⟩ := Table.mem_of_get? h
  exact hs.functions entry hentry

/-- States stay well formed, and faults are those that a parsed program can run into. -/
def Contract.wellFormed : Contract where
  holds := State.WellFormed
  stops := State.WellFormed
  allows := Fault.IsExpected
  stops_of_holds h := h
  holds_of_same _ _ hbindings hfunctions hheap h :=
    ⟨hbindings ▸ h.bindings, hheap ▸ h.cells, hfunctions ▸ h.functions⟩
  stops_of_same _ _ hbindings hfunctions hheap h :=
    ⟨hbindings ▸ h.bindings, hheap ▸ h.cells, hfunctions ▸ h.functions⟩

theorem Contract.wellFormed_carries : Contract.wellFormed.Carries Value.IsProper where
  none := by simp [Value.IsProper, Value.kind]
  boolean := by simp [Value.IsProper, Value.kind]
  number := by simp [Value.IsProper, Value.kind]
  text := by simp [Value.IsProper, Value.kind]
  array := by simp [Value.IsProper, Value.kind]
  expected _ h := h
  bound hs hv := by
    obtain ⟨entry, hentry, rfl⟩ := Table.mem_of_get? hv
    exact hs.bindings entry hentry
  item {s address v} hs hv := by
    unfold Heap.items at hv
    cases hitems : s.heap.arrays[address]? with
    | none => simp [hitems] at hv
    | some items =>
        rw [hitems] at hv
        exact hs.cells items (Array.mem_of_getElem? hitems) v hv
  allocate {s items} hs hitems := by
    refine ⟨hs.bindings, ?_, hs.functions⟩
    intro other hother
    rcases Array.mem_push.mp hother with hother | rfl
    · exact hs.cells other hother
    · exact hitems
  update {s address f} hs hf := by
    refine ⟨hs.bindings, ?_, hs.functions⟩
    intro other hother
    obtain ⟨i, hi⟩ := Array.getElem?_of_mem hother
    simp only [Heap.update, Array.getElem?_modify] at hi
    split at hi
    · next haddress =>
      obtain ⟨items, hitems, rfl⟩ := Option.map_eq_some_iff.mp hi
      have heq : s.heap.items address = items := by
        rw [haddress, Heap.items, hitems, Option.getD_some]
      exact heq ▸ hf
    · exact hs.cells other (Array.mem_of_getElem? hi)

namespace Run

open Contract Fault

section Operators

variable {fault : Fault} {v left right : Value} {op : String}

theorem isExpected_of_applyUnary (h : applyUnary (.text "-") v = .error fault) :
    fault.IsExpected := by
  rcases fault_of_applyUnary h with ⟨hne, -⟩ | ⟨-, rfl⟩
  · exact absurd rfl hne
  · exact ⟨_, by decide, rfl⟩

theorem isProper_of_applyUnary {operator : Scalar} {w : Value}
    (h : applyUnary operator v = .ok w) : w.IsProper := by
  obtain ⟨x, rfl⟩ := exists_number_of_applyUnary h
  simp [Value.IsProper, Value.kind]

theorem isSome_arithmetic :
    ∀ op ∈ Tree.arithmeticWords, (Arithmetic.ofScalar? (.text op)).isSome := by
  decide

/-- An operator that the language has never fails as an unknown one. -/
theorem isExpected_of_applyArithmetic (hop : op ∈ Tree.arithmeticWords)
    (h : applyArithmetic (.text op) left right = .error fault) : fault.IsExpected := by
  rcases fault_of_applyArithmetic h with ⟨hnone, -⟩ | rfl | ⟨-, rfl⟩
  · have hsome := isSome_arithmetic op hop
    simp [hnone] at hsome
  · exact ⟨_, by decide, rfl⟩
  · exact ⟨_, by decide, rfl⟩

theorem isSome_order :
    ∀ op ∈ Tree.comparisonWords, op ≠ "==" → op ≠ "!=" → (Order.ofScalar? (.text op)).isSome := by
  decide

theorem isExpected_of_applyComparison (hop : op ∈ Tree.comparisonWords)
    (h : applyComparison (.text op) left right = .error fault) : fault.IsExpected := by
  rcases fault_of_applyComparison h with ⟨hequal, hunequal, hnone, -⟩ | rfl
  · have hsome := isSome_order op hop (by simpa using hequal) (by simpa using hunequal)
    simp [hnone] at hsome
  · exact ⟨_, by decide, rfl⟩

theorem isProper_of_applyComparison {operator : Scalar}
    (h : applyComparison operator left right = .ok v) : v.IsProper := by
  obtain ⟨b, rfl⟩ := exists_boolean_of_applyComparison h
  simp [Value.IsProper, Value.kind]

end Operators

theorem isProper_none : Value.none.IsProper := by simp [Value.IsProper, Value.kind]

theorem textParts_map (words : List String) : textParts (words.map Tree.text) = pure words := by
  induction words with
  | nil => rfl
  | cons word words ih =>
      change (do return word :: (← textParts (words.map Tree.text)) : Run (List String)) = _
      rw [ih]
      rfl

theorem meets_assign_proper (name : Scalar) {v : Value} (hv : v.IsProper) :
    Meets wellFormed (fun _ => True) (assign name v) := by
  refine meets_change fun s hs => ?_
  exact ⟨Table.forall_set hs.bindings hv, hs.cells, hs.functions⟩

/-- Binding the parameters of a parsed declaration to proper values keeps the state well formed. -/
theorem meets_bindAll_proper (words : List String) {args : List Value}
    (h : ∀ v ∈ args, v.IsProper) :
    Meets wellFormed (fun _ => True) (bindAll (words.map Tree.text) args) := by
  induction words generalizing args with
  | nil => exact meets_pure trivial
  | cons word words ih =>
      have hfirst : (args.headD .none).IsProper := by
        cases args with
        | nil => exact isProper_none
        | cons v args => exact h v (by simp)
      apply meets_bind (P := fun _ => True) (meets_pure trivial)
      intro name _
      apply meets_bind (meets_assign_proper name hfirst)
      intro _ _
      apply meets_bind (meets_noteText wellFormed_carries.encloses 2 _ _)
      intro _ _
      exact ih fun v hv => h v (List.mem_of_mem_tail hv)

theorem meets_scalarPart_proper (name : Scalar) :
    Meets wellFormed (fun found => found = name) (scalarPart (.scalar name)) := meets_pure rfl

theorem meets_listPart_proper (trees : List Tree) :
    Meets wellFormed (fun found => found = trees) (listPart (.list trees)) := meets_pure rfl

/-- A function that is found was parsed. -/
theorem meets_function (name : Scalar) :
    Meets wellFormed (fun function? : Option Function => ∀ f, function? = some f → f.IsParsed)
      (read (·.functions.get? name)) :=
  meets_read fun _ hs _ hf => hs.isParsed_of_get? hf

/-- Declaring a function as parsed keeps the state well formed. -/
theorem meets_declare (name : Scalar) {function : Function} (h : function.IsParsed) :
    Meets wellFormed (fun _ => True)
      (change fun s => { s with functions := s.functions.set name function }) :=
  meets_change fun _ hs => ⟨hs.bindings, hs.cells, Table.forall_set hs.functions h⟩

/-- The table that a call keeps binds proper values, so putting it back keeps the state well
formed. -/
theorem meets_restore {kept : Table Value} (h : ∀ entry ∈ kept.entries, entry.2.IsProper) :
    Meets wellFormed (fun _ => True) (change fun s => { s with bindings := kept }) :=
  meets_change fun _ hs => ⟨h, hs.cells, hs.functions⟩

/-- What is kept with some fuel: expressions, calls of methods and statements with the shape of a
text keep the state well formed, and what they are done with is proper. -/
structure Safe (fuel : Nat) : Prop where
  evaluate : ∀ {tree : Tree}, tree.IsExpression →
    Meets wellFormed Value.IsProper (evaluate fuel tree)
  callMethod : ∀ (array method : String) {args : List Tree}, (∀ tree ∈ args, tree.IsExpression) →
    Meets wellFormed Value.IsProper (callMethod fuel (.text array) (.text method) (.list args))
  execute : ∀ {tree : Tree}, tree.IsStatement →
    Meets wellFormed (fun completion => completion.value.IsProper) (execute fuel tree)

section Step

variable {fuel : Nat}

theorem Safe.block (h : Safe fuel) {trees : List Tree} (htrees : Tree.IsProgram trees) :
    Meets wellFormed (fun completion => completion.value.IsProper)
      (Run.block (Run.execute fuel) (plain .none) trees) :=
  meets_block (fun tree htree => h.execute (htrees tree htree)) isProper_none

theorem Safe.blockPart (h : Safe fuel) {trees : List Tree} (htrees : Tree.IsProgram trees) :
    Meets wellFormed (fun completion => completion.value.IsProper) (do
      Run.block (Run.execute fuel) (plain .none) (← listPart (.list trees))) := by
  apply meets_bind (meets_listPart_proper trees)
  rintro items rfl
  exact h.block htrees

theorem Safe.values (h : Safe fuel) {trees : List Tree}
    (htrees : ∀ tree ∈ trees, tree.IsExpression) :
    Meets wellFormed (fun vs => ∀ v ∈ vs, v.IsProper) (values (Run.evaluate fuel) trees) :=
  meets_values fun tree htree => h.evaluate (htrees tree htree)

/-- A call runs the body of a declaration that was parsed, and puts the table back. -/
theorem meets_call_proper (h : Safe fuel) (name : String) {args : List Tree}
    (hargs : ∀ tree ∈ args, tree.IsExpression) :
    Meets wellFormed Value.IsProper
      (Run.evaluate (fuel + 1) (.call (.text name) (.list args))) := by
  have hC := wellFormed_carries.encloses
  simp only [Run.evaluate]
  refine meets_node hC (meets_bind (meets_scalarPart_proper (.text name)) ?_)
  intro name _
  apply meets_bind (meets_function name)
  intro function? hfunction?
  cases function? with
  | none => exact meets_fail (allows_of_category hC rfl (by decide))
  | some function =>
      obtain ⟨⟨words, hparams⟩, ⟨trees, hbody, htrees⟩⟩ := hfunction? function rfl
      dsimp only
      rw [hparams, hbody]
      apply meets_bind (meets_listPart_proper args)
      rintro items rfl
      apply meets_bind (h.values hargs)
      intro vs hvs
      apply meets_bind (meets_noteTexts hC 1 vs _)
      intro _ _
      refine meets_bind (P := fun kept => ∀ entry ∈ kept.entries, entry.2.IsProper)
        (meets_read fun s hs => hs.bindings) ?_
      intro kept hkept
      apply meets_bind (meets_listPart_proper _)
      rintro params rfl
      apply meets_bind (meets_bindAll_proper words hvs)
      intro _ _
      apply meets_bind (meets_listPart_proper trees)
      rintro body rfl
      apply meets_bind (h.block htrees)
      intro completion hcompletion
      apply meets_bind (meets_restore hkept)
      intro _ _
      apply meets_bind (meets_noteText hC 1 completion.value _)
      exact fun _ _ => meets_pure hcompletion

theorem meets_callMethod_proper (h : Safe fuel) (array method : String) {args : List Tree}
    (hargs : ∀ tree ∈ args, tree.IsExpression) :
    Meets wellFormed Value.IsProper
      (Run.callMethod (fuel + 1) (.text array) (.text method) (.list args)) := by
  have hC := wellFormed_carries.encloses
  simp only [Run.callMethod]
  apply meets_bind (meets_scalarPart_proper (.text array))
  intro array _
  apply meets_bind (meets_lookupArray hC array)
  intro address haddress
  apply meets_bind (meets_listPart_proper args)
  rintro items rfl
  apply meets_bind (h.values hargs)
  intro vs hvs
  apply meets_bind (meets_scalarPart_proper (.text method))
  intro method _
  apply meets_bind (meets_applyMethod hC haddress method hvs)
  intro v hv
  apply meets_bind (meets_noteText hC 3 v _)
  exact fun _ _ => meets_pure hv

theorem meets_evaluate_proper (h : Safe fuel) {tree : Tree} (htree : tree.IsExpression) :
    Meets wellFormed Value.IsProper (Run.evaluate (fuel + 1) tree) := by
  have hC := wellFormed_carries.encloses
  cases htree with
  | number x =>
      simp only [Run.evaluate]
      refine meets_node hC (meets_bind (meets_scalarPart_proper (.number x)) ?_)
      rintro found rfl
      exact meets_pure (hC.number x)
  | string word =>
      simp only [Run.evaluate]
      refine meets_node hC (meets_bind (meets_scalarPart_proper (.text word)) ?_)
      rintro found rfl
      exact meets_pure (hC.text word)
  | boolean b =>
      simp only [Run.evaluate]
      refine meets_node hC (meets_bind (meets_scalarPart_proper (.boolean b)) ?_)
      rintro found rfl
      exact meets_pure (hC.boolean b)
  | name x =>
      simp only [Run.evaluate]
      refine meets_node hC (meets_bind (meets_scalarPart_proper (.text x)) ?_)
      exact fun name _ => meets_lookup hC name
  | unary hoperand =>
      simp only [Run.evaluate]
      refine meets_node hC (meets_bind (h.evaluate hoperand) ?_)
      intro v _
      apply meets_bind (meets_scalarPart_proper (.text "-"))
      rintro operator rfl
      exact meets_lift (fun w hw => isProper_of_applyUnary hw)
        fun fault hfault => isExpected_of_applyUnary hfault
  | @binary op left right hop hleft hright =>
      simp only [Run.evaluate]
      refine meets_node hC (meets_bind (h.evaluate hleft) ?_)
      intro l _
      apply meets_bind (h.evaluate hright)
      intro r _
      apply meets_bind (meets_scalarPart_proper (.text op))
      rintro operator rfl
      exact meets_applyBinary hC fun fault hfault => isExpected_of_applyArithmetic hop hfault
  | @comparison op left right hop hleft hright =>
      simp only [Run.evaluate]
      refine meets_node hC (meets_bind (h.evaluate hleft) ?_)
      intro l _
      apply meets_bind (h.evaluate hright)
      intro r _
      apply meets_bind (meets_scalarPart_proper (.text op))
      rintro operator rfl
      exact meets_lift (fun v hv => isProper_of_applyComparison hv)
        fun fault hfault => isExpected_of_applyComparison hop hfault
  | @arrayLiteral items hitems =>
      simp only [Run.evaluate]
      refine meets_node hC (meets_bind (meets_listPart_proper items) ?_)
      rintro found rfl
      apply meets_bind (h.values hitems)
      intro vs hvs
      exact meets_newArray wellFormed_carries fun v hv => hvs v (by simpa using hv)
  | @elementAccess array index hindex =>
      simp only [Run.evaluate]
      refine meets_node hC (meets_bind (meets_scalarPart_proper (.text array)) ?_)
      intro array _
      apply meets_bind (meets_lookupArray hC array)
      intro address haddress
      apply meets_bind (h.evaluate hindex)
      exact fun index _ => meets_elementAt hC haddress index
  | @methodExpression array method args hargs =>
      simp only [Run.evaluate]
      exact meets_node hC (h.callMethod array method hargs)
  | length x =>
      simp only [Run.evaluate]
      refine meets_node hC (meets_bind (meets_scalarPart_proper (.text x)) ?_)
      intro array _
      apply meets_bind (meets_lookupArray hC array)
      intro address _
      apply meets_bind (meets_scalarPart_proper (.text "length"))
      rintro property rfl
      exact meets_bind (meets_itemsOf address) fun items _ => meets_pure (hC.number _)
  | call hargs => exact meets_call_proper h _ hargs

theorem meets_execute_proper (h : Safe fuel) {tree : Tree} (htree : tree.IsStatement) :
    Meets wellFormed (fun completion => completion.value.IsProper)
      (Run.execute (fuel + 1) tree) := by
  have hC := wellFormed_carries.encloses
  cases htree with
  | @assignment x value hvalue =>
      simp only [Run.execute]
      refine meets_node hC (meets_bind (h.evaluate hvalue) ?_)
      intro v hv
      apply meets_bind (meets_scalarPart_proper (.text x))
      intro name _
      apply meets_bind (meets_assign_proper name hv)
      intro _ _
      apply meets_bind (meets_noteText hC 2 v _)
      exact fun _ _ => meets_pure hv
  | print hvalue =>
      simp only [Run.execute]
      refine meets_node hC (meets_bind (h.evaluate hvalue) ?_)
      intro v hv
      apply meets_bind (meets_text hC v)
      intro text _
      exact meets_bind (meets_printLine text) fun _ _ => meets_pure hv
  | expression hinner =>
      simp only [Run.execute]
      exact meets_node hC (meets_bind (h.evaluate hinner) fun v hv => meets_pure hv)
  | @ifOnly condition body hcondition hbody =>
      simp only [Run.execute]
      refine meets_node hC (meets_bind (h.evaluate hcondition) ?_)
      intro v _
      apply meets_bind (meets_noteText hC 3 v _)
      intro _ _
      split
      · exact h.blockPart hbody
      · exact meets_pure isProper_none
  | @ifElse condition body rest hcondition hbody hrest =>
      simp only [Run.execute]
      refine meets_node hC (meets_bind (h.evaluate hcondition) ?_)
      intro v _
      apply meets_bind (meets_noteText hC 3 v _)
      intro _ _
      split
      · exact h.blockPart hbody
      · exact h.blockPart hrest
  | «while» hcondition hbody =>
      simp only [Run.execute]
      refine meets_node hC (meets_repeatWhile ?_ (h.blockPart hbody) fuel isProper_none)
      apply meets_bind (h.evaluate hcondition)
      intro v _
      apply meets_bind (meets_noteText hC 3 v _)
      exact fun _ _ => meets_pure trivial
  | @elementAssignment array index value hindex hvalue =>
      simp only [Run.execute]
      refine meets_node hC (meets_bind (meets_scalarPart_proper (.text array)) ?_)
      intro array _
      apply meets_bind (meets_lookupArray hC array)
      intro address haddress
      apply meets_bind (h.evaluate hindex)
      intro index _
      apply meets_bind (h.evaluate hvalue)
      intro v hv
      apply meets_bind (meets_setElement hC haddress index hv)
      intro _ _
      refine meets_bind (meets_note (meets_bind (meets_text hC index) fun _ _ => ?_)) ?_
      · exact meets_bind (meets_text hC v) fun _ _ => meets_pure trivial
      · exact fun _ _ => meets_pure hv
  | @methodCall array method args hargs =>
      simp only [Run.execute]
      refine meets_node hC (meets_bind (h.callMethod array method hargs) ?_)
      exact fun v hv => meets_pure hv
  | @declaration name body params hbody =>
      simp only [Run.execute]
      refine meets_node hC (meets_bind (meets_scalarPart_proper (.text name)) ?_)
      intro name _
      apply meets_bind (meets_declare name ⟨⟨params, rfl⟩, ⟨body, rfl, hbody⟩⟩)
      intro _ _
      refine meets_bind (meets_note (meets_bind (meets_listPart_proper _) ?_)) ?_
      · rintro items rfl
        rw [textParts_map]
        exact meets_pure trivial
      · exact fun _ _ => meets_pure isProper_none
  | emptyReturn =>
      simp only [Run.execute]
      exact meets_node hC (meets_pure isProper_none)
  | valueReturn hvalue =>
      simp only [Run.execute]
      apply meets_node hC
      split
      · exact meets_pure isProper_none
      · exact meets_bind (h.evaluate hvalue) fun v hv => meets_pure hv

end Step

/-- With any fuel, whatever has the shape of a text runs safely. -/
theorem safe_of_fuel (fuel : Nat) : Safe fuel := by
  induction fuel with
  | zero =>
      refine ⟨?_, ?_, ?_⟩
      · intro tree _
        rw [evaluate_zero]
        exact meets_spent
      · intro array method args _
        rw [Run.callMethod]
        exact meets_spent
      · intro tree _
        rw [execute_zero]
        exact meets_spent
  | succ fuel ih =>
      constructor
      · intro tree htree
        exact meets_evaluate_proper ih htree
      · intro array method args hargs
        exact meets_callMethod_proper ih array method hargs
      · intro tree htree
        exact meets_execute_proper ih htree

/-- The statements of a program keep the state well formed, and the value of the last is proper. -/
theorem meets_statements (fuel : Nat) {trees : List Tree} (htrees : Tree.IsProgram trees) :
    Meets wellFormed Value.IsProper (statements fuel trees) := by
  unfold statements
  generalize hlast : Value.none = last
  have hproper : last.IsProper := hlast ▸ isProper_none
  clear hlast
  induction trees generalizing last with
  | nil => exact meets_pure hproper
  | cons tree trees ih =>
      simp only [List.foldlM_cons]
      refine meets_bind (P := Value.IsProper) ?_ ?_
      · apply meets_bind (meets_note (meets_pure trivial))
        intro _ _
        apply meets_bind ((safe_of_fuel fuel).execute (htrees tree (by simp)))
        exact fun completion hcompletion => meets_pure hcompletion
      · exact fun v hv => ih (fun t ht => htrees t (by simp [ht])) v hv

/-- A program that was parsed runs safely under a depth limit that can be kept. -/
theorem meets_program (fuel : Nat) {trees : List Tree} (htrees : Tree.IsProgram trees)
    {limits : Limits} (hlimit : limits.depth ≤ greatestDepth) {s : State} (hs : s.WellFormed) :
    (program fuel trees limits s).Meets wellFormed Value.IsProper := by
  unfold program
  rw [if_neg (by omega)]
  exact meets_statements fuel htrees limits s hs

end Run

end Sprig
