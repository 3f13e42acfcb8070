import Sprig.Proofs.Run.Confine

/-!
# What a run leaves alone

Every task that a run comes to works on arrays that the run can come to, and on no others. So arrays
that no variable reaches at the start are still as they were when the run stops, and nothing reaches
them then. Whatever is reached then was reached at the start, or was made by an array literal.
-/

namespace Sprig

namespace Run

variable {limits : Limits} {first : Task} {s t : State} {fuel : Nat}

/-- Whether the interpreter keeps to the arrays that a run can come to, on all tasks that the run
comes to. -/
structure Confines (limits : Limits) (first : Task) (s : State) (fuel : Nat) : Prop where
  evaluate {tree : Tree} {t : State} (h : Comes limits first s (.expression tree) t)
    (ht : Confined limits first s t) : (evaluate fuel tree limits t).Meets
      (confined limits first s) (Value.Within (Known limits first s))
  callMethod {array args : Tree} {t : State} (method : Tree)
    (h : ∀ trees u, argumentsOf array args limits t = .done trees u →
      Comes limits first s (.operands trees) u)
    (ht : Confined limits first s t) : (callMethod fuel array method args limits t).Meets
      (confined limits first s) (Value.Within (Known limits first s))
  execute {tree : Tree} {t : State} (h : Comes limits first s (.statement tree) t)
    (ht : Confined limits first s t) : (execute fuel tree limits t).Meets
      (confined limits first s) (fun last => last.value.Within (Known limits first s))

/-- The values of the elements of a literal. -/
def elementValues (fuel : Nat) (elements : Tree) : Run (List Value) := do
  values (evaluate fuel) (← listPart elements)

theorem evaluate_arrayLiteral (fuel : Nat) (elements : Tree) :
    evaluate (fuel + 1) (.arrayLiteral elements) = nested .arrayLiteral (do
      newArray (← elementValues fuel elements).toArray) := by
  simp only [evaluate, elementValues, bind_assoc]

/-- A literal makes an array at the first address that is not in use when its elements have their
values. -/
theorem evaluate_arrayLiteral_of {elements : Tree} {vs : List Value} {inside mid : State}
    (enters : s.Enters limits inside)
    (h : elementValues fuel elements limits inside = .done vs mid) :
    evaluate (fuel + 1) (.arrayLiteral elements) limits s =
      .done (.array mid.heap.arrays.size)
        { mid with heap := (mid.heap.allocate vs.toArray).2, depth := mid.depth - 1 } := by
  obtain ⟨hle, rfl⟩ := enters
  have hdepth : ¬limits.depth < (s.depth : Int) + 1 := by omega
  rw [evaluate_arrayLiteral, nested, if_neg hdepth, bind_apply, h]
  rfl

theorem Confines.values (hc : Confines limits first s fuel) {trees : List Tree}
    (h : Comes limits first s (.operands trees) t) (ht : Confined limits first s t) :
    (Run.values (Run.evaluate fuel) trees limits t).Meets (confined limits first s)
      (fun vs => ∀ v ∈ vs, v.Within (Known limits first s)) := by
  induction trees generalizing t with
  | nil => exact ⟨by simp, ht⟩
  | cons tree trees ih =>
      refine meets_bind_at (hc.evaluate (.next h .operand) ht) fun v u hv hwithin hu => ?_
      refine meets_bind_at (ih (.next h (.operandRest hv)) hu) fun vs w _ hvs hw => ?_
      exact ⟨by simpa using ⟨hwithin, hvs⟩, hw⟩

/-- A step on the value of an operand keeps to these arrays when it does so on all of them. -/
theorem Confines.operand (hc : Confines limits first s fuel) {α : Type} {P : α → Prop}
    {next : Value → Run α} {tree : Tree} (h : Comes limits first s (.operands [tree]) t)
    (ht : Confined limits first s t)
    (hnext : ∀ v, v.Within (Known limits first s) → Meets (confined limits first s) P (next v)) :
    ((Run.evaluate fuel tree >>= next) limits t).Meets (confined limits first s) P :=
  meets_bind_at (hc.evaluate (.next h .operand) ht) fun v u _ hv hu => hnext v hv limits u hu

theorem Confines.operandPair (hc : Confines limits first s fuel) {α : Type} {P : α → Prop}
    {next : Value → Value → Run α} {left right : Tree}
    (h : Comes limits first s (.operands [left, right]) t) (ht : Confined limits first s t)
    (hnext : ∀ l r, r.Within (Known limits first s) →
      Meets (confined limits first s) P (next l r)) :
    ((do next (← Run.evaluate fuel left) (← Run.evaluate fuel right)) limits t).Meets
      (confined limits first s) P :=
  meets_bind_at (hc.evaluate (.next h .operand) ht) fun l _ hl _ hu =>
    hc.operand (.next h (.operandRest hl)) hu (hnext l)

theorem Confines.block (hc : Confines limits first s fuel) {trees : List Tree}
    (h : Comes limits first s (.block trees) t) (ht : Confined limits first s t)
    {last : Completion} (hlast : last.value.Within (Known limits first s)) :
    (Run.block (Run.execute fuel) last trees limits t).Meets (confined limits first s)
      (fun last => last.value.Within (Known limits first s)) := by
  induction trees generalizing t last with
  | nil => exact ⟨hlast, ht⟩
  | cons tree trees ih =>
      refine meets_bind_at (hc.execute (.next h .block) ht) fun last u hrun hlast hu => ?_
      split
      · exact ⟨hlast, hu⟩
      · next hgoes => exact ih (.next h (.blockRest hrun (by simpa using hgoes))) hu hlast

theorem within_none {known : Address → Prop} : Value.none.Within known := fun _ ha => by cases ha

theorem Confines.test (hc : Confines limits first s fuel) (event : String → Bool → Event)
    {condition : Tree} (h : Comes limits first s (.expression condition) t)
    (ht : Confined limits first s t) :
    (Run.test fuel event condition limits t).Meets (confined limits first s) (fun _ => True) := by
  refine meets_bind_at (hc.evaluate h ht) fun v u _ _ hu => ?_
  exact meets_bind (meets_noteText confined_encloses 3 v _)
    (fun _ _ => meets_pure trivial) limits u hu

theorem Confines.loop (hc : Confines limits first s fuel) {condition body : Tree}
    (h : Comes limits first s (.loop condition body) t) (ht : Confined limits first s t)
    (rounds : Nat) {last : Completion} (hlast : last.value.Within (Known limits first s)) :
    (repeatWhile (Run.test fuel .loopTested condition)
      (do Run.block (Run.execute fuel) (plain .none) (← listPart body)) rounds last limits t).Meets
      (confined limits first s) (fun last => last.value.Within (Known limits first s)) := by
  induction rounds generalizing t last with
  | zero => exact ht
  | succ rounds ih =>
      refine meets_bind_at (hc.test _ (.next h .loopTest) ht) fun again u htest _ hu => ?_
      cases again with
      | false => exact ⟨hlast, hu⟩
      | true =>
          refine meets_bind_at (P := fun last => last.value.Within (Known limits first s)) ?_
            fun last w hround hlast hw => ?_
          · refine meets_bind_at (meets_listPart trivial body limits u hu)
              fun trees w hlist _ hw => ?_
            exact hc.block (.next h (.loopBody htest hlist)) hw within_none
          · split
            · exact ⟨hlast, hw⟩
            · next hgoes =>
              exact ih (.next h (.loopAgain htest hround (by simpa using hgoes))) hw hlast

/-- A step that only looks at the state leaves it. -/
theorem eq_of_read {α : Type} {part : State → α} {v : α} {u : State}
    (h : read part limits t = .done v u) : part t = v ∧ t = u :=
  ⟨(Outcome.done.inj h).1, (Outcome.done.inj h).2⟩

theorem confines_call (hc : Confines limits first s fuel) {name args : Tree}
    (h : Comes limits first s (.expression (.call name args)) t) (ht : Confined limits first s t) :
    (evaluate (fuel + 1) (.call name args) limits t).Meets (confined limits first s)
      (Value.Within (Known limits first s)) := by
  simp only [evaluate]
  refine meets_nested_at (fun _ => trivial) ht fun hle hmid => ?_
  refine meets_bind_at (meets_scalarPart trivial name limits _ hmid) fun word u hname _ hu => ?_
  refine meets_bind_at (P := fun _ => True) ⟨trivial, hu⟩ fun function? u hread _ hu => ?_
  cases function? with
  | none => exact meets_fail trivial limits u hu
  | some function =>
      refine meets_bind_at (meets_listPart trivial args limits u hu) fun trees w hargs _ hw => ?_
      -- What ran so far is the way from the call to its operands.
      have hfound : expressionOperands (.call name args) limits { t with depth := t.depth + 1 } =
          .done trees w := by
        simp only [expressionOperands, bind_apply, hname, hread, hargs]
      have hoperands : Comes limits first s (.operands trees) w :=
        .next h (.expression ⟨hle, rfl⟩ hfound)
      refine meets_bind_at (hc.values hoperands hw) fun vs x hvs hwithin hx => ?_
      refine meets_bind_at (meets_noteTexts confined_encloses 1 vs _ limits x hx)
        fun _ y hnote _ hy => ?_
      refine meets_bind_at (P := fun kept => ∀ name v, kept.get? name = some v →
        v.Within (Known limits first s)) ⟨hy.bound, hy⟩ fun kept z hkept hbound hz => ?_
      obtain ⟨-, rfl⟩ := eq_of_read hkept
      refine meets_bind_at (meets_listPart trivial _ limits y hz) fun params z hparams _ hz => ?_
      refine meets_bind_at (confined_bindAll params hwithin limits z hz) fun _ b hbind _ hb => ?_
      refine meets_bind_at (meets_listPart trivial _ limits b hb) fun body c hbody _ hc' => ?_
      -- With the parameters bound, it is the way to the body.
      have hcallee : calleeOf fuel name args limits { t with depth := t.depth + 1 } =
          .done body c := by
        simp only [calleeOf, bind_apply, hname, hread, hargs, hvs, hnote, hparams, hbind, hbody]
      have hblock : Comes limits first s (.block body) c := .next h (.callee ⟨hle, rfl⟩ hcallee)
      refine meets_bind_at (hc.block hblock hc' within_none) fun last d _ hlast hd => ?_
      exact meets_bind (confined_restore hbound) (fun _ _ =>
        meets_bind (meets_noteText confined_encloses 1 last.value _)
          fun _ _ => meets_pure hlast) limits d hd

theorem confines_callMethod (hc : Confines limits first s fuel) {array args : Tree} (method : Tree)
    (h : ∀ trees u, argumentsOf array args limits t = .done trees u →
      Comes limits first s (.operands trees) u) (ht : Confined limits first s t) :
    (callMethod (fuel + 1) array method args limits t).Meets (confined limits first s)
      (Value.Within (Known limits first s)) := by
  simp only [callMethod]
  refine meets_bind_at (meets_scalarPart trivial array limits t ht) fun word u hword _ hu => ?_
  refine meets_bind_at (meets_lookupArray confined_encloses word trivial limits u hu)
    fun address w haddress hknown hw => ?_
  refine meets_bind_at (meets_listPart trivial args limits w hw) fun trees x hargs _ hx => ?_
  have hoperands : Comes limits first s (.operands trees) x :=
    h trees x (by simp only [argumentsOf, bind_apply, hword, haddress, hargs])
  refine meets_bind_at (hc.values hoperands hx) fun vs y _ hwithin hy => ?_
  refine meets_bind_at (meets_scalarPart trivial method limits y hy) fun name z _ _ hz => ?_
  exact meets_bind (meets_applyMethod confined_encloses hknown name hwithin) (fun v hv =>
    meets_bind (meets_noteText confined_encloses 3 v _) fun _ _ => meets_pure hv) limits z hz

/-- Operators give no arrays. -/
theorem within_of_applyUnary {known : Address → Prop} {operator : Scalar} {v w : Value}
    (h : applyUnary operator v = .ok w) : w.Within known := by
  obtain ⟨x, rfl⟩ := exists_number_of_applyUnary h
  exact fun _ ha => by cases ha

theorem within_of_applyComparison {known : Address → Prop} {operator : Scalar}
    {left right v : Value} (h : applyComparison operator left right = .ok v) : v.Within known := by
  obtain ⟨b, rfl⟩ := exists_boolean_of_applyComparison h
  exact fun _ ha => by cases ha

theorem within_ofScalar {known : Address → Prop} (value : Scalar) :
    (Value.ofScalar value).Within known := by
  intro a ha
  cases value <;> cases ha

theorem confines_evaluate (hc : Confines limits first s fuel) {tree : Tree}
    (h : Comes limits first s (.expression tree) t) (ht : Confined limits first s t) :
    (evaluate (fuel + 1) tree limits t).Meets (confined limits first s)
      (Value.Within (Known limits first s)) := by
  cases tree with
  | number value | string value | boolean value =>
      simp only [evaluate]
      exact meets_nested (fun _ => trivial) (meets_bind (meets_scalarPart trivial value)
        fun value _ => meets_pure (within_ofScalar value)) limits t ht
  | «variable» name =>
      simp only [evaluate]
      exact meets_nested (fun _ => trivial) (meets_bind (meets_scalarPart trivial name)
        fun name _ => meets_lookup confined_encloses name) limits t ht
  | unary operator operand =>
      simp only [evaluate]
      refine meets_nested_at (fun _ => trivial) ht fun hle hmid => ?_
      refine hc.operand (.next h (.expression ⟨hle, rfl⟩ rfl)) hmid fun v _ => ?_
      exact meets_bind (meets_scalarPart trivial operator) fun operator _ =>
        meets_lift (fun w hw => within_of_applyUnary hw) fun _ _ => trivial
  | binary operator left right =>
      simp only [evaluate]
      refine meets_nested_at (fun _ => trivial) ht fun hle hmid => ?_
      refine hc.operandPair (.next h (.expression ⟨hle, rfl⟩ rfl)) hmid fun l r _ => ?_
      exact meets_bind (meets_scalarPart trivial operator) fun operator _ =>
        meets_applyBinary confined_encloses fun _ _ => trivial
  | comparison operator left right =>
      simp only [evaluate]
      refine meets_nested_at (fun _ => trivial) ht fun hle hmid => ?_
      refine hc.operandPair (.next h (.expression ⟨hle, rfl⟩ rfl)) hmid fun l r _ => ?_
      exact meets_bind (meets_scalarPart trivial operator) fun operator _ =>
        meets_lift (fun v hv => within_of_applyComparison hv) fun _ _ => trivial
  | arrayLiteral elements =>
      rw [evaluate_arrayLiteral]
      refine meets_nested_at (fun _ => trivial) ht fun hle hmid => ?_
      refine meets_bind_at (P := fun vs => ∀ v ∈ vs, v.Within (Known limits first s)) ?_
        fun vs w hvalues hwithin hw => ?_
      · refine meets_bind_at (meets_listPart trivial elements limits _ hmid)
          fun trees u hlist _ hu => ?_
        exact hc.values (.next h (.expression ⟨hle, rfl⟩ hlist)) hu
      -- The run makes this array, so it can come to it, whatever the run started with.
      have hnew : Makes limits first s w.heap.arrays.size :=
        ⟨fuel + 1, elements, t, _, h, evaluate_arrayLiteral_of ⟨hle, rfl⟩ hvalues⟩
      refine ⟨?_, hw.allocate hnew (by simpa using hwithin)⟩
      intro a ha
      obtain rfl := Value.array.inj ha
      exact .inr ⟨hw.size_le, hnew⟩
  | elementAccess array index =>
      simp only [evaluate]
      refine meets_nested_at (fun _ => trivial) ht fun hle hmid => ?_
      refine meets_bind_at (meets_scalarPart trivial array limits _ hmid)
        fun word u hword _ hu => ?_
      refine meets_bind_at (meets_lookupArray confined_encloses word trivial limits u hu)
        fun address w haddress hknown hw => ?_
      have hfound : expressionOperands (.elementAccess array index) limits
          { t with depth := t.depth + 1 } = .done [index] w := by
        simp only [expressionOperands, bind_apply, hword, haddress, pure_apply]
      exact hc.operand (.next h (.expression ⟨hle, rfl⟩ hfound)) hw fun index _ =>
        meets_elementAt confined_encloses hknown index
  | methodExpression array method args =>
      simp only [evaluate]
      refine meets_nested_at (fun _ => trivial) ht fun hle hmid => ?_
      exact hc.callMethod method (fun trees u hfound =>
        .next h (.expression ⟨hle, rfl⟩ hfound)) hmid
  | arrayProperty array property =>
      simp only [evaluate]
      refine meets_nested (fun _ => trivial) (meets_bind (meets_scalarPart trivial array)
        fun word _ => meets_bind (meets_lookupArray confined_encloses word) fun address _ =>
          meets_bind (meets_scalarPart trivial property) fun property _ => ?_) limits t ht
      unfold applyProperty
      split
      · exact meets_bind (meets_itemsOf address) fun items _ => meets_pure fun _ ha => by cases ha
      · exact meets_fail trivial
  | call name args => exact confines_call hc h ht
  | _ =>
      simp only [evaluate]
      exact ⟨trivial, ht⟩

theorem meets_plain {v : Value} (hv : v.Within (Known limits first s)) :
    Meets (confined limits first s) (fun last => last.value.Within (Known limits first s))
      (pure (plain v)) := meets_pure hv

theorem confines_ifStatement (hc : Confines limits first s fuel)
    {condition ifBlock elseBlock : Tree}
    (h : Comes limits first s (.statement (.ifStatement condition ifBlock elseBlock)) t)
    (ht : Confined limits first s t) :
    (execute (fuel + 1) (.ifStatement condition ifBlock elseBlock) limits t).Meets
      (confined limits first s) (fun last => last.value.Within (Known limits first s)) := by
  simp only [execute]
  refine meets_nested_at (fun _ => trivial) ht fun hle hmid => ?_
  have hcondition := Comes.next h (.statement ⟨hle, rfl⟩ rfl)
  refine meets_bind_at (hc.evaluate (.next hcondition .operand) hmid) fun v u hv _ hu => ?_
  refine meets_bind_at (meets_noteText confined_encloses 3 v _ limits u hu)
    fun _ w hnote _ hw => ?_
  have htest : test fuel .branchTested condition limits { t with depth := t.depth + 1 } =
      .done v.isTruthy w := by
    simp only [test, bind_apply, hv, hnote, pure_apply]
  have hblock : ∀ {trees : List Tree} {x : State},
      branchOf fuel condition ifBlock elseBlock limits { t with depth := t.depth + 1 } =
        .done trees x → Confined limits first s x →
      (Run.block (execute fuel) (plain .none) trees limits x).Meets (confined limits first s)
        (fun last => last.value.Within (Known limits first s)) := fun hbranch hx =>
    hc.block (.next h (.branch ⟨hle, rfl⟩ hbranch)) hx within_none
  split
  · next htruthy =>
    refine meets_bind_at (meets_listPart trivial ifBlock limits w hw) fun trees x hlist _ hx => ?_
    refine hblock ?_ hx
    simp only [branchOf, bind_apply, htest, htruthy, if_true, hlist]
  · next hfalsy =>
    split
    · exact ⟨within_none, hw⟩
    · next helse =>
      refine meets_bind_at (meets_listPart trivial elseBlock limits w hw)
        fun trees x hlist _ hx => ?_
      refine hblock ?_ hx
      simp only [branchOf, bind_apply, htest, if_neg hfalsy, hlist]

theorem confines_execute (hc : Confines limits first s fuel) {tree : Tree}
    (h : Comes limits first s (.statement tree) t) (ht : Confined limits first s t) :
    (execute (fuel + 1) tree limits t).Meets (confined limits first s)
      (fun last => last.value.Within (Known limits first s)) := by
  cases tree with
  | assignment name value =>
      simp only [execute]
      refine meets_nested_at (fun _ => trivial) ht fun hle hmid => ?_
      refine hc.operand (.next h (.statement ⟨hle, rfl⟩ rfl)) hmid fun v hv => ?_
      exact meets_bind (meets_scalarPart trivial name) fun name _ =>
        meets_bind (confined_assign name hv) fun _ _ =>
          meets_bind (meets_noteText confined_encloses 2 v _) fun _ _ => meets_plain hv
  | print value =>
      simp only [execute]
      refine meets_nested_at (fun _ => trivial) ht fun hle hmid => ?_
      refine hc.operand (.next h (.statement ⟨hle, rfl⟩ rfl)) hmid fun v hv => ?_
      exact meets_bind (meets_display trivial v) fun text _ =>
        meets_bind (meets_printLine text) fun _ _ => meets_plain hv
  | expressionStatement expression =>
      simp only [execute]
      refine meets_nested_at (fun _ => trivial) ht fun hle hmid => ?_
      exact hc.operand (.next h (.statement ⟨hle, rfl⟩ rfl)) hmid fun v hv => meets_plain hv
  | ifStatement condition ifBlock elseBlock => exact confines_ifStatement hc h ht
  | whileStatement condition body =>
      simp only [execute]
      refine meets_nested_at (fun _ => trivial) ht fun hle hmid => ?_
      exact hc.loop (.next h (.loop ⟨hle, rfl⟩)) hmid fuel within_none
  | elementAssignment array index value =>
      simp only [execute]
      refine meets_nested_at (fun _ => trivial) ht fun hle hmid => ?_
      refine meets_bind_at (meets_scalarPart trivial array limits _ hmid)
        fun word u hword _ hu => ?_
      refine meets_bind_at (meets_lookupArray confined_encloses word trivial limits u hu)
        fun address w haddress hknown hw => ?_
      have hfound : statementOperands (.elementAssignment array index value) limits
          { t with depth := t.depth + 1 } = .done [index, value] w := by
        simp only [statementOperands, bind_apply, hword, haddress, pure_apply]
      refine hc.operandPair (.next h (.statement ⟨hle, rfl⟩ hfound)) hw fun i v hv => ?_
      have hnote : Meets (confined limits first s) (fun _ => True)
          (note 3 (do return .elementSet word (← display i) (← display v))) :=
        meets_note (meets_bind (meets_display trivial i) fun _ _ =>
          meets_bind (meets_display trivial v) fun _ _ => meets_pure trivial)
      exact meets_bind (meets_setElement confined_encloses hknown i hv) fun _ _ =>
        meets_bind hnote fun _ _ => meets_plain hv
  | methodCall array method args =>
      simp only [execute]
      refine meets_nested_at (fun _ => trivial) ht fun hle hmid => ?_
      refine meets_bind_at (hc.callMethod method (fun trees u hfound =>
        .next h (.statement ⟨hle, rfl⟩ hfound)) hmid) fun v u _ hv hu => ?_
      exact ⟨hv, hu⟩
  | functionDeclaration name params body =>
      simp only [execute]
      refine meets_nested (fun _ => trivial) (meets_bind (meets_scalarPart trivial name)
        fun name _ => meets_bind (confined_declare name _) fun _ _ =>
          meets_bind (meets_note ?_) fun _ _ => meets_plain within_none) limits t ht
      exact meets_bind (meets_listPart trivial params) fun trees _ =>
        meets_bind (meets_textParts trivial trees) fun names _ => meets_pure trivial
  | returnStatement value =>
      simp only [execute]
      refine meets_nested_at (fun _ => trivial) ht fun hle hmid => ?_
      split
      · exact ⟨within_none, hmid⟩
      · next hvalue =>
        have hfound : statementOperands (.returnStatement value) limits
            { t with depth := t.depth + 1 } = .done [value] { t with depth := t.depth + 1 } := by
          simp only [statementOperands, pure_apply]
        exact hc.operand (.next h (.statement ⟨hle, rfl⟩ hfound)) hmid fun v hv => meets_pure hv
  | _ =>
      simp only [execute]
      exact ⟨trivial, ht⟩

theorem confines_of_fuel (limits : Limits) (first : Task) (s : State) (fuel : Nat) :
    Confines limits first s fuel := by
  induction fuel with
  | zero =>
      constructor
      · intro tree t _ ht
        rw [evaluate_zero]
        exact ht
      · intro array args t method _ ht
        rw [callMethod]
        exact ht
      · intro tree t _ ht
        rw [execute_zero]
        exact ht
  | succ fuel ih =>
      constructor
      · exact confines_evaluate ih
      · exact confines_callMethod ih
      · exact confines_execute ih

/-- The statements of a program keep to the arrays that the program can come to. -/
theorem confined_statements (fuel : Nat) {trees : List Tree}
    (h : Comes limits first s (.program trees) t) (ht : Confined limits first s t) :
    (statements fuel trees limits t).Meets (confined limits first s)
      (Value.Within (Known limits first s)) := by
  have hc := confines_of_fuel limits first s fuel
  have hfirst : Value.none.Within (Known limits first s) := within_none
  unfold statements
  generalize Value.none = last at hfirst
  induction trees generalizing t last with
  | nil => exact ⟨hfirst, ht⟩
  | cons tree trees ih =>
      simp only [List.foldlM_cons]
      refine meets_bind_at (P := Value.Within (Known limits first s)) ?_ fun v u hv hwithin hu => ?_
      · have hnote : Meets (confined limits first s) (fun _ => True)
            (note 1 (return .executing tree.label)) := meets_note (meets_pure trivial)
        refine meets_bind_at (hnote limits t ht) fun _ u hstart _ hu => ?_
        refine meets_bind_at (hc.execute (.next h (.program hstart)) hu) fun last w _ hlast hw => ?_
        exact ⟨hlast, hw⟩
      · exact ih (.next h (.programRest hv)) hu v hwithin

/-- A program keeps to the arrays that it can come to. -/
theorem confined_program (limits : Limits) (fuel : Nat) (trees : List Tree) (s : State) :
    (program fuel trees limits s).Meets (confined limits (.program trees) s)
      (Value.Within (Known limits (.program trees) s)) := by
  unfold program
  split
  · exact ⟨trivial, Confined.refl⟩
  · exact confined_statements fuel .start .refl

end Run

section Ends

variable {limits : Limits} {first : Task} {s : State} {outcome : Outcome Value} {a : Address}

/-- The arrays that are reached when a run stops: from the variables, or from its value if there is
one. -/
def Outcome.Reaches (outcome : Outcome Value) (a : Address) : Prop :=
  outcome.after.Reaches a ∨ ∃ v t, outcome = .done v t ∧ v.Reaches t.heap a

theorem Outcome.Meets.confined
    (h : outcome.Meets (Run.confined limits first s) (Value.Within (Run.Known limits first s))) :
    Run.Confined limits first s outcome.after := by
  cases outcome with
  | done v t => exact h.2
  | failed fault t => exact h.2
  | outOfFuel t => exact h

/-- Only arrays that the run can come to are reached when it stops. -/
theorem Outcome.Meets.known
    (h : outcome.Meets (Run.confined limits first s) (Value.Within (Run.Known limits first s)))
    (ha : outcome.Reaches a) : Run.Known limits first s a := by
  rcases ha with ha | ⟨v, t, rfl, ha⟩
  · refine ha.of_closed ?_ h.confined.cell
    rintro v ⟨name, hv⟩
    exact h.confined.bound name v hv
  · refine ha.of_closed ?_ h.2.cell
    rintro w rfl
    exact h.1

end Ends

namespace Run

section Literals

variable {limits : Limits} {s t u : State}

/-- What is done by a node is done inside of it. -/
theorem exists_of_nested {α : Type} {kind : NodeKind} {work : Run α} {a : α}
    (h : nested kind work limits s = .done a t) :
    ∃ inside behind, s.Enters limits inside ∧ work limits inside = .done a behind ∧
      t = { behind with depth := behind.depth - 1 } := by
  unfold nested at h
  split at h
  · cases h
  · next hle =>
    cases hwork : work limits { s with depth := s.depth + 1 } with
    | done b behind =>
        rw [hwork] at h
        cases h
        exact ⟨_, behind, ⟨by omega, rfl⟩, hwork, rfl⟩
    | failed fault behind =>
        rw [hwork] at h
        cases h
    | outOfFuel behind =>
        rw [hwork] at h
        cases h

/-- When a literal has its value, its elements had theirs before, and the value is the array that
was made of them. -/
theorem exists_of_arrayLiteral {fuel : Nat} {elements : Tree} {v : Value}
    (h : evaluate fuel (.arrayLiteral elements) limits t = .done v u) :
    ∃ fewer inside vs mid, t.Enters limits inside ∧
      elementValues fewer elements limits inside = .done vs mid ∧
      v = .array (mid.heap.allocate vs.toArray).1 ∧
      u.heap = (mid.heap.allocate vs.toArray).2 := by
  cases fuel with
  | zero =>
      rw [evaluate_zero] at h
      cases h
  | succ fuel =>
      rw [evaluate_arrayLiteral] at h
      obtain ⟨inside, behind, enters, hinside, rfl⟩ := exists_of_nested h
      obtain ⟨vs, mid, hvalues, hnew⟩ := exists_of_bind hinside
      cases hnew
      exact ⟨fuel, inside, vs, mid, enters, hvalues, rfl, rfl⟩

/-- Whatever happens while the elements of a literal get their values, the arrays that are there
stay. -/
theorem size_le_of_elementValues {fuel : Nat} {elements : Tree} {vs : List Value}
    (h : elementValues fuel elements limits s = .done vs t) :
    s.heap.arrays.size ≤ t.heap.arrays.size := by
  obtain ⟨trees, mid, hlist, hvalues⟩ := exists_of_bind h
  have hmid : Confined limits (.operands trees) mid t := by
    have hmeets := (confines_of_fuel limits (.operands trees) mid fuel).values .start .refl
    rw [hvalues] at hmeets
    exact hmeets.2
  have hsame : s = mid := by
    cases hitems : elements.items? with
    | none => simp [listPart, hitems, fail] at hlist
    | some items =>
        simp only [listPart, hitems] at hlist
        exact (Outcome.done.inj hlist).2
  exact hsame ▸ hmid.size_le

end Literals

/-- Programs leave alone the arrays that nothing reaches, and only array literals make new ones.
However a program ends, an array that no variable reached at the start has its items still, and
neither the variables nor the result reach it. Every array literal whose elements have their values
gives an array that is none of those that are there then, nor of those before. Only arrays that were
reached at the start or that a literal made are reached at the end, and no others are new. -/
theorem arrays_kept_apart (limits : Limits) (fuel : Nat) (trees : List Tree) (s : State) :
    let outcome := program fuel trees limits s
    (∀ a < s.heap.arrays.size, ¬s.Reaches a →
      outcome.after.heap.items a = s.heap.items a ∧ ¬outcome.Reaches a) ∧
    (∀ steps elements t v u, evaluate steps (.arrayLiteral elements) limits t = .done v u →
      ∃ fewer inside vs mid, t.Enters limits inside ∧
        elementValues fewer elements limits inside = .done vs mid ∧
        v = .array (mid.heap.allocate vs.toArray).1 ∧
        u.heap = (mid.heap.allocate vs.toArray).2 ∧
        t.heap.arrays.size ≤ mid.heap.arrays.size ∧
        ∀ a < mid.heap.arrays.size, v ≠ .array a) ∧
    (∀ fewer elements t inside vs mid, t.Enters limits inside →
      elementValues fewer elements limits inside = .done vs mid →
      ∃ v u, evaluate (fewer + 1) (.arrayLiteral elements) limits t = .done v u) ∧
    (∀ a, outcome.Reaches a → s.Reaches a ∨ Makes limits (.program trees) s a) ∧
    s.heap.arrays.size ≤ outcome.after.heap.arrays.size ∧
    ∀ a, s.heap.arrays.size ≤ a → a < outcome.after.heap.arrays.size →
      Makes limits (.program trees) s a := by
  intro outcome
  have hmeets : outcome.Meets (confined limits (.program trees) s)
      (Value.Within (Known limits (.program trees) s)) := confined_program limits fuel trees s
  refine ⟨?_, ?_, ?_, ?_, hmeets.confined.size_le, hmeets.confined.made⟩
  · intro a ha hunreached
    have hunknown : ¬Known limits (.program trees) s a := by
      rintro (hreached | ⟨hle, -⟩)
      · exact hunreached hreached
      · omega
    exact ⟨hmeets.confined.frame a hunknown, fun hreached => hunknown (hmeets.known hreached)⟩
  · intro steps elements t v u hliteral
    obtain ⟨fewer, inside, vs, mid, enters, helements, rfl, hheap⟩ :=
      exists_of_arrayLiteral hliteral
    have hle : t.heap.arrays.size ≤ mid.heap.arrays.size := by
      have hinside := size_le_of_elementValues helements
      obtain ⟨-, rfl⟩ := enters
      exact hinside
    refine ⟨fewer, inside, vs, mid, enters, helements, rfl, hheap, hle, ?_⟩
    intro a ha heq
    exact Nat.ne_of_gt ha (Value.array.inj heq)
  · intro fewer elements t inside vs mid enters helements
    exact ⟨_, _, evaluate_arrayLiteral_of enters helements⟩
  · intro a hreached
    exact (hmeets.known hreached).imp_right And.right

end Run

end Sprig
