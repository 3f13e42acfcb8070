import Sprig.Proofs.Run.Brackets
import Sprig.Proofs.Run.Draft
import Sprig.Proofs.Run.Showing

/-!
# Where events are noted

The places at which a run notes events, if the trace reaches their levels: each is inside of a task
that the run comes to, behind some of the work on it, and has the draft of an event. Where the event
cannot be made, the task fails. A run under eased limits comes to the same tasks and the same places
in the same states, but for the events noted on the way, and shows the same values there.

## Implementation notes

Nothing is known here of the parameters of declarations, so limits are eased as far as events are
concerned that may stop the first run for any reason.
-/

namespace Sprig

namespace Run

section Places

/-- What a call does in front of the event of its return: it runs the body of the function and puts
the variables back. -/
def callResult (fuel : Nat) (call : Called) : Run Value := do
  let kept ← read (·.bindings)
  bindAll (← listPart call.function.params) call.args
  let completion ← block (execute fuel) (plain .none) (← listPart call.function.body)
  change fun s => { s with bindings := kept }
  return completion.value

/-- Binds the parameters in front of one, and then that one. -/
def bindNext (front : List Tree) (param : Tree) (args : List Value) : Run (Scalar × Value) := do
  bindAll front args
  let name ← scalarPart param
  let v := (args.drop front.length).headD .none
  assign name v
  return (name, v)

/-- What an assignment does in front of its event. -/
def assigned (fuel : Nat) (name value : Tree) : Run (Scalar × Value) := do
  let v ← evaluate fuel value
  let name ← scalarPart name
  assign name v
  return (name, v)

/-- What a declaration does in front of its event. -/
def declared (name params body : Tree) : Run Scalar := do
  let name ← scalarPart name
  change fun s => { s with functions := s.functions.set name ⟨params, body⟩ }
  return name

/-- What an assignment to an element does in front of its event. -/
def elementAssigned (fuel : Nat) (array index value : Tree) : Run (Scalar × Value × Value) := do
  let array ← scalarPart array
  let address ← lookupArray array
  let index ← evaluate fuel index
  let v ← evaluate fuel value
  setElement address index v
  return (array, index, v)

/-- What a call of a method does in front of its event. -/
def methodAnswered (fuel : Nat) (array method args : Tree) : Run (Scalar × Scalar × Value) := do
  let array ← scalarPart array
  let address ← lookupArray array
  let args ← values (evaluate fuel) (← listPart args)
  let method ← scalarPart method
  return (array, method, ← applyMethod address method args)

/-- Which events a task notes, and in which state, if the trace reaches their levels. -/
inductive Notes (limits : Limits) : Task → State → Draft → State → Prop
  | executing {tree rest s} :
      Notes limits (.program (tree :: rest)) s (.executing tree.label) s
  | calling {fuel name args call s mid t} (enters : s.Enters limits mid)
      (before : called fuel name args limits mid = .done call t) :
      Notes limits (.expression (.call name args)) s (.calling call.name call.args) t
  | bound {fuel name args call front param rest word v s mid told listed start t}
      (enters : s.Enters limits mid) (arrives : called fuel name args limits mid = .done call told)
      (line : callLine call limits told = .done () listed)
      (params : listPart call.function.params limits listed = .done (front ++ param :: rest) start)
      (before : bindNext front param call.args limits start = .done (word, v) t) :
      Notes limits (.expression (.call name args)) s (.bound word v) t
  | returned {fuel name args call v s mid told start t} (enters : s.Enters limits mid)
      (arrives : called fuel name args limits mid = .done call told)
      (line : callLine call limits told = .done () start)
      (before : callResult fuel call limits start = .done v t) :
      Notes limits (.expression (.call name args)) s (.returned call.name v) t
  | assigned {fuel name value word v s mid t} (enters : s.Enters limits mid)
      (before : assigned fuel name value limits mid = .done (word, v) t) :
      Notes limits (.statement (.assignment name value)) s (.assigned word v) t
  | defined {name params body word s mid t} (enters : s.Enters limits mid)
      (before : declared name params body limits mid = .done word t) :
      Notes limits (.statement (.functionDeclaration name params body)) s (.defined word params) t
  | branchTested {fuel condition ifBlock elseBlock v s mid t} (enters : s.Enters limits mid)
      (before : evaluate fuel condition limits mid = .done v t) :
      Notes limits (.statement (.ifStatement condition ifBlock elseBlock)) s (.branchTested v) t
  | loopTested {fuel condition body v s t} (before : evaluate fuel condition limits s = .done v t) :
      Notes limits (.loop condition body) s (.loopTested v) t
  | elementSet {fuel array index value word i v s mid t} (enters : s.Enters limits mid)
      (before : elementAssigned fuel array index value limits mid = .done (word, i, v) t) :
      Notes limits (.statement (.elementAssignment array index value)) s (.elementSet word i v) t
  | methodAnswered {fuel array method args word name v s mid t} (enters : s.Enters limits mid)
      (before : methodAnswered fuel array method args limits mid = .done (word, name, v) t) :
      Notes limits (.expression (.methodExpression array method args)) s
        (.methodAnswered word name v) t
  | methodAnsweredAside {fuel array method args word name v s mid t} (enters : s.Enters limits mid)
      (before : methodAnswered fuel array method args limits mid = .done (word, name, v) t) :
      Notes limits (.statement (.methodCall array method args)) s (.methodAnswered word name v) t

end Places

section Failing

variable {limits : Limits} {task first : Task} {draft : Draft} {fault : Fault} {trees : List Tree}
  {s t u : State}

/-- An event that cannot be made ends the step that notes it. -/
theorem failsIn_note (noted : draft.level ≤ limits.traceLevel)
    (h : draft.event limits t = .failed fault t) :
    FailsIn t (note draft.level draft.event) limits fault t := by
  refine ⟨0, ?_⟩
  rw [note_of_le noted, bind_of_failed h]
  rfl

/-- Parameters are bound one part after the other. -/
theorem bindAll_append (front rest : List Tree) (args : List Value) :
    bindAll (front ++ rest) args = (do
      bindAll front args
      bindAll rest (args.drop front.length)) := by
  induction front generalizing args with
  | nil => simp [bindAll]
  | cons param front ih =>
      simp only [List.cons_append, bindAll, bind_assoc, ih, List.length_cons, List.drop_tail]

theorem failsIn_bindAll {front rest : List Tree} {param : Tree} {args : List Value} {word : Scalar}
    {v : Value} (before : bindNext front param args limits s = .done (word, v) t)
    (h : FailsIn t (note 2 (Draft.bound word v).event) limits fault t) :
    FailsIn t (bindAll (front ++ param :: rest) args) limits fault s := by
  obtain ⟨_, a, hfront, before⟩ := exists_of_bind before
  obtain ⟨name, b, hname, before⟩ := exists_of_bind before
  obtain ⟨_, c, hassign, before⟩ := exists_of_bind before
  obtain ⟨hparts, rfl⟩ := Outcome.done.inj before
  obtain ⟨rfl, rfl⟩ := Prod.mk.inj hparts
  rw [bindAll_append]
  exact .after hfront (.after hname (.after hassign (h.bind _)))

theorem failsIn_callBody {fuel : Nat} {call : Called} {v : Value}
    (before : callResult fuel call limits s = .done v t)
    (h : FailsIn t (note 1 (Draft.returned call.name v).event) limits fault t) :
    FailsIn t (callBody fuel call) limits fault s := by
  obtain ⟨kept, a, hkept, before⟩ := exists_of_bind before
  obtain ⟨params, b, hparams, before⟩ := exists_of_bind before
  obtain ⟨_, c, hbind, before⟩ := exists_of_bind before
  obtain ⟨body, d, hbody, before⟩ := exists_of_bind before
  obtain ⟨completion, e, hblock, before⟩ := exists_of_bind before
  obtain ⟨_, f, hrestore, before⟩ := exists_of_bind before
  obtain ⟨rfl, rfl⟩ := Outcome.done.inj before
  exact .after hkept (.after hparams (.after hbind (.after hbody (.after hblock
    (.after hrestore (h.bind _))))))

theorem failsIn_answering {fuel : Nat} {array method args : Tree} {word name : Scalar} {v : Value}
    (before : methodAnswered fuel array method args limits s = .done (word, name, v) t)
    (h : FailsIn t (note 3 (Draft.methodAnswered word name v).event) limits fault t) :
    FailsIn t (callMethod (fuel + 1) array method args) limits fault s := by
  obtain ⟨found, a, hfound, before⟩ := exists_of_bind before
  obtain ⟨address, b, haddress, before⟩ := exists_of_bind before
  obtain ⟨trees, c, hargs, before⟩ := exists_of_bind before
  obtain ⟨vs, d, hvs, before⟩ := exists_of_bind before
  obtain ⟨method, e, hmethod, before⟩ := exists_of_bind before
  obtain ⟨w, f, happly, before⟩ := exists_of_bind before
  obtain ⟨hparts, rfl⟩ := Outcome.done.inj before
  obtain ⟨rfl, rfl, rfl⟩ : found = word ∧ method = name ∧ w = v := by simpa using hparts
  rw [callMethod]
  exact .after hfound (.after haddress (.after hargs (.after hvs (.after hmethod
    (.after happly (h.bind _))))))

/-- A task fails at an event that it notes and that cannot be made. -/
theorem Notes.fails (notes : Notes limits task s draft t) (noted : draft.level ≤ limits.traceLevel)
    (h : draft.event limits t = .failed fault t) : Fails t limits fault task s := by
  have hnote := failsIn_note noted h
  cases notes with
  | executing =>
      refine ⟨0, (failsIn_map _).mpr ?_⟩
      rw [statements_cons]
      exact .bind (.bind hnote _) _
  | @calling fuel name args call _ mid _ enters before =>
      refine ⟨fuel + 1, (failsIn_map _).mpr ?_⟩
      rw [evaluate_call]
      exact .nested enters (.after before (hnote.bind _))
  | @bound fuel name args call front param rest word v _ mid told listed start _ enters arrives
      line params before =>
      refine ⟨fuel + 1, (failsIn_map _).mpr ?_⟩
      rw [evaluate_call]
      have hkept : read (·.bindings) limits listed = .done listed.bindings listed := rfl
      exact .nested enters (.after arrives (.after line (.after hkept (.after params
        ((failsIn_bindAll before hnote).bind _)))))
  | @returned fuel name args call v _ mid told start _ enters arrives line before =>
      refine ⟨fuel + 1, (failsIn_map _).mpr ?_⟩
      rw [evaluate_call]
      exact .nested enters (.after arrives (.after line (failsIn_callBody before hnote)))
  | @assigned fuel name value word v _ mid _ enters before =>
      obtain ⟨w, a, hvalue, before⟩ := exists_of_bind before
      obtain ⟨found, b, hname, before⟩ := exists_of_bind before
      obtain ⟨_, c, hassign, before⟩ := exists_of_bind before
      obtain ⟨hparts, rfl⟩ := Outcome.done.inj before
      obtain ⟨rfl, rfl⟩ := Prod.mk.inj hparts
      refine ⟨fuel + 1, (failsIn_map _).mpr ?_⟩
      rw [execute]
      exact .nested enters (.after hvalue (.after hname (.after hassign (hnote.bind _))))
  | @defined name params body word _ mid _ enters before =>
      obtain ⟨found, a, hname, before⟩ := exists_of_bind before
      obtain ⟨_, b, hchange, before⟩ := exists_of_bind before
      obtain ⟨rfl, rfl⟩ := Outcome.done.inj before
      refine ⟨1, (failsIn_map _).mpr ?_⟩
      rw [execute]
      exact .nested enters (.after hname (.after hchange (hnote.bind _)))
  | @branchTested fuel condition ifBlock elseBlock v _ mid _ enters before =>
      refine ⟨fuel + 1, (failsIn_map _).mpr ?_⟩
      simp only [execute]
      exact .nested enters (.after before (hnote.bind _))
  | @loopTested fuel condition body v _ _ before =>
      have hvalue := done_of_extends before (extends_evaluate fuel.le_succ condition)
      refine ⟨fuel + 1, (failsIn_map _).mpr ?_⟩
      rw [repeatWhile]
      exact .bind (.after hvalue (hnote.bind _)) _
  | @elementSet fuel array index value word i v _ mid _ enters before =>
      obtain ⟨found, a, hfound, before⟩ := exists_of_bind before
      obtain ⟨address, b, haddress, before⟩ := exists_of_bind before
      obtain ⟨j, c, hindex, before⟩ := exists_of_bind before
      obtain ⟨w, d, hvalue, before⟩ := exists_of_bind before
      obtain ⟨_, e, hset, before⟩ := exists_of_bind before
      obtain ⟨hparts, rfl⟩ := Outcome.done.inj before
      obtain ⟨rfl, rfl, rfl⟩ : found = word ∧ j = i ∧ w = v := by simpa using hparts
      refine ⟨fuel + 1, (failsIn_map _).mpr ?_⟩
      rw [execute]
      exact .nested enters (.after hfound (.after haddress (.after hindex (.after hvalue
        (.after hset (hnote.bind _))))))
  | @methodAnswered fuel array method args word name v _ mid _ enters before =>
      refine ⟨fuel + 2, (failsIn_map _).mpr ?_⟩
      rw [evaluate]
      exact .nested enters (failsIn_answering before hnote)
  | @methodAnsweredAside fuel array method args word name v _ mid _ enters before =>
      refine ⟨fuel + 2, (failsIn_map _).mpr ?_⟩
      rw [execute]
      exact .nested enters ((failsIn_answering before hnote).bind _)

end Failing

end Run

namespace Easing

variable {E : Easing} {base : List Event} {t t' mid : State}

/-- Where nothing is known of declarations, nothing is asked of those inside a tree. -/
theorem fits_of_not_named (h : ¬E.named) (tree : Tree) : E.Fits tree := fun hE => absurd hE h

/-- A node that the first run enters, the second one enters too. -/
theorem Alike.enters (ht : E.Alike base t t') (enters : t.Enters E.tight mid) :
    ∃ mid', t'.Enters E.loose mid' ∧ E.Alike base mid mid' := by
  obtain ⟨hle, rfl⟩ := enters
  obtain ⟨⟨trace, rfl⟩, named, traces⟩ := ht
  exact ⟨_, ⟨Int.le_trans hle E.depth_le, rfl⟩, ⟨trace, rfl⟩, named, traces⟩

end Easing

namespace Run

/-- Whether a step goes side by side with itself under eased limits. -/
def Eases {α : Type} (E : Easing) (base : List Event) (run : Run α) : Prop :=
  Couples (E.coupling base) Eq run run

variable {E : Easing} {base : List Event} {α β : Type} {s t t' u : State}

/-- Where the first run is done with a step, the second one is too. -/
theorem Eases.exists_done {run : Run α} {v : α} (h : Eases E base run) (ht : E.Alike base t t')
    (hrun : run E.tight t = .done v u) :
    ∃ u', run E.loose t' = .done v u' ∧ E.Alike base u u' := by
  have hcoupled : (run E.tight t).Coupled (E.coupling base) Eq (run E.loose t') := h.together ht
  rw [hrun] at hcoupled
  generalize run E.loose t' = other at hcoupled ⊢
  cases hcoupled with
  | done values states =>
      obtain rfl : v = _ := values
      exact ⟨_, rfl, states⟩

/-- Inside of a node that both runs enter, too. -/
theorem Eases.exists_inside {run : Run α} {v : α} {mid : State} (h : Eases E base run)
    (ht : E.Alike base t t') (enters : t.Enters E.tight mid) (hrun : run E.tight mid = .done v u) :
    ∃ mid' u', t'.Enters E.loose mid' ∧ run E.loose mid' = .done v u' ∧ E.Alike base u u' := by
  obtain ⟨mid', enters', hmid⟩ := ht.enters enters
  obtain ⟨u', hrun', hu⟩ := h.exists_done hmid hrun
  exact ⟨mid', u', enters', hrun', hu⟩

section Steps

variable (hfragile : E.fragile) (hnamed : ¬E.named) (fuel : Nat)
include hfragile hnamed

theorem eases_evaluate (tree : Tree) : Eases E base (evaluate fuel tree) :=
  (paired_of_fuels hfragile (.same _ fuel)).evaluate (E.fits_of_not_named hnamed tree)

theorem eases_execute (tree : Tree) : Eases E base (execute fuel tree) :=
  (paired_of_fuels hfragile (.same _ fuel)).execute (E.fits_of_not_named hnamed tree)

theorem eases_values (trees : List Tree) : Eases E base (values (evaluate fuel) trees) :=
  couples_values (List.forall₂_same.mpr fun tree _ => eases_evaluate hfragile hnamed fuel tree)

theorem eases_block (last : Completion) (trees : List Tree) :
    Eases E base (block (execute fuel) last trees) :=
  couples_block (List.forall₂_same.mpr fun tree _ => eases_execute hfragile hnamed fuel tree) last

theorem eases_blockPart (body : Tree) :
    Eases E base (do block (execute fuel) (plain .none) (← listPart body)) :=
  couples_next (couples_listPart body) (eases_block hfragile hnamed fuel _)

/-- A statement of a program, with the event that it notes. -/
theorem eases_topStatement (tree : Tree) :
    Eases E base (do
      note 1 (return .executing tree.label)
      return (← execute fuel tree).value) :=
  couples_next (couples_note hfragile (.executing tree.label)) fun _ =>
    couples_next (eases_execute hfragile hnamed fuel tree) fun _ => couples_pure rfl

theorem eases_branchTest (condition : Tree) :
    Eases E base (test fuel .branchTested condition) :=
  couples_next (eases_evaluate hfragile hnamed fuel condition) fun v =>
    couples_next (couples_note hfragile (.branchTested v)) fun _ => couples_pure rfl

theorem eases_loopTest (condition : Tree) : Eases E base (test fuel .loopTested condition) :=
  couples_next (eases_evaluate hfragile hnamed fuel condition) fun v =>
    couples_next (couples_note hfragile (.loopTested v)) fun _ => couples_pure rfl

omit hfragile hnamed in
theorem eases_argumentsOf (array args : Tree) : Eases E base (argumentsOf array args) :=
  couples_next (couples_scalarPart array) fun word =>
    couples_next (couples_lookupArray word) fun _ => couples_listPart args

omit hfragile hnamed in
theorem eases_expressionOperands (tree : Tree) : Eases E base (expressionOperands tree) := by
  cases tree with
  | number | string | boolean | «variable» | arrayProperty | unary | binary | comparison =>
      exact couples_pure rfl
  | arrayLiteral elements => exact couples_listPart elements
  | elementAccess array index =>
      apply couples_next (couples_scalarPart array)
      intro word
      exact couples_next (couples_lookupArray word) fun _ => couples_pure rfl
  | methodExpression array method args => exact eases_argumentsOf array args
  | call name args =>
      apply couples_next (couples_scalarPart name)
      intro word
      apply couples_next (couples_read fun _ _ => rfl)
      intro function?
      cases function? with
      | none => exact couples_fail rfl
      | some function => exact couples_listPart args
  | _ => exact couples_fail rfl

omit hfragile hnamed in
theorem eases_statementOperands (tree : Tree) : Eases E base (statementOperands tree) := by
  cases tree with
  | assignment | print | expressionStatement | ifStatement | whileStatement
  | functionDeclaration => exact couples_pure rfl
  | elementAssignment array index value =>
      apply couples_next (couples_scalarPart array)
      intro word
      exact couples_next (couples_lookupArray word) fun _ => couples_pure rfl
  | methodCall array method args => exact eases_argumentsOf array args
  | returnStatement value =>
      by_cases hvalue : value = .scalar .none
      · subst hvalue
        exact couples_pure rfl
      · rw [statementOperands.eq_def]
        simp only
        exact couples_pure rfl
  | _ => exact couples_fail rfl

theorem eases_branchOf (condition ifBlock elseBlock : Tree) :
    Eases E base (branchOf fuel condition ifBlock elseBlock) := by
  apply couples_next (eases_branchTest hfragile hnamed fuel condition)
  intro holds
  split
  · exact couples_listPart ifBlock
  · split
    · exact couples_pure rfl
    · exact couples_listPart elseBlock

theorem eases_called (name args : Tree) : Eases E base (called fuel name args) := by
  apply couples_next (couples_scalarPart name)
  intro word
  apply couples_next (couples_read fun _ _ => rfl)
  intro function?
  cases function? with
  | none => exact couples_fail rfl
  | some function =>
      apply couples_next (couples_listPart args)
      intro trees
      exact couples_next (eases_values hfragile hnamed fuel trees) fun vs => couples_pure rfl

omit hnamed in
theorem eases_callLine (call : Called) : Eases E base (callLine call) :=
  couples_note hfragile (.calling call.name call.args)

theorem eases_calleeOf (name args : Tree) : Eases E base (calleeOf fuel name args) := by
  rw [calleeOf_eq]
  apply couples_next (eases_called hfragile hnamed fuel name args)
  intro call
  apply couples_next (eases_callLine hfragile call)
  intro _
  apply couples_next (couples_listPart call.function.params)
  intro params
  apply couples_next (couples_bindAll hfragile params call.args)
  exact fun _ => couples_listPart call.function.body

theorem eases_callResult (call : Called) : Eases E base (callResult fuel call) := by
  apply couples_next (couples_read fun _ _ => rfl)
  intro kept
  apply couples_next (couples_listPart call.function.params)
  intro params
  apply couples_next (couples_bindAll hfragile params call.args)
  intro _
  apply couples_next (couples_listPart call.function.body)
  intro body
  apply couples_next (eases_block hfragile hnamed fuel _ body)
  intro completion
  exact couples_next (couples_restore kept) fun _ => couples_pure rfl

omit hnamed in
theorem eases_bindNext (front : List Tree) (param : Tree) (args : List Value) :
    Eases E base (bindNext front param args) := by
  apply couples_next (couples_bindAll hfragile front args)
  intro _
  apply couples_next (couples_scalarPart param)
  intro name
  exact couples_next (couples_assign name _) fun _ => couples_pure rfl

theorem eases_assigned (name value : Tree) : Eases E base (assigned fuel name value) := by
  apply couples_next (eases_evaluate hfragile hnamed fuel value)
  intro v
  apply couples_next (couples_scalarPart name)
  intro word
  exact couples_next (couples_assign word v) fun _ => couples_pure rfl

omit hfragile in
theorem eases_declared (name params body : Tree) : Eases E base (declared name params body) := by
  apply couples_next (couples_scalarPart name)
  intro word
  exact couples_next (couples_declare word params (E.fits_of_not_named hnamed body))
    fun _ => couples_pure rfl

theorem eases_elementAssigned (array index value : Tree) :
    Eases E base (elementAssigned fuel array index value) := by
  apply couples_next (couples_scalarPart array)
  intro word
  apply couples_next (couples_lookupArray word)
  intro address
  apply couples_next (eases_evaluate hfragile hnamed fuel index)
  intro i
  apply couples_next (eases_evaluate hfragile hnamed fuel value)
  intro v
  exact couples_next (easing_sharesArrays.setElement address i v) fun _ => couples_pure rfl

theorem eases_methodAnswered (array method args : Tree) :
    Eases E base (methodAnswered fuel array method args) := by
  apply couples_next (couples_scalarPart array)
  intro word
  apply couples_next (couples_lookupArray word)
  intro address
  apply couples_next (couples_listPart args)
  intro trees
  apply couples_next (eases_values hfragile hnamed fuel trees)
  intro vs
  apply couples_next (couples_scalarPart method)
  intro name
  exact couples_next (easing_sharesArrays.applyMethod address name vs) fun _ => couples_pure rfl

theorem eases_operandsOf (operator left right : Tree) :
    Eases E base (operandsOf fuel operator left right) := by
  apply couples_next (eases_evaluate hfragile hnamed fuel left)
  intro l
  apply couples_next (eases_evaluate hfragile hnamed fuel right)
  intro r
  exact couples_next (couples_scalarPart operator) fun _ => couples_pure rfl

theorem eases_receiverOf (array method args : Tree) :
    Eases E base (receiverOf fuel array method args) := by
  apply couples_next (couples_scalarPart array)
  intro word
  apply couples_next (couples_lookupArray word)
  intro address
  apply couples_next (couples_listPart args)
  intro trees
  apply couples_next (eases_values hfragile hnamed fuel trees)
  intro vs
  exact couples_next (couples_scalarPart method) fun _ => couples_pure rfl

end Steps

section Places

variable {task inner first : Task} {draft : Draft} (hfragile : E.fragile) (hnamed : ¬E.named)
include hfragile hnamed

/-- A task that the first run begins, the second one begins too. -/
theorem Begins.eased (begins : Begins E.tight task t inner u) (ht : E.Alike base t t') :
    ∃ u', Begins E.loose task t' inner u' ∧ E.Alike base u u' := by
  cases begins with
  | @program tree rest _ _ before =>
      obtain ⟨u', before', hu⟩ :=
        Eases.exists_done (couples_note hfragile (.executing tree.label)) ht before
      exact ⟨u', .program before', hu⟩
  | @programRest fuel tree rest v _ _ before =>
      obtain ⟨u', before', hu⟩ :=
        (eases_topStatement hfragile hnamed fuel tree).exists_done ht before
      exact ⟨u', .programRest before', hu⟩
  | block => exact ⟨t', .block, ht⟩
  | @blockRest fuel tree rest last _ _ before goesOn =>
      obtain ⟨u', before', hu⟩ := (eases_execute hfragile hnamed fuel tree).exists_done ht before
      exact ⟨u', .blockRest before' goesOn, hu⟩
  | operand => exact ⟨t', .operand, ht⟩
  | @operandRest fuel tree rest v _ _ before =>
      obtain ⟨u', before', hu⟩ := (eases_evaluate hfragile hnamed fuel tree).exists_done ht before
      exact ⟨u', .operandRest before', hu⟩
  | expression enters before =>
      obtain ⟨mid', u', enters', before', hu⟩ :=
        (eases_expressionOperands _).exists_inside ht enters before
      exact ⟨u', .expression enters' before', hu⟩
  | @callee fuel name args trees _ mid _ enters before =>
      obtain ⟨mid', u', enters', before', hu⟩ :=
        (eases_calleeOf hfragile hnamed fuel name args).exists_inside ht enters before
      exact ⟨u', .callee enters' before', hu⟩
  | statement enters before =>
      obtain ⟨mid', u', enters', before', hu⟩ :=
        (eases_statementOperands _).exists_inside ht enters before
      exact ⟨u', .statement enters' before', hu⟩
  | @branch fuel condition ifBlock elseBlock trees _ mid _ enters before =>
      obtain ⟨mid', u', enters', before', hu⟩ :=
        (eases_branchOf hfragile hnamed fuel condition ifBlock elseBlock).exists_inside
          ht enters before
      exact ⟨u', .branch enters' before', hu⟩
  | loop enters =>
      obtain ⟨u', enters', hu⟩ := ht.enters enters
      exact ⟨u', .loop enters', hu⟩
  | loopTest => exact ⟨t', .loopTest, ht⟩
  | @loopBody fuel condition body trees _ mid _ before items =>
      obtain ⟨mid', before', hmid⟩ :=
        (eases_loopTest hfragile hnamed fuel condition).exists_done ht before
      obtain ⟨u', items', hu⟩ := Eases.exists_done (couples_listPart body) hmid items
      exact ⟨u', .loopBody before' items', hu⟩
  | @loopAgain fuel condition body last _ mid _ before round goesOn =>
      obtain ⟨mid', before', hmid⟩ :=
        (eases_loopTest hfragile hnamed fuel condition).exists_done ht before
      obtain ⟨u', round', hu⟩ := (eases_blockPart hfragile hnamed fuel body).exists_done hmid round
      exact ⟨u', .loopAgain before' round' goesOn, hu⟩

/-- A task that the first run comes to, the second one comes to too. -/
theorem Comes.eased (comes : Comes E.tight first s task t) (hs : E.Alike base s s) :
    ∃ t', Comes E.loose first s task t' ∧ E.Alike base t t' := by
  induction comes with
  | start => exact ⟨s, .start, hs⟩
  | next _ begins ih =>
      obtain ⟨t', comes', ht⟩ := ih
      obtain ⟨u', begins', hu⟩ := begins.eased hfragile hnamed ht
      exact ⟨u', comes'.next begins', hu⟩

/-- A place at which the first run may note an event is one at which the second run may. -/
theorem Notes.eased (notes : Notes E.tight task t draft u) (ht : E.Alike base t t') :
    ∃ u', Notes E.loose task t' draft u' ∧ E.Alike base u u' := by
  cases notes with
  | executing => exact ⟨t', .executing, ht⟩
  | @calling fuel name args call _ mid _ enters before =>
      obtain ⟨mid', u', enters', before', hu⟩ :=
        (eases_called hfragile hnamed fuel name args).exists_inside ht enters before
      exact ⟨u', .calling enters' before', hu⟩
  | @bound fuel name args call front param rest word v _ mid told listed start _ enters arrives
      line params before =>
      obtain ⟨mid', enters', hmid⟩ := ht.enters enters
      obtain ⟨told', arrives', htold⟩ :=
        (eases_called hfragile hnamed fuel name args).exists_done hmid arrives
      obtain ⟨listed', line', hlisted⟩ := (eases_callLine hfragile call).exists_done htold line
      obtain ⟨start', params', hstart⟩ := Eases.exists_done (couples_listPart _) hlisted params
      obtain ⟨u', before', hu⟩ := (eases_bindNext hfragile front param _).exists_done hstart before
      exact ⟨u', .bound enters' arrives' line' params' before', hu⟩
  | @returned fuel name args call v _ mid told start _ enters arrives line before =>
      obtain ⟨mid', enters', hmid⟩ := ht.enters enters
      obtain ⟨told', arrives', htold⟩ :=
        (eases_called hfragile hnamed fuel name args).exists_done hmid arrives
      obtain ⟨start', line', hstart⟩ := (eases_callLine hfragile call).exists_done htold line
      obtain ⟨u', before', hu⟩ :=
        (eases_callResult hfragile hnamed fuel call).exists_done hstart before
      exact ⟨u', .returned enters' arrives' line' before', hu⟩
  | @assigned fuel name value word v _ mid _ enters before =>
      obtain ⟨mid', u', enters', before', hu⟩ :=
        (eases_assigned hfragile hnamed fuel name value).exists_inside ht enters before
      exact ⟨u', .assigned enters' before', hu⟩
  | @defined name params body word _ mid _ enters before =>
      obtain ⟨mid', u', enters', before', hu⟩ :=
        (eases_declared hnamed name params body).exists_inside ht enters before
      exact ⟨u', .defined enters' before', hu⟩
  | @branchTested fuel condition ifBlock elseBlock v _ mid _ enters before =>
      obtain ⟨mid', u', enters', before', hu⟩ :=
        (eases_evaluate hfragile hnamed fuel condition).exists_inside ht enters before
      exact ⟨u', .branchTested enters' before', hu⟩
  | @loopTested fuel condition body v _ _ before =>
      obtain ⟨u', before', hu⟩ :=
        (eases_evaluate hfragile hnamed fuel condition).exists_done ht before
      exact ⟨u', .loopTested before', hu⟩
  | @elementSet fuel array index value word i v _ mid _ enters before =>
      obtain ⟨mid', u', enters', before', hu⟩ :=
        (eases_elementAssigned hfragile hnamed fuel array index value).exists_inside
          ht enters before
      exact ⟨u', .elementSet enters' before', hu⟩
  | @methodAnswered fuel array method args word name v _ mid _ enters before =>
      obtain ⟨mid', u', enters', before', hu⟩ :=
        (eases_methodAnswered hfragile hnamed fuel array method args).exists_inside ht enters before
      exact ⟨u', .methodAnswered enters' before', hu⟩
  | @methodAnsweredAside fuel array method args word name v _ mid _ enters before =>
      obtain ⟨mid', u', enters', before', hu⟩ :=
        (eases_methodAnswered hfragile hnamed fuel array method args).exists_inside ht enters before
      exact ⟨u', .methodAnsweredAside enters' before', hu⟩

/-- A value that the first run shows at a place, the second one shows there too. -/
theorem Shows.eased {v : Value} (shows : Shows E.tight task t v u) (ht : E.Alike base t t') :
    ∃ u', Shows E.loose task t' v u' ∧ E.Alike base u u' := by
  have hheap : ∀ {u u' : State}, E.Alike base u u' → u'.heap = u.heap := by
    rintro u _ ⟨⟨trace, rfl⟩, -, -⟩
    rfl
  cases shows with
  | @print fuel value _ _ mid _ enters before =>
      obtain ⟨mid', u', enters', before', hu⟩ :=
        (eases_evaluate hfragile hnamed fuel value).exists_inside ht enters before
      exact ⟨u', .print enters' before', hu⟩
  | @joined fuel operator left right word l r _ _ mid _ enters before joins shown =>
      obtain ⟨mid', u', enters', before', hu⟩ :=
        (eases_operandsOf hfragile hnamed fuel operator left right).exists_inside ht enters before
      exact ⟨u', .joined enters' before' joins shown, hu⟩
  | @items fuel array method args address vs _ _ mid _ enters before shown =>
      obtain ⟨mid', u', enters', before', hu⟩ :=
        (eases_receiverOf hfragile hnamed fuel array method args).exists_inside ht enters before
      exact ⟨u', .items enters' before' (hheap hu ▸ shown), hu⟩
  | @itemsAside fuel array method args address vs _ _ mid _ enters before shown =>
      obtain ⟨mid', u', enters', before', hu⟩ :=
        (eases_receiverOf hfragile hnamed fuel array method args).exists_inside ht enters before
      exact ⟨u', .itemsAside enters' before' (hheap hu ▸ shown), hu⟩

end Places

end Run

end Sprig
