import Sprig.Proofs.Run.OpenCalls
import Sprig.Proofs.Run.Outward

/-!
# Calls and returns in a trace

Where calls are traced, the calls and returns of a run nest. A return always closes the latest call
that is open and has its name, and the program starts a statement only where no call is open. A run
that is done leaves no call open. A run that fails leaves open the calls that fail with it, from
those on whose lines were noted.

## Implementation notes

A call is split at its line: what it does in front of it may fail without a line, and behind it the
call is on top of the open ones until its return is noted. What is said of a step holds on top of
any open calls, so the calls around it need not be known.
-/

namespace Sprig

namespace Run

/-- A call whose arguments are there. -/
structure Called where
  /-- The name of the function. -/
  name : Scalar
  /-- The function. -/
  function : Function
  /-- The values of the arguments. -/
  args : List Value

/-- What a call does in front of its line: it finds the function and takes the arguments. -/
def called (fuel : Nat) (name args : Tree) : Run Called := do
  let name ← scalarPart name
  match ← read (·.functions.get? name) with
  | none => fail (.undefinedFunction name)
  | some function => return ⟨name, function, ← values (evaluate fuel) (← listPart args)⟩

/-- The line of a call. -/
def callLine (call : Called) : Run Unit :=
  note 1 (do return .calling call.name (← displayAll call.args))

/-- The line of a return, and the value that is returned. -/
def callReturn (call : Called) (v : Value) : Run Value := do
  note 1 (do return .returned call.name (← display v))
  return v

/-- What a call does behind its line: it runs the body of the function, puts the variables back and
returns. -/
def callBody (fuel : Nat) (call : Called) : Run Value := do
  let kept ← read (·.bindings)
  bindAll (← listPart call.function.params) call.args
  let completion ← block (execute fuel) (plain .none) (← listPart call.function.body)
  change fun s => { s with bindings := kept }
  callReturn call completion.value

theorem evaluate_call (fuel : Nat) (name args : Tree) :
    evaluate (fuel + 1) (.call name args) = nested .call (do
      let call ← called fuel name args
      callLine call
      callBody fuel call) := by
  rw [evaluate]
  congr 1
  simp only [called, bind_assoc]
  congr 1
  funext word
  congr 1
  funext function?
  cases function? with
  | none => rfl
  | some function =>
      simp only [callLine, callBody, callReturn, bind_assoc, pure_bind]

theorem calleeOf_eq (fuel : Nat) (name args : Tree) : calleeOf fuel name args = (do
    let call ← called fuel name args
    callLine call
    bindAll (← listPart call.function.params) call.args
    listPart call.function.body) := by
  simp only [calleeOf, called, bind_assoc]
  congr 1
  funext word
  congr 1
  funext function?
  cases function? with
  | none => rfl
  | some function => simp only [callLine, bind_assoc, pure_bind]

end Run

/-- Calls whose lines were noted and that fail, among the calls that a run comes to. -/
inductive OpenCall.IsActive (limits : Limits) (first : Task) (s : State) : OpenCall → Prop
  | intro {fuel word args t mid u v call fault}
      (comes : Run.Comes limits first s (.expression (.call word args)) t)
      (enters : t.Enters limits mid)
      (arrives : Run.called fuel word args limits mid = .done call u)
      (line : Run.callLine call limits u = .done () v)
      (fails : Run.FailsWith (Run.evaluate (fuel + 1) (.call word args)) limits fault t) :
      OpenCall.IsActive limits first s ⟨u.trace.size, call.name⟩

/-- Whether a step that is done closed some calls and left none of its own open, and a step that
stopped early left such calls open as are active. -/
def Outcome.Nests {α : Type} (limits : Limits) (first : Task) (s t : State)
    (closed : List OpenCall) : Outcome α → Prop
  | .done _ after => t.Leads after closed []
  | .failed _ after =>
    ∃ calls, t.Leads after [] calls ∧ ∀ call ∈ calls, call.IsActive limits first s
  | .outOfFuel after => ∃ calls, t.Leads after [] calls

namespace Run

variable {α β : Type} {limits : Limits} {first : Task} {s t u : State} {fuel : Nat}
  {closed : List OpenCall}

section Steps

theorem Quiet.nests {run : Run α} (h : Quiet run) :
    (run limits t).Nests limits first s t [] := by
  have hout := h limits t
  cases hrun : run limits t with
  | done v after => rwa [hrun] at hout
  | failed fault after => exact ⟨[], by rwa [hrun] at hout, by simp⟩
  | outOfFuel after => exact ⟨[], by rwa [hrun] at hout⟩

theorem leads_of_nests {run : Run α} {v : α} (h : (run limits t).Nests limits first s t closed)
    (hdone : run limits t = .done v u) : t.Leads u closed [] := by
  rwa [hdone] at h

/-- A quiet way to a step that nests. -/
theorem nests_of_leads {run : Run α} (h : t.Leads u [] [])
    (hrun : (run limits u).Nests limits first s u closed) :
    (run limits u).Nests limits first s t closed := by
  cases hout : run limits u with
  | done v after =>
      rw [hout] at hrun
      exact (h.frame closed).trans hrun
  | failed fault after =>
      rw [hout] at hrun
      obtain ⟨calls, hleads, hactive⟩ := hrun
      exact ⟨calls, h.trans hleads, hactive⟩
  | outOfFuel after =>
      rw [hout] at hrun
      obtain ⟨calls, hleads⟩ := hrun
      exact ⟨calls, h.trans hleads⟩

/-- One step after the other nests when both do. -/
theorem nests_bind {run : Run α} {next : α → Run β}
    (hrun : (run limits t).Nests limits first s t [])
    (hnext : ∀ v u, run limits t = .done v u → (next v limits u).Nests limits first s u closed) :
    ((run >>= next) limits t).Nests limits first s t closed := by
  rw [bind_apply]
  cases hout : run limits t with
  | done v u => exact nests_of_leads (leads_of_nests hrun hout) (hnext v u hout)
  | failed fault after =>
      rw [hout] at hrun
      exact hrun
  | outOfFuel after =>
      rw [hout] at hrun
      exact hrun

/-- A quiet step in front of another one. -/
theorem nests_next {run : Run α} {next : α → Run β} (h : Quiet run)
    (hnext : ∀ v u, run limits t = .done v u → (next v limits u).Nests limits first s u closed) :
    ((run >>= next) limits t).Nests limits first s t closed :=
  nests_bind h.nests hnext

/-- A node nests when its work does. -/
theorem nests_nested {kind : NodeKind} {work : Run α}
    (hwork : ∀ mid, t.Enters limits mid → (work limits mid).Nests limits first s mid closed) :
    (nested kind work limits t).Nests limits first s t closed := by
  rw [nested_apply]
  split
  · exact ⟨[], .of_trace rfl, by simp⟩
  · next hle =>
    have hinner := hwork { t with depth := t.depth + 1 } ⟨by omega, rfl⟩
    cases hout : work limits { t with depth := t.depth + 1 } with
    | done v after =>
        rw [hout] at hinner
        exact hinner
    | failed fault after =>
        rw [hout] at hinner
        exact hinner
    | outOfFuel after =>
        rw [hout] at hinner
        exact hinner

end Steps

section Lines

variable {call : Called}

/-- A line that is traced is noted unless its text is too deep. -/
theorem note_cases {level : Nat} (hlevel : level ≤ limits.traceLevel) {run : Run α}
    (event : α → Event)
    (h : (∃ a, run limits t = .done a t) ∨ run limits t = .failed .textTooDeep t) :
    (∃ a, note level (do return event (← run)) limits t =
      .done () { t with trace := t.trace.push (event a) }) ∨
    note level (do return event (← run)) limits t = .failed .textTooDeep t := by
  rw [note_of_le hlevel]
  rcases h with ⟨a, h⟩ | h
  · refine .inl ⟨a, ?_⟩
    simp only [bind_apply, h]
    rfl
  · refine .inr ?_
    simp only [bind_apply, h]

theorem callLine_cases (hlevel : 1 ≤ limits.traceLevel) (call : Called) (t : State) :
    (∃ texts, callLine call limits t =
      .done () { t with trace := t.trace.push (.calling call.name texts) }) ∨
    callLine call limits t = .failed .textTooDeep t := by
  refine note_cases hlevel _ ?_
  unfold displayAll
  split
  · exact .inl ⟨_, rfl⟩
  · exact .inr rfl

/-- The line of a call opens it. -/
theorem leads_of_callLine (hlevel : 1 ≤ limits.traceLevel)
    (h : callLine call limits t = .done () u) :
    t.Leads u [] [⟨t.trace.size, call.name⟩] := by
  rcases callLine_cases hlevel call t with ⟨texts, hline⟩ | hline
  · obtain ⟨-, rfl⟩ := Outcome.done.inj (hline.symm.trans h)
    exact State.leads_push fun _ => rfl
  · rw [hline] at h
    cases h

/-- The line of a return closes the call that is on top. -/
theorem nests_callReturn (hlevel : 1 ≤ limits.traceLevel) (v : Value) (place : Nat) :
    (callReturn call v limits t).Nests limits first s t [⟨place, call.name⟩] := by
  have hdisplay : (∃ text, display v limits t = .done text t) ∨
      display v limits t = .failed .textTooDeep t := by
    unfold display
    split
    · exact .inl ⟨_, rfl⟩
    · exact .inr rfl
  rcases note_cases hlevel (Event.returned call.name) hdisplay with ⟨text, hline⟩ | hline
  · rw [callReturn, bind_of_done hline]
    exact State.leads_push fun base => by simp [Event.opens]
  · rw [callReturn, bind_of_failed hline]
    exact ⟨[], .of_trace rfl, by simp⟩

/-- Behind its line a call is on top of the open ones until it returns, and if it fails it is one of
those that are left open. -/
theorem nests_callLine (hlevel : 1 ≤ limits.traceLevel) {next : Run β}
    (hnext : ∀ u, callLine call limits t = .done () u →
      (next limits u).Nests limits first s u [⟨t.trace.size, call.name⟩])
    (hactive : ∀ u fault after, callLine call limits t = .done () u →
      next limits u = .failed fault after →
        OpenCall.IsActive limits first s ⟨t.trace.size, call.name⟩) :
    ((do callLine call; next) limits t).Nests limits first s t [] := by
  rw [bind_apply]
  rcases callLine_cases hlevel call t with ⟨texts, hline⟩ | hline
  · have hopen := leads_of_callLine hlevel hline
    have hrest := hnext _ hline
    rw [hline]
    dsimp only
    generalize hu : ({ t with trace := t.trace.push (.calling call.name texts) } : State) = u at *
    cases hout : next limits u with
    | done v after =>
        rw [hout] at hrest
        exact hopen.trans hrest
    | failed fault after =>
        rw [hout] at hrest
        obtain ⟨calls, hleads, hcalls⟩ := hrest
        refine ⟨calls ++ [⟨t.trace.size, call.name⟩], hopen.trans (hleads.frame _), ?_⟩
        simp only [List.mem_append, List.mem_singleton]
        rintro _ (hcall | rfl)
        · exact hcalls _ hcall
        · exact hactive u fault after hline hout
    | outOfFuel after =>
        rw [hout] at hrest
        obtain ⟨calls, hleads⟩ := hrest
        exact ⟨calls ++ [⟨t.trace.size, call.name⟩], hopen.trans (hleads.frame _)⟩
  · rw [hline]
    exact ⟨[], .of_trace rfl, by simp⟩

end Lines

/-- Whether calls and returns nest, with some fuel, in all tasks that a run comes to. -/
structure Nestings (limits : Limits) (first : Task) (s : State) (fuel : Nat) : Prop where
  evaluate {tree : Tree} {t : State} (h : Comes limits first s (.expression tree) t) :
    (evaluate fuel tree limits t).Nests limits first s t []
  callMethod {array args : Tree} {t : State} (method : Tree)
    (h : ∀ trees u, argumentsOf array args limits t = .done trees u →
      Comes limits first s (.operands trees) u) :
    (callMethod fuel array method args limits t).Nests limits first s t []
  execute {tree : Tree} {t : State} (h : Comes limits first s (.statement tree) t) :
    (execute fuel tree limits t).Nests limits first s t []

section Sequences

variable (hc : Nestings limits first s fuel)
include hc

theorem Nestings.values {trees : List Tree} (h : Comes limits first s (.operands trees) t) :
    (Run.values (Run.evaluate fuel) trees limits t).Nests limits first s t [] := by
  induction trees generalizing t with
  | nil => exact (quiet_pure _).nests
  | cons tree trees ih =>
      refine nests_bind (hc.evaluate (h.next .operand)) fun v u hv => ?_
      refine nests_bind (ih (h.next (.operandRest hv))) fun vs w _ => ?_
      exact (quiet_pure _).nests

/-- A quiet step on the value of an operand. -/
theorem Nestings.operand {next : Value → Run α} {tree : Tree}
    (h : Comes limits first s (.operands [tree]) t) (hnext : ∀ v, Quiet (next v)) :
    ((Run.evaluate fuel tree >>= next) limits t).Nests limits first s t [] :=
  nests_bind (hc.evaluate (h.next .operand)) fun v _ _ => (hnext v).nests

theorem Nestings.operandPair {next : Value → Value → Run α} {left right : Tree}
    (h : Comes limits first s (.operands [left, right]) t) (hnext : ∀ l r, Quiet (next l r)) :
    ((do next (← Run.evaluate fuel left) (← Run.evaluate fuel right)) limits t).Nests
      limits first s t [] :=
  nests_bind (hc.evaluate (h.next .operand)) fun l _ hl =>
    hc.operand (h.next (.operandRest hl)) (hnext l)

theorem Nestings.block {trees : List Tree} (h : Comes limits first s (.block trees) t)
    (last : Completion) :
    (Run.block (Run.execute fuel) last trees limits t).Nests limits first s t [] := by
  induction trees generalizing t last with
  | nil => exact (quiet_pure _).nests
  | cons tree trees ih =>
      refine nests_bind (hc.execute (h.next .block)) fun last u hrun => ?_
      split
      · exact (quiet_pure _).nests
      · next hgoes => exact ih (h.next (.blockRest hrun (by simpa using hgoes))) last

theorem Nestings.test {event : String → Bool → Event} (hplain : ∀ text b, (event text b).IsPlain)
    {condition : Tree} (h : Comes limits first s (.expression condition) t) :
    (Run.test fuel event condition limits t).Nests limits first s t [] :=
  nests_bind (hc.evaluate h) fun v _ _ =>
    (quiet_bind (quiet_noteText 3 v (hplain · v.isTruthy)) fun _ => quiet_pure _).nests

theorem Nestings.loop {condition body : Tree} (h : Comes limits first s (.loop condition body) t)
    (rounds : Nat) (last : Completion) :
    (repeatWhile (Run.test fuel .loopTested condition)
      (do Run.block (Run.execute fuel) (plain .none) (← listPart body)) rounds last limits
      t).Nests limits first s t [] := by
  induction rounds generalizing t last with
  | zero => exact ⟨[], .of_trace rfl⟩
  | succ rounds ih =>
      have hplain : ∀ text b, (Event.loopTested text b).IsPlain := fun _ _ => trivial
      refine nests_bind (hc.test hplain (h.next .loopTest)) fun again u htest => ?_
      cases again with
      | false => exact (quiet_pure _).nests
      | true =>
          refine nests_bind ?_ fun last w hround => ?_
          · refine nests_next (quiet_listPart body) fun trees w hlist => ?_
            exact hc.block (h.next (.loopBody htest hlist)) _
          · split
            · exact (quiet_pure _).nests
            · next hgoes => exact ih (h.next (.loopAgain htest hround (by simpa using hgoes))) last

end Sequences

section Step

variable (hlevel : 1 ≤ limits.traceLevel) (hc : Nestings limits first s fuel)
include hc

theorem nests_called {name args : Tree} {mid : State}
    (h : Comes limits first s (.expression (.call name args)) t) (enters : t.Enters limits mid) :
    (called fuel name args limits mid).Nests limits first s mid [] := by
  refine nests_next (quiet_scalarPart name) fun word u hname => ?_
  refine nests_next (quiet_read _) fun function? v hread => ?_
  cases function? with
  | none => exact (quiet_fail _).nests
  | some function =>
      refine nests_next (quiet_listPart args) fun trees w hargs => ?_
      have hfound : expressionOperands (.call name args) limits mid = .done trees w := by
        simp only [expressionOperands, bind_apply, hname, hread, hargs]
      exact nests_bind (hc.values (h.next (.expression enters hfound))) fun vs _ _ =>
        (quiet_pure _).nests

include hlevel in
/-- Behind its line a call nests, and returns. -/
theorem nests_callBody {name args : Tree} {call : Called} {mid v : State} (place : Nat)
    (h : Comes limits first s (.expression (.call name args)) t) (enters : t.Enters limits mid)
    (harrives : called fuel name args limits mid = .done call u)
    (hline : callLine call limits u = .done () v) :
    (callBody fuel call limits v).Nests limits first s v [⟨place, call.name⟩] := by
  refine nests_next (quiet_read _) fun kept w hkept => ?_
  obtain rfl : v = w := (Outcome.done.inj hkept).2
  refine nests_next (quiet_listPart _) fun params x hparams => ?_
  refine nests_next (quiet_bindAll params call.args) fun _ y hbind => ?_
  refine nests_next (quiet_listPart _) fun body z hbody => ?_
  have hcallee : calleeOf fuel name args limits mid = .done body z := by
    simp only [calleeOf_eq, bind_apply, harrives, hline, hparams, hbind, hbody]
  refine nests_bind (hc.block (h.next (.callee enters hcallee)) _) fun last e _ => ?_
  exact nests_next (quiet_change fun _ => rfl) fun _ _ _ => nests_callReturn hlevel last.value place

include hlevel in
theorem nests_call {name args : Tree} (h : Comes limits first s (.expression (.call name args)) t) :
    (evaluate (fuel + 1) (.call name args) limits t).Nests limits first s t [] := by
  rw [evaluate_call]
  refine nests_nested fun mid enters => ?_
  refine nests_bind (nests_called hc h enters) fun call u harrives => ?_
  refine nests_callLine hlevel (fun v hline => ?_) fun v fault after hline hout => ?_
  · exact nests_callBody hlevel hc u.trace.size h enters harrives hline
  · have hfails : FailsIn after (evaluate (fuel + 1) (.call name args)) limits fault t := by
      rw [evaluate_call]
      exact .nested enters ⟨0, (bind_of_done harrives).trans ((bind_of_done hline).trans hout)⟩
    exact .intro h enters harrives hline (failsWith_iff.mpr ⟨after, hfails⟩)

theorem nests_callMethod {array args : Tree} (method : Tree)
    (h : ∀ trees u, argumentsOf array args limits t = .done trees u →
      Comes limits first s (.operands trees) u) :
    (callMethod (fuel + 1) array method args limits t).Nests limits first s t [] := by
  simp only [callMethod]
  refine nests_next (quiet_scalarPart array) fun word u hword => ?_
  refine nests_next (quiet_lookupArray word) fun address w haddress => ?_
  refine nests_next (quiet_listPart args) fun trees x hargs => ?_
  have hoperands : Comes limits first s (.operands trees) x :=
    h trees x (by simp only [argumentsOf, bind_apply, hword, haddress, hargs])
  refine nests_bind (hc.values hoperands) fun vs y _ => ?_
  refine nests_next (quiet_scalarPart method) fun name z _ => ?_
  refine nests_next (quiet_applyMethod address name vs) fun v _ _ => ?_
  exact nests_next (quiet_noteText 3 v fun _ => trivial) fun _ _ _ => (quiet_pure v).nests

include hlevel in
theorem nests_evaluate {tree : Tree} (h : Comes limits first s (.expression tree) t) :
    (evaluate (fuel + 1) tree limits t).Nests limits first s t [] := by
  cases tree with
  | number value | string value | boolean value =>
      simp only [evaluate]
      refine nests_nested fun mid enters => ?_
      exact (quiet_bind (quiet_scalarPart value) fun value => quiet_pure _).nests
  | «variable» name =>
      simp only [evaluate]
      refine nests_nested fun mid enters => ?_
      exact (quiet_bind (quiet_scalarPart name) fun name => quiet_lookup name).nests
  | unary operator operand =>
      simp only [evaluate]
      refine nests_nested fun mid enters => ?_
      refine hc.operand (h.next (.expression enters rfl)) fun v => ?_
      exact quiet_bind (quiet_scalarPart operator) fun operator => quiet_lift _
  | binary operator left right =>
      simp only [evaluate]
      refine nests_nested fun mid enters => ?_
      refine hc.operandPair (h.next (.expression enters rfl)) fun l r => ?_
      exact quiet_bind (quiet_scalarPart operator) fun operator => quiet_applyBinary operator l r
  | comparison operator left right =>
      simp only [evaluate]
      refine nests_nested fun mid enters => ?_
      refine hc.operandPair (h.next (.expression enters rfl)) fun l r => ?_
      exact quiet_bind (quiet_scalarPart operator) fun operator => quiet_lift _
  | arrayLiteral elements =>
      simp only [evaluate]
      refine nests_nested fun mid enters => ?_
      refine nests_next (quiet_listPart elements) fun trees u hlist => ?_
      refine nests_bind (hc.values (h.next (.expression enters hlist))) fun vs w _ => ?_
      exact (quiet_newArray _).nests
  | elementAccess array index =>
      simp only [evaluate]
      refine nests_nested fun mid enters => ?_
      refine nests_next (quiet_scalarPart array) fun word u hword => ?_
      refine nests_next (quiet_lookupArray word) fun address w haddress => ?_
      have hfound : expressionOperands (.elementAccess array index) limits mid =
          .done [index] w := by
        simp only [expressionOperands, bind_apply, hword, haddress, pure_apply]
      exact hc.operand (h.next (.expression enters hfound)) fun index =>
        quiet_elementAt address index
  | methodExpression array method args =>
      simp only [evaluate]
      refine nests_nested fun mid enters => ?_
      exact hc.callMethod method fun trees u hfound => h.next (.expression enters hfound)
  | arrayProperty array property =>
      simp only [evaluate]
      refine nests_nested fun mid enters => ?_
      exact (quiet_bind (quiet_scalarPart array) fun word =>
        quiet_bind (quiet_lookupArray word) fun address =>
          quiet_bind (quiet_scalarPart property) fun property =>
            quiet_applyProperty address property).nests
  | call name args => exact nests_call hlevel hc h
  | _ =>
      simp only [evaluate]
      exact (quiet_fail _).nests

theorem nests_ifStatement {condition ifBlock elseBlock : Tree}
    (h : Comes limits first s (.statement (.ifStatement condition ifBlock elseBlock)) t) :
    (execute (fuel + 1) (.ifStatement condition ifBlock elseBlock) limits t).Nests
      limits first s t [] := by
  simp only [execute]
  refine nests_nested fun mid enters => ?_
  have hcondition := h.next (.statement enters rfl)
  refine nests_bind (hc.evaluate (hcondition.next .operand)) fun v u hv => ?_
  refine nests_next (quiet_noteText 3 v fun _ => trivial) fun _ w hnote => ?_
  have htest : test fuel .branchTested condition limits mid = .done v.isTruthy w := by
    simp only [test, bind_apply, hv, hnote, pure_apply]
  have hblock : ∀ {trees : List Tree} {x : State},
      branchOf fuel condition ifBlock elseBlock limits mid = .done trees x →
      (Run.block (execute fuel) (plain .none) trees limits x).Nests limits first s x [] :=
    fun hbranch => hc.block (h.next (.branch enters hbranch)) _
  split
  · next htruthy =>
    refine nests_next (quiet_listPart ifBlock) fun trees x hlist => ?_
    refine hblock ?_
    simp only [branchOf, bind_apply, htest, htruthy, if_true, hlist]
  · next hfalsy =>
    split
    · exact (quiet_pure _).nests
    · next helse =>
      refine nests_next (quiet_listPart elseBlock) fun trees x hlist => ?_
      refine hblock ?_
      simp only [branchOf, bind_apply, htest, if_neg hfalsy, hlist]

theorem nests_execute {tree : Tree} (h : Comes limits first s (.statement tree) t) :
    (execute (fuel + 1) tree limits t).Nests limits first s t [] := by
  cases tree with
  | assignment name value =>
      simp only [execute]
      refine nests_nested fun mid enters => ?_
      refine hc.operand (h.next (.statement enters rfl)) fun v => ?_
      exact quiet_bind (quiet_scalarPart name) fun name => quiet_bind (quiet_assign name v)
        fun _ => quiet_bind (quiet_noteText 2 v fun _ => trivial) fun _ => quiet_pure _
  | print value =>
      simp only [execute]
      refine nests_nested fun mid enters => ?_
      refine hc.operand (h.next (.statement enters rfl)) fun v => ?_
      exact quiet_bind (quiet_display v) fun text => quiet_bind (quiet_printLine text)
        fun _ => quiet_pure _
  | expressionStatement expression =>
      simp only [execute]
      refine nests_nested fun mid enters => ?_
      exact hc.operand (h.next (.statement enters rfl)) fun v => quiet_pure _
  | ifStatement condition ifBlock elseBlock => exact nests_ifStatement hc h
  | whileStatement condition body =>
      simp only [execute]
      refine nests_nested fun mid enters => ?_
      exact hc.loop (h.next (.loop enters)) fuel _
  | elementAssignment array index value =>
      simp only [execute]
      refine nests_nested fun mid enters => ?_
      refine nests_next (quiet_scalarPart array) fun word u hword => ?_
      refine nests_next (quiet_lookupArray word) fun address w haddress => ?_
      have hfound : statementOperands (.elementAssignment array index value) limits mid =
          .done [index, value] w := by
        simp only [statementOperands, bind_apply, hword, haddress, pure_apply]
      refine hc.operandPair (h.next (.statement enters hfound)) fun i v => ?_
      have hset : Quiet (note 3 (do return .elementSet word (← display i) (← display v))) :=
        quiet_note 3 (tellsPlainly_bind (quiet_display i) fun _ =>
          tellsPlainly_bind (quiet_display v) fun _ => tellsPlainly_pure trivial)
      exact quiet_bind (quiet_setElement address i v) fun _ =>
        quiet_bind hset fun _ => quiet_pure _
  | methodCall array method args =>
      simp only [execute]
      refine nests_nested fun mid enters => ?_
      refine nests_bind (hc.callMethod method fun trees u hfound =>
        h.next (.statement enters hfound)) fun v u _ => ?_
      exact (quiet_pure _).nests
  | functionDeclaration name params body =>
      simp only [execute]
      refine nests_nested fun mid enters => ?_
      refine nests_next (quiet_scalarPart name) fun word u _ => ?_
      refine nests_next (quiet_change fun _ => rfl) fun _ w _ => ?_
      have htold : Quiet (note 2 (do return .defined word (← textParts (← listPart params)))) :=
        quiet_note 2 (tellsPlainly_bind (quiet_listPart params) fun trees =>
          tellsPlainly_bind (quiet_textParts trees) fun _ => tellsPlainly_pure trivial)
      exact (quiet_bind htold fun _ => quiet_pure _).nests
  | returnStatement value =>
      simp only [execute]
      refine nests_nested fun mid enters => ?_
      split
      · exact (quiet_pure _).nests
      · next hvalue =>
        have hfound : statementOperands (.returnStatement value) limits mid =
            .done [value] mid := by
          simp only [statementOperands, pure_apply]
        exact hc.operand (h.next (.statement enters hfound)) fun v => quiet_pure _
  | _ =>
      simp only [execute]
      exact (quiet_fail _).nests

end Step

/-- Whatever task a run comes to, the calls and returns of the task nest. -/
theorem nestings_of_fuel (hlevel : 1 ≤ limits.traceLevel) (first : Task) (s : State) (fuel : Nat) :
    Nestings limits first s fuel := by
  induction fuel with
  | zero =>
      constructor
      · intro tree t _
        rw [evaluate_zero]
        exact ⟨[], .of_trace rfl⟩
      · intro array args t method _
        rw [callMethod]
        exact ⟨[], .of_trace rfl⟩
      · intro tree t _
        rw [execute_zero]
        exact ⟨[], .of_trace rfl⟩
  | succ fuel ih =>
      constructor
      · exact nests_evaluate hlevel ih
      · exact nests_callMethod ih
      · exact nests_execute ih

end Run

end Sprig
