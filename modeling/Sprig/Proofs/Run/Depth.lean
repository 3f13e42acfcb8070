import Sprig.Proofs.Run.Easing
import Sprig.Proofs.Run.Origin
import Sprig.Proofs.Run.Steady

/-!
# The account of the depth

However a node is left, the depth is again what it was when the run came to it. A run fails because
of the depth only at a node that is one too many, and tells the kind of that node. The functions at
any point are those that were there at the start, and those of declarations that stand in what the
run began with.

## Implementation notes

What is said of a step is said from the state in which the run comes to it, with the points that the
run has come to as the only knowledge of how it came there.
-/

namespace Sprig

/-- Whether the nodes of a kind are statements. -/
def NodeKind.isStatement : NodeKind → Bool
  | .assignment | .print | .expressionStatement | .ifStatement | .whileStatement
  | .elementAssignment | .methodCall | .functionDeclaration | .returnStatement => true
  | _ => false

/-- The kind of the node that a task works on, if nodes of its kind belong there. -/
def Task.kind? : Task → Option NodeKind
  | .statement tree => (tree.node?.map (·.1)).filter (·.isStatement)
  | .expression tree => (tree.node?.map (·.1)).filter (!·.isStatement)
  | _ => none

namespace Run

/-- Whether a run comes to a node of a kind that is one more than the limit allows. -/
def Refuses (limits : Limits) (first : Task) (s : State) (kind : NodeKind) : Prop :=
  ∃ task t, Comes limits first s task t ∧ task.kind? = some kind ∧
    limits.depth < (t.depth : Int) + 1

end Run

/-- Whether a step ended at the depth at which it started, in a state that a run may come to, or
with a fault that tells of no node but one that the run refuses. -/
def Outcome.Accounted {α : Type} (limits : Limits) (first : Task) (s t : State) : Outcome α → Prop
  | .done _ after => after.depth = t.depth ∧ Run.Declared first s after
  | .failed fault after => after.depth = t.depth ∧ ∀ limit kind,
      fault = .depthExceeded limit kind → limit = limits.depth ∧ Run.Refuses limits first s kind
  | .outOfFuel _ => True

namespace Run

variable {α β : Type} {limits : Limits} {first : Task} {s t : State} {fuel : Nat}

section Steps

theorem Steady.accounted {run : Run α} (h : Steady run) (ht : Declared first s t) :
    (run limits t).Accounted limits first s t := by
  have hout := h limits t
  cases hrun : run limits t with
  | done v after =>
      rw [hrun] at hout
      refine ⟨hout.1, fun name f hf => ?_⟩
      rw [hout.2] at hf
      exact ht name f hf
  | failed fault after =>
      rw [hrun] at hout
      refine ⟨hout.1, ?_⟩
      rintro limit kind rfl
      exact hout.2.elim
  | outOfFuel after => trivial

/-- A step that is accounted for leaves the depth as it was once it is done. -/
theorem of_accounted {run : Run α} {v : α} {u : State}
    (h : (run limits t).Accounted limits first s t) (hdone : run limits t = .done v u) :
    u.depth = t.depth ∧ Declared first s u := by
  rw [hdone] at h
  exact h

theorem accounted_fail {fault : Fault} (h : fault.IsShallow) :
    ((fail fault : Run α) limits t).Accounted limits first s t := by
  refine ⟨rfl, ?_⟩
  rintro limit kind rfl
  exact h.elim

/-- One step after the other is accounted for when both are. -/
theorem accounted_bind {run : Run α} {next : α → Run β}
    (hrun : (run limits t).Accounted limits first s t)
    (hnext : ∀ v u, run limits t = .done v u → Declared first s u →
      (next v limits u).Accounted limits first s u) :
    ((run >>= next) limits t).Accounted limits first s t := by
  rw [bind_apply]
  cases hout : run limits t with
  | done v u =>
      rw [hout] at hrun
      obtain ⟨hdepth, hu⟩ := hrun
      have hlater := hnext v u hout hu
      dsimp only
      cases hrest : next v limits u with
      | done w after =>
          rw [hrest] at hlater
          exact ⟨hlater.1.trans hdepth, hlater.2⟩
      | failed fault after =>
          rw [hrest] at hlater
          exact ⟨hlater.1.trans hdepth, hlater.2⟩
      | outOfFuel after => trivial
  | failed fault after =>
      rw [hout] at hrun
      exact hrun
  | outOfFuel after => trivial

/-- A steady step in front of another one. -/
theorem accounted_next {run : Run α} {next : α → Run β} (h : Steady run)
    (ht : Declared first s t)
    (hnext : ∀ v u, run limits t = .done v u → Declared first s u →
      (next v limits u).Accounted limits first s u) :
    ((run >>= next) limits t).Accounted limits first s t :=
  accounted_bind (h.accounted ht) hnext

theorem Arrives.refuses {task : Task} {kind : NodeKind} (h : Arrives limits first s task t)
    (hkind : task.kind? = some kind) (hlt : limits.depth < (t.depth : Int) + 1) :
    Refuses limits first s kind := ⟨task, t, h.comes, hkind, hlt⟩

/-- A node is accounted for when its work is, and when it is refused only as the run refuses it. -/
theorem accounted_nested {kind : NodeKind} {work : Run α}
    (hrefuses : limits.depth < (t.depth : Int) + 1 → Refuses limits first s kind)
    (hwork : (t.depth : Int) + 1 ≤ limits.depth →
      (work limits { t with depth := t.depth + 1 }).Accounted limits first s
        { t with depth := t.depth + 1 }) :
    (nested kind work limits t).Accounted limits first s t := by
  rw [nested_apply]
  split
  · next hlt =>
    refine ⟨rfl, ?_⟩
    rintro limit _ ⟨⟩
    exact ⟨rfl, hrefuses hlt⟩
  · next hle =>
    have hinner := hwork (by omega)
    cases hout : work limits { t with depth := t.depth + 1 } with
    | done v after =>
        rw [hout] at hinner
        exact ⟨by simp [hinner.1], hinner.2⟩
    | failed fault after =>
        rw [hout] at hinner
        exact ⟨by simp [hinner.1], hinner.2⟩
    | outOfFuel after => trivial

/-- Work on a node whose parts are no work of the interpreter. -/
theorem Steady.accounted_nested {kind : NodeKind} {work : Run α} (h : Steady work)
    (hrefuses : limits.depth < (t.depth : Int) + 1 → Refuses limits first s kind)
    (ht : Declared first s t) : (nested kind work limits t).Accounted limits first s t :=
  Run.accounted_nested hrefuses fun _ => h.accounted ht

theorem accounted_declare {name : Scalar} {word params body : Tree}
    (h : Arrives limits first s (.statement (.functionDeclaration word params body)) t)
    {u : State} (hu : Declared first s u) :
    (change (fun s => { s with functions := s.functions.set name ⟨params, body⟩ }) limits
      u).Accounted limits first s u := by
  refine ⟨rfl, fun other f hf => ?_⟩
  rw [Table.get?_set] at hf
  split at hf
  · obtain rfl := Option.some.inj hf
    exact .inr ⟨word, h.stems _ (.head _) _ .self _ _ _ rfl⟩
  · exact hu other f hf

end Steps

/-- Whether the depth is accounted for, with some fuel, on all tasks that a run comes to. -/
structure Accounts (limits : Limits) (first : Task) (s : State) (fuel : Nat) : Prop where
  evaluate {tree : Tree} {t : State} (h : Arrives limits first s (.expression tree) t)
    (ht : Declared first s t) : (evaluate fuel tree limits t).Accounted limits first s t
  callMethod {array args : Tree} {t : State} (method : Tree)
    (h : ∀ trees u, argumentsOf array args limits t = .done trees u →
      Arrives limits first s (.operands trees) u)
    (ht : Declared first s t) :
    (callMethod fuel array method args limits t).Accounted limits first s t
  execute {tree : Tree} {t : State} (h : Arrives limits first s (.statement tree) t)
    (ht : Declared first s t) : (execute fuel tree limits t).Accounted limits first s t

section Sequences

variable (hc : Accounts limits first s fuel)
include hc

theorem Accounts.values {trees : List Tree} (h : Arrives limits first s (.operands trees) t)
    (ht : Declared first s t) :
    (Run.values (Run.evaluate fuel) trees limits t).Accounted limits first s t := by
  induction trees generalizing t with
  | nil => exact ⟨rfl, ht⟩
  | cons tree trees ih =>
      refine accounted_bind (hc.evaluate (h.next ht .operand) ht) fun v u hv hu => ?_
      refine accounted_bind (ih (h.next ht (.operandRest hv)) hu) fun vs w _ hw => ?_
      exact ⟨rfl, hw⟩

/-- A steady step on the value of an operand. -/
theorem Accounts.operand {next : Value → Run α} {tree : Tree}
    (h : Arrives limits first s (.operands [tree]) t) (ht : Declared first s t)
    (hnext : ∀ v, Steady (next v)) :
    ((Run.evaluate fuel tree >>= next) limits t).Accounted limits first s t :=
  accounted_bind (hc.evaluate (h.next ht .operand) ht) fun v _ _ hu => (hnext v).accounted hu

theorem Accounts.operandPair {next : Value → Value → Run α} {left right : Tree}
    (h : Arrives limits first s (.operands [left, right]) t) (ht : Declared first s t)
    (hnext : ∀ l r, Steady (next l r)) :
    ((do next (← Run.evaluate fuel left) (← Run.evaluate fuel right)) limits t).Accounted
      limits first s t :=
  accounted_bind (hc.evaluate (h.next ht .operand) ht) fun l _ hl hu =>
    hc.operand (h.next ht (.operandRest hl)) hu (hnext l)

theorem Accounts.block {trees : List Tree} (h : Arrives limits first s (.block trees) t)
    (ht : Declared first s t) (last : Completion) :
    (Run.block (Run.execute fuel) last trees limits t).Accounted limits first s t := by
  induction trees generalizing t last with
  | nil => exact ⟨rfl, ht⟩
  | cons tree trees ih =>
      refine accounted_bind (hc.execute (h.next ht .block) ht) fun last u hrun hu => ?_
      split
      · exact ⟨rfl, hu⟩
      · next hgoes => exact ih (h.next ht (.blockRest hrun (by simpa using hgoes))) hu last

theorem Accounts.test (event : String → Bool → Event) {condition : Tree}
    (h : Arrives limits first s (.expression condition) t) (ht : Declared first s t) :
    (Run.test fuel event condition limits t).Accounted limits first s t :=
  accounted_bind (hc.evaluate h ht) fun v _ _ hu =>
    (steady_bind (steady_noteText 3 v _) fun _ => steady_pure _).accounted hu

theorem Accounts.loop {condition body : Tree} (h : Arrives limits first s (.loop condition body) t)
    (ht : Declared first s t) (rounds : Nat) (last : Completion) :
    (repeatWhile (Run.test fuel .loopTested condition)
      (do Run.block (Run.execute fuel) (plain .none) (← listPart body)) rounds last limits
      t).Accounted limits first s t := by
  induction rounds generalizing t last with
  | zero => trivial
  | succ rounds ih =>
      refine accounted_bind (hc.test _ (h.next ht .loopTest) ht) fun again u htest hu => ?_
      cases again with
      | false => exact ⟨rfl, hu⟩
      | true =>
          refine accounted_bind ?_ fun last w hround hw => ?_
          · refine accounted_next (steady_listPart body) hu fun trees w hlist hw => ?_
            exact hc.block (h.next ht (.loopBody htest hlist)) hw _
          · split
            · exact ⟨rfl, hw⟩
            · next hgoes =>
              exact ih (h.next ht (.loopAgain htest hround (by simpa using hgoes))) hw last

end Sequences

section Step

variable (hc : Accounts limits first s fuel)
include hc

theorem accounted_call {name args : Tree} (h : Arrives limits first s (.expression (.call name args)) t)
    (ht : Declared first s t) :
    (evaluate (fuel + 1) (.call name args) limits t).Accounted limits first s t := by
  simp only [evaluate]
  refine accounted_nested (h.refuses rfl) fun hle => ?_
  refine accounted_next (steady_scalarPart name) ht fun word u hname hu => ?_
  refine accounted_next (steady_read _) hu fun function? u hread hu => ?_
  cases function? with
  | none => exact accounted_fail trivial
  | some function =>
      refine accounted_next (steady_listPart args) hu fun trees w hargs hw => ?_
      have hfound : expressionOperands (.call name args) limits { t with depth := t.depth + 1 } =
          .done trees w := by
        simp only [expressionOperands, bind_apply, hname, hread, hargs]
      have hoperands : Arrives limits first s (.operands trees) w :=
        h.next ht (.expression ⟨hle, rfl⟩ hfound)
      refine accounted_bind (hc.values hoperands hw) fun vs x hvs hx => ?_
      have hcalling : Steady (note 1 (do return .calling word (← displayAll vs))) :=
        steady_note 1 (steady_bind (steady_displayAll vs) fun _ => steady_pure _)
      refine accounted_next hcalling hx fun _ y hnote hy => ?_
      refine accounted_next (steady_read _) hy fun kept z hkept hz => ?_
      obtain rfl : y = z := (Outcome.done.inj hkept).2
      refine accounted_next (steady_listPart function.params) hz fun params b hparams hb => ?_
      refine accounted_next (steady_bindAll params vs) hb fun _ c hbind hbound => ?_
      refine accounted_next (steady_listPart function.body) hbound fun body d hbody hd => ?_
      have hcallee : calleeOf fuel name args limits { t with depth := t.depth + 1 } =
          .done body d := by
        simp only [calleeOf, bind_apply, hname, hread, hargs, hvs, hnote, hparams, hbind, hbody]
      refine accounted_bind (hc.block (h.next ht (.callee ⟨hle, rfl⟩ hcallee)) hd _)
        fun last e _ he => ?_
      refine accounted_next (steady_change (fun _ => rfl) fun _ => rfl) he fun _ g _ hg => ?_
      exact (steady_bind (steady_noteText 1 last.value _) fun _ => steady_pure _).accounted hg

theorem accounted_callMethod {array args : Tree} (method : Tree)
    (h : ∀ trees u, argumentsOf array args limits t = .done trees u →
      Arrives limits first s (.operands trees) u) (ht : Declared first s t) :
    (callMethod (fuel + 1) array method args limits t).Accounted limits first s t := by
  simp only [callMethod]
  refine accounted_next (steady_scalarPart array) ht fun word u hword hu => ?_
  refine accounted_next (steady_lookupArray word) hu fun address w haddress hw => ?_
  refine accounted_next (steady_listPart args) hw fun trees x hargs hx => ?_
  have hoperands : Arrives limits first s (.operands trees) x :=
    h trees x (by simp only [argumentsOf, bind_apply, hword, haddress, hargs])
  refine accounted_bind (hc.values hoperands hx) fun vs y _ hy => ?_
  refine accounted_next (steady_scalarPart method) hy fun name z _ hz => ?_
  exact (steady_bind (steady_applyMethod address name vs) fun v =>
    steady_bind (steady_noteText 3 v _) fun _ => steady_pure v).accounted hz

theorem accounted_evaluate {tree : Tree} (h : Arrives limits first s (.expression tree) t)
    (ht : Declared first s t) :
    (evaluate (fuel + 1) tree limits t).Accounted limits first s t := by
  cases tree with
  | number value | string value | boolean value =>
      simp only [evaluate]
      exact (steady_bind (steady_scalarPart value) fun value =>
        steady_pure _).accounted_nested (h.refuses rfl) ht
  | «variable» name =>
      simp only [evaluate]
      exact (steady_bind (steady_scalarPart name) fun name =>
        steady_lookup name).accounted_nested (h.refuses rfl) ht
  | unary operator operand =>
      simp only [evaluate]
      refine accounted_nested (h.refuses rfl) fun hle => ?_
      refine hc.operand (h.next ht (.expression ⟨hle, rfl⟩ rfl)) ht fun v => ?_
      exact steady_bind (steady_scalarPart operator) fun operator => steady_applyUnary operator v
  | binary operator left right =>
      simp only [evaluate]
      refine accounted_nested (h.refuses rfl) fun hle => ?_
      refine hc.operandPair (h.next ht (.expression ⟨hle, rfl⟩ rfl)) ht fun l r => ?_
      exact steady_bind (steady_scalarPart operator) fun operator => steady_applyBinary operator l r
  | comparison operator left right =>
      simp only [evaluate]
      refine accounted_nested (h.refuses rfl) fun hle => ?_
      refine hc.operandPair (h.next ht (.expression ⟨hle, rfl⟩ rfl)) ht fun l r => ?_
      exact steady_bind (steady_scalarPart operator) fun operator =>
        steady_applyComparison operator l r
  | arrayLiteral elements =>
      simp only [evaluate]
      refine accounted_nested (h.refuses rfl) fun hle => ?_
      refine accounted_next (steady_listPart elements) ht fun trees u hlist hu => ?_
      refine accounted_bind (hc.values (h.next ht (.expression ⟨hle, rfl⟩ hlist)) hu)
        fun vs w _ hw => ?_
      exact (steady_newArray _).accounted hw
  | elementAccess array index =>
      simp only [evaluate]
      refine accounted_nested (h.refuses rfl) fun hle => ?_
      refine accounted_next (steady_scalarPart array) ht fun word u hword hu => ?_
      refine accounted_next (steady_lookupArray word) hu fun address w haddress hw => ?_
      have hfound : expressionOperands (.elementAccess array index) limits
          { t with depth := t.depth + 1 } = .done [index] w := by
        simp only [expressionOperands, bind_apply, hword, haddress, pure_apply]
      exact hc.operand (h.next ht (.expression ⟨hle, rfl⟩ hfound)) hw fun index =>
        steady_elementAt address index
  | methodExpression array method args =>
      simp only [evaluate]
      refine accounted_nested (h.refuses rfl) fun hle => ?_
      exact hc.callMethod method (fun trees u hfound =>
        h.next ht (.expression ⟨hle, rfl⟩ hfound)) ht
  | arrayProperty array property =>
      simp only [evaluate]
      exact (steady_bind (steady_scalarPart array) fun word =>
        steady_bind (steady_lookupArray word) fun address =>
          steady_bind (steady_scalarPart property) fun property =>
            steady_applyProperty address property).accounted_nested (h.refuses rfl) ht
  | call name args => exact accounted_call hc h ht
  | _ =>
      simp only [evaluate]
      exact accounted_fail trivial

theorem accounted_ifStatement {condition ifBlock elseBlock : Tree}
    (h : Arrives limits first s (.statement (.ifStatement condition ifBlock elseBlock)) t)
    (ht : Declared first s t) :
    (execute (fuel + 1) (.ifStatement condition ifBlock elseBlock) limits t).Accounted
      limits first s t := by
  simp only [execute]
  refine accounted_nested (h.refuses rfl) fun hle => ?_
  have hcondition := h.next ht (.statement ⟨hle, rfl⟩ rfl)
  refine accounted_bind (hc.evaluate (hcondition.next ht .operand) ht) fun v u hv hu => ?_
  refine accounted_next (steady_noteText 3 v _) hu fun _ w hnote hw => ?_
  have htest : test fuel .branchTested condition limits { t with depth := t.depth + 1 } =
      .done v.isTruthy w := by
    simp only [test, bind_apply, hv, hnote, pure_apply]
  have hblock : ∀ {trees : List Tree} {x : State},
      branchOf fuel condition ifBlock elseBlock limits { t with depth := t.depth + 1 } =
        .done trees x → Declared first s x →
      (Run.block (execute fuel) (plain .none) trees limits x).Accounted limits first s x :=
    fun hbranch hx => hc.block (h.next ht (.branch ⟨hle, rfl⟩ hbranch)) hx _
  split
  · next htruthy =>
    refine accounted_next (steady_listPart ifBlock) hw fun trees x hlist hx => ?_
    refine hblock ?_ hx
    simp only [branchOf, bind_apply, htest, htruthy, if_true, hlist]
  · next hfalsy =>
    split
    · exact ⟨rfl, hw⟩
    · next helse =>
      refine accounted_next (steady_listPart elseBlock) hw fun trees x hlist hx => ?_
      refine hblock ?_ hx
      simp only [branchOf, bind_apply, htest, if_neg hfalsy, hlist]

theorem accounted_execute {tree : Tree} (h : Arrives limits first s (.statement tree) t)
    (ht : Declared first s t) :
    (execute (fuel + 1) tree limits t).Accounted limits first s t := by
  cases tree with
  | assignment name value =>
      simp only [execute]
      refine accounted_nested (h.refuses rfl) fun hle => ?_
      refine hc.operand (h.next ht (.statement ⟨hle, rfl⟩ rfl)) ht fun v => ?_
      exact steady_bind (steady_scalarPart name) fun name => steady_bind (steady_assign name v)
        fun _ => steady_bind (steady_noteText 2 v _) fun _ => steady_pure _
  | print value =>
      simp only [execute]
      refine accounted_nested (h.refuses rfl) fun hle => ?_
      refine hc.operand (h.next ht (.statement ⟨hle, rfl⟩ rfl)) ht fun v => ?_
      exact steady_bind (steady_display v) fun text => steady_bind (steady_printLine text)
        fun _ => steady_pure _
  | expressionStatement expression =>
      simp only [execute]
      refine accounted_nested (h.refuses rfl) fun hle => ?_
      exact hc.operand (h.next ht (.statement ⟨hle, rfl⟩ rfl)) ht fun v => steady_pure _
  | ifStatement condition ifBlock elseBlock => exact accounted_ifStatement hc h ht
  | whileStatement condition body =>
      simp only [execute]
      refine accounted_nested (h.refuses rfl) fun hle => ?_
      exact hc.loop (h.next ht (.loop ⟨hle, rfl⟩)) ht fuel _
  | elementAssignment array index value =>
      simp only [execute]
      refine accounted_nested (h.refuses rfl) fun hle => ?_
      refine accounted_next (steady_scalarPart array) ht fun word u hword hu => ?_
      refine accounted_next (steady_lookupArray word) hu fun address w haddress hw => ?_
      have hfound : statementOperands (.elementAssignment array index value) limits
          { t with depth := t.depth + 1 } = .done [index, value] w := by
        simp only [statementOperands, bind_apply, hword, haddress, pure_apply]
      refine hc.operandPair (h.next ht (.statement ⟨hle, rfl⟩ hfound)) hw fun i v => ?_
      have hset : Steady (note 3 (do return .elementSet word (← display i) (← display v))) :=
        steady_note 3 (steady_bind (steady_display i) fun _ =>
          steady_bind (steady_display v) fun _ => steady_pure _)
      exact steady_bind (steady_setElement address i v) fun _ =>
        steady_bind hset fun _ => steady_pure _
  | methodCall array method args =>
      simp only [execute]
      refine accounted_nested (h.refuses rfl) fun hle => ?_
      refine accounted_bind (hc.callMethod method (fun trees u hfound =>
        h.next ht (.statement ⟨hle, rfl⟩ hfound)) ht) fun v u _ hu => ?_
      exact ⟨rfl, hu⟩
  | functionDeclaration name params body =>
      simp only [execute]
      refine accounted_nested (h.refuses rfl) fun hle => ?_
      refine accounted_next (steady_scalarPart name) ht fun word u _ hu => ?_
      refine accounted_bind (accounted_declare h hu) fun _ w _ hw => ?_
      have htold : Steady (note 2 (do return .defined word (← textParts (← listPart params)))) :=
        steady_note 2 (steady_bind (steady_listPart params) fun trees =>
          steady_bind (steady_textParts trees) fun _ => steady_pure _)
      exact (steady_bind htold fun _ => steady_pure _).accounted hw
  | returnStatement value =>
      simp only [execute]
      refine accounted_nested (h.refuses rfl) fun hle => ?_
      split
      · exact ⟨rfl, ht⟩
      · next hvalue =>
        have hfound : statementOperands (.returnStatement value) limits
            { t with depth := t.depth + 1 } = .done [value] { t with depth := t.depth + 1 } := by
          simp only [statementOperands, pure_apply]
        exact hc.operand (h.next ht (.statement ⟨hle, rfl⟩ hfound)) ht fun v => steady_pure _
  | _ =>
      simp only [execute]
      exact accounted_fail trivial

end Step

theorem accounts_of_fuel (limits : Limits) (first : Task) (s : State) (fuel : Nat) :
    Accounts limits first s fuel := by
  induction fuel with
  | zero =>
      constructor
      · intro tree t _ _
        rw [evaluate_zero]
        trivial
      · intro array args t method _ _
        rw [callMethod]
        trivial
      · intro tree t _ _
        rw [execute_zero]
        trivial
  | succ fuel ih =>
      constructor
      · exact accounted_evaluate ih
      · exact accounted_callMethod ih
      · exact accounted_execute ih

end Run

end Sprig
