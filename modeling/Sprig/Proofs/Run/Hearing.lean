import Sprig.Proofs.Run.Noting

/-!
# Runs that differ in their trace levels

Two runs of the same work whose limits differ in their trace levels alone go side by side until the
first one stops at an event that it alone notes, because the event cannot be made. Nothing else that
stops a run stops only one of the two.

## Implementation notes

What is said of a step is said from the states in which the two runs come to it, with the points
that the first run has come to as the only knowledge of how it came there. The limits are eased here
without leave to stop at an event, so that whatever notes nothing ends alike in both runs.
-/

namespace Sprig

/-- Whether the limits of two runs differ in their trace levels alone, and no event is said to stop
the first run. -/
structure Easing.Hushes (E : Easing) : Prop where
  depth_eq : E.tight.depth = E.loose.depth
  not_fragile : ¬E.fragile
  not_named : ¬E.named
  not_spare : ¬E.spare

theorem Easing.Hushes.not_stops {E : Easing} (h : E.Hushes) {heap : Heap} {fault : Fault} :
    ¬E.Stops heap fault := by
  intro hstops
  have hdepth := h.depth_eq
  cases hstops with
  | depthExceeded kind hlt => omega
  | textTooDeep _ hcause =>
      rcases hcause with hlt | ⟨hfragile, -⟩
      · omega
      · exact h.not_fragile hfragile
  | misshapen hfragile => exact h.not_fragile hfragile

namespace Run

/-- Whether a run comes to a place, in a state there, at which an event is noted if the trace
reaches its level. -/
def Faces (limits : Limits) (first : Task) (s : State) (draft : Draft) (t : State) : Prop :=
  ∃ task u, Comes limits first s task u ∧ Notes limits task u draft t

/-- Whether a run stops at an event above a level, since the event cannot be made. -/
structure StopsAt (limits : Limits) (level : Nat) (first : Task) (s : State) (draft : Draft)
    (fault : Fault) (t : State) : Prop where
  faces : Faces limits first s draft t
  above : level < draft.level
  noted : draft.level ≤ limits.traceLevel
  fails : draft.event limits t = .failed fault t

end Run

/-- Whether two steps ended as eased limits have it, or the first one stopped at an event that it
alone notes. -/
def Outcome.Heard {α : Type} (E : Easing) (base : List Event) (first : Task) (s : State)
    (outcome other : Outcome α) : Prop :=
  outcome.Coupled (E.coupling base) Eq other ∨
    ∃ draft fault t levels, Run.StopsAt E.tight E.loose.traceLevel first s draft fault t ∧
      outcome = .failed fault (t.outOf levels)

namespace Run

variable {E : Easing} {base : List Event} {first : Task} {α β : Type} {s t t' : State} {fuel : Nat}

/-- Whether a step ends alike in both runs, from the states to which they come, or the first run
stops there at an event that it alone notes. -/
def Hears (E : Easing) (base : List Event) (first : Task) (s : State) (run : Run α)
    (t t' : State) : Prop := (run E.tight t).Heard E base first s (run E.loose t')

section Steps

theorem Eases.hears {run : Run α} (h : Eases E base run) (ht : E.Alike base t t') :
    Hears E base first s run t t' := .inl (h.together ht)

theorem hears_pure (v : α) (ht : E.Alike base t t') : Hears E base first s (pure v) t t' :=
  Eases.hears (couples_pure rfl) ht

variable (hE : E.Hushes)
include hE

/-- One step after the other ends alike when both do. -/
theorem hears_bind {run : Run α} {next : α → Run β} (h : Hears E base first s run t t')
    (hnext : ∀ v u u', run E.tight t = .done v u → E.Alike base u u' →
      Hears E base first s (next v) u u') : Hears E base first s (run >>= next) t t' := by
  rcases h with hcoupled | ⟨draft, fault, u, levels, hstops, hfailed⟩
  · unfold Hears
    rw [bind_apply, bind_apply]
    generalize hrun : run E.tight t = outcome at hcoupled ⊢
    generalize run E.loose t' = other at hcoupled ⊢
    cases hcoupled with
    | done values states =>
        obtain rfl : _ = _ := values
        exact hnext _ _ _ hrun states
    | failed faults states => exact .inl (.failed faults states)
    | outOfFuel states => exact .inl (.outOfFuel states)
    | early ends => exact absurd ends.after.stops hE.not_stops
    | spare hspare => exact absurd hspare hE.not_spare
  · exact .inr ⟨draft, fault, u, levels, hstops, bind_of_failed hfailed⟩

/-- A step that notes nothing, in front of another one. -/
theorem hears_next {run : Run α} {next : α → Run β} (h : Eases E base run) (ht : E.Alike base t t')
    (hnext : ∀ v u u', run E.tight t = .done v u → E.Alike base u u' →
      Hears E base first s (next v) u u') : Hears E base first s (run >>= next) t t' :=
  hears_bind hE (h.hears ht) hnext

/-- A node ends alike when its work does. -/
theorem hears_nested {kind : NodeKind} {work : Run α} (ht : E.Alike base t t')
    (hwork : ∀ mid mid', t.Enters E.tight mid → E.Alike base mid mid' →
      Hears E base first s work mid mid') : Hears E base first s (nested kind work) t t' := by
  have hdepth := hE.depth_eq
  unfold Hears
  rw [nested_apply, nested_apply]
  by_cases htight : E.tight.depth < (t.depth : Int) + 1
  · have hloose : E.loose.depth < (t'.depth : Int) + 1 := by
      obtain ⟨⟨trace, rfl⟩, -, -⟩ := ht
      exact hdepth ▸ htight
    rw [if_pos htight, if_pos hloose, hdepth]
    exact .inl (.failed rfl ht)
  · have hloose : ¬E.loose.depth < (t'.depth : Int) + 1 := by
      obtain ⟨⟨trace, rfl⟩, -, -⟩ := ht
      exact hdepth ▸ htight
    have hmid : E.Alike base { t with depth := t.depth + 1 } { t' with depth := t'.depth + 1 } := by
      obtain ⟨⟨trace, rfl⟩, named, traces⟩ := ht
      exact ⟨⟨trace, rfl⟩, named, traces⟩
    rw [if_neg htight, if_neg hloose]
    rcases hwork _ _ ⟨by omega, rfl⟩ hmid with hcoupled | ⟨draft, fault, u, levels, hstops, hfailed⟩
    · exact .inl (coupled_leave hcoupled)
    · refine .inr ⟨draft, fault, u, levels + 1, hstops, ?_⟩
      rw [hfailed, State.outOf_succ]
      rfl

omit hE in
/-- An event is noted alike, or the first run stops at it. -/
theorem hears_note (draft : Draft) (ht : E.Alike base t t')
    (hfaces : Faces E.tight first s draft t) :
    Hears E base first s (note draft.level draft.event) t t' := by
  rcases Nat.lt_or_ge E.loose.traceLevel draft.level with hloose | hloose
  · unfold Hears
    rw [note_of_lt hloose]
    rcases Nat.lt_or_ge E.tight.traceLevel draft.level with htight | htight
    · rw [note_of_lt htight]
      exact .inl (.done rfl ht)
    · have hstops : ∀ fault, draft.event E.tight t = .failed fault t →
          StopsAt E.tight E.loose.traceLevel first s draft fault t :=
        fun _ hfails => ⟨hfaces, hloose, htight, hfails⟩
      have hends := draft.ends_event E.tight t
      rw [note_of_le htight, bind_apply]
      generalize draft.event E.tight t = made at hends hstops ⊢
      cases hends with
      | made hlevel => exact .inl (.done rfl (ht.push (hlevel ▸ hloose) (hlevel ▸ htight)))
      | noText | noNames => exact .inr ⟨draft, _, t, 0, hstops _ rfl, rfl⟩
  · exact Eases.hears (couples_note_both hloose) ht

end Steps

/-- Whether the interpreter ends alike in both runs, with some fuel, on all tasks that the first run
comes to. -/
structure Hearing (E : Easing) (base : List Event) (first : Task) (s : State) (fuel : Nat) :
    Prop where
  evaluate {tree : Tree} {t t' : State} (h : Comes E.tight first s (.expression tree) t)
    (ht : E.Alike base t t') : Hears E base first s (evaluate fuel tree) t t'
  callMethod {array method args : Tree} {t t' : State}
    (h : ∀ trees u, argumentsOf array args E.tight t = .done trees u →
      Comes E.tight first s (.operands trees) u)
    (hfaces : ∀ fuel word name v u,
      methodAnswered fuel array method args E.tight t = .done (word, name, v) u →
      Faces E.tight first s (.methodAnswered word name v) u)
    (ht : E.Alike base t t') : Hears E base first s (callMethod fuel array method args) t t'
  execute {tree : Tree} {t t' : State} (h : Comes E.tight first s (.statement tree) t)
    (ht : E.Alike base t t') : Hears E base first s (execute fuel tree) t t'

section Sequences

variable (hE : E.Hushes) (hc : Hearing E base first s fuel)
include hE hc

theorem Hearing.values {trees : List Tree} (h : Comes E.tight first s (.operands trees) t)
    (ht : E.Alike base t t') :
    Hears E base first s (Run.values (Run.evaluate fuel) trees) t t' := by
  induction trees generalizing t t' with
  | nil => exact hears_pure _ ht
  | cons tree trees ih =>
      refine hears_bind hE (hc.evaluate (h.next .operand) ht) fun v u u' hv hu => ?_
      refine hears_bind hE (ih (h.next (.operandRest hv)) hu) fun vs w w' _ hw => ?_
      exact hears_pure _ hw

/-- A step that notes nothing, on the value of an operand. -/
theorem Hearing.operand {next : Value → Run α} {tree : Tree}
    (h : Comes E.tight first s (.operands [tree]) t) (ht : E.Alike base t t')
    (hnext : ∀ v, Eases E base (next v)) :
    Hears E base first s (Run.evaluate fuel tree >>= next) t t' :=
  hears_bind hE (hc.evaluate (h.next .operand) ht) fun v _ _ _ hu => (hnext v).hears hu

theorem Hearing.operandPair {next : Value → Value → Run α} {left right : Tree}
    (h : Comes E.tight first s (.operands [left, right]) t) (ht : E.Alike base t t')
    (hnext : ∀ l r, Eases E base (next l r)) :
    Hears E base first s (do next (← Run.evaluate fuel left) (← Run.evaluate fuel right)) t t' :=
  hears_bind hE (hc.evaluate (h.next .operand) ht) fun l _ _ hl hu =>
    hc.operand hE (h.next (.operandRest hl)) hu (hnext l)

theorem Hearing.block {trees : List Tree} (h : Comes E.tight first s (.block trees) t)
    (ht : E.Alike base t t') (last : Completion) :
    Hears E base first s (Run.block (Run.execute fuel) last trees) t t' := by
  induction trees generalizing t t' last with
  | nil => exact hears_pure _ ht
  | cons tree trees ih =>
      refine hears_bind hE (hc.execute (h.next .block) ht) fun last u u' hrun hu => ?_
      split
      · exact hears_pure _ hu
      · next hgoes => exact ih (h.next (.blockRest hrun (by simpa using hgoes))) hu last

theorem Hearing.loopTest {condition body : Tree}
    (h : Comes E.tight first s (.loop condition body) t) (ht : E.Alike base t t') :
    Hears E base first s (test fuel .loopTested condition) t t' := by
  refine hears_bind hE (hc.evaluate (h.next .loopTest) ht) fun v u u' hv hu => ?_
  refine hears_bind hE (hears_note (.loopTested v) hu ⟨_, t, h, .loopTested hv⟩)
    fun _ _ _ _ hw => ?_
  exact hears_pure _ hw

theorem Hearing.loop {condition body : Tree} (h : Comes E.tight first s (.loop condition body) t)
    (ht : E.Alike base t t') (rounds : Nat) (last : Completion) :
    Hears E base first s (repeatWhile (test fuel .loopTested condition)
      (do Run.block (Run.execute fuel) (plain .none) (← listPart body)) rounds last) t t' := by
  induction rounds generalizing t t' last with
  | zero => exact Eases.hears couples_spent ht
  | succ rounds ih =>
      refine hears_bind hE (hc.loopTest hE h ht) fun again u u' htest hu => ?_
      cases again with
      | false => exact hears_pure _ hu
      | true =>
          refine hears_bind hE ?_ fun last w w' hround hw => ?_
          · refine hears_next hE (couples_listPart body) hu fun trees w w' hlist hw => ?_
            exact hc.block hE (h.next (.loopBody htest hlist)) hw _
          · split
            · exact hears_pure _ hw
            · next hgoes =>
              exact ih (h.next (.loopAgain htest hround (by simpa using hgoes))) hw last

end Sequences

section Step

variable (hE : E.Hushes) (hc : Hearing E base first s fuel)
include hE

/-- Parameters are bound alike, or the first run stops at one of them. -/
theorem hears_bindAll {name args : Tree} {call : Called} {params : List Tree}
    {mid told listed start : State}
    (h : Comes E.tight first s (.expression (.call name args)) t) (enters : t.Enters E.tight mid)
    (arrives : called fuel name args E.tight mid = .done call told)
    (line : callLine call E.tight told = .done () listed) {front rest : List Tree}
    (hparams : listPart call.function.params E.tight listed = .done params start)
    (hsplit : params = front ++ rest) {u u' : State}
    (hfront : bindAll front call.args E.tight start = .done () u) (hu : E.Alike base u u') :
    Hears E base first s (bindAll rest (call.args.drop front.length)) u u' := by
  induction rest generalizing front u u' with
  | nil => exact hears_pure _ hu
  | cons param rest ih =>
      refine hears_next hE (couples_scalarPart param) hu fun word w w' hword hw => ?_
      refine hears_next hE (couples_assign word _) hw fun _ x x' hassign hx => ?_
      have hnext : bindNext front param call.args E.tight start =
          .done (word, (call.args.drop front.length).headD .none) x := by
        simp only [bindNext, bind_apply, hfront, hword, hassign, pure_apply]
      refine hears_bind hE (hears_note (.bound word _) hx
        ⟨_, t, h, .bound enters arrives line (hsplit ▸ hparams) hnext⟩) fun _ y y' hnote hy => ?_
      have hlonger : bindAll (front ++ [param]) call.args E.tight start = .done () y := by
        rw [bindAll_append, bind_apply, hfront]
        simp only [bindAll, bind_apply, hword, hassign, hnote, pure_apply]
      have hrest := ih (by simpa using hsplit) hlonger hy
      rwa [List.length_append, List.length_singleton, ← List.drop_drop, List.drop_one] at hrest

include hc

theorem hears_called {name args : Tree} {mid mid' : State}
    (h : Comes E.tight first s (.expression (.call name args)) t) (enters : t.Enters E.tight mid)
    (hmid : E.Alike base mid mid') : Hears E base first s (called fuel name args) mid mid' := by
  refine hears_next hE (couples_scalarPart name) hmid fun word u u' hword hu => ?_
  refine hears_next hE (couples_read fun _ _ => rfl) hu fun function? w w' hread hw => ?_
  cases function? with
  | none => exact Eases.hears (couples_fail rfl) hw
  | some function =>
      refine hears_next hE (couples_listPart args) hw fun trees x x' hargs hx => ?_
      have hfound : expressionOperands (.call name args) E.tight mid = .done trees x := by
        simp only [expressionOperands, bind_apply, hword, hread, hargs]
      refine hears_bind hE (hc.values hE (h.next (.expression enters hfound)) hx)
        fun vs y y' _ hy => ?_
      exact hears_pure _ hy

theorem hears_callBody {name args : Tree} {call : Called} {mid told start start' : State}
    (h : Comes E.tight first s (.expression (.call name args)) t) (enters : t.Enters E.tight mid)
    (arrives : called fuel name args E.tight mid = .done call told)
    (line : callLine call E.tight told = .done () start) (hstart : E.Alike base start start') :
    Hears E base first s (callBody fuel call) start start' := by
  refine hears_next hE (couples_read fun _ _ => rfl) hstart fun kept u u' hkept hu => ?_
  obtain ⟨rfl, rfl⟩ : start.bindings = kept ∧ start = u := Outcome.done.inj hkept
  refine hears_next hE (couples_listPart _) hu fun params w w' hparams hw => ?_
  refine hears_bind hE
    (hears_bindAll hE h enters arrives line hparams (List.nil_append _).symm rfl hw)
    fun _ x x' hbind hx => ?_
  refine hears_next hE (couples_listPart _) hx fun body y y' hbody hy => ?_
  have hcallee : calleeOf fuel name args E.tight mid = .done body y := by
    simp only [calleeOf_eq, bind_apply, arrives, line, hparams, hbind, hbody]
  refine hears_bind hE (hc.block hE (h.next (.callee enters hcallee)) hy _)
    fun last z z' hblock hz => ?_
  refine hears_next hE (couples_restore _) hz fun _ b b' hrestore hb => ?_
  have hresult : callResult fuel call E.tight start = .done last.value b := by
    simp only [callResult, bind_apply, hkept, hparams, hbind, hbody, hblock, hrestore, pure_apply]
  refine hears_bind hE (hears_note (.returned call.name last.value) hb
    ⟨_, t, h, .returned enters arrives line hresult⟩) fun _ _ _ _ hlast => ?_
  exact hears_pure _ hlast

theorem hears_call {name args : Tree} (h : Comes E.tight first s (.expression (.call name args)) t)
    (ht : E.Alike base t t') :
    Hears E base first s (evaluate (fuel + 1) (.call name args)) t t' := by
  rw [evaluate_call]
  refine hears_nested hE ht fun mid mid' enters hmid => ?_
  refine hears_bind hE (hears_called hE hc h enters hmid) fun call u u' harrives hu => ?_
  refine hears_bind hE (hears_note (.calling call.name call.args) hu
    ⟨_, t, h, .calling enters harrives⟩) fun _ w w' hline hw => ?_
  exact hears_callBody hE hc h enters harrives hline hw

theorem hears_callMethod {array method args : Tree}
    (h : ∀ trees u, argumentsOf array args E.tight t = .done trees u →
      Comes E.tight first s (.operands trees) u)
    (hfaces : ∀ fuel word name v u,
      methodAnswered fuel array method args E.tight t = .done (word, name, v) u →
      Faces E.tight first s (.methodAnswered word name v) u)
    (ht : E.Alike base t t') :
    Hears E base first s (callMethod (fuel + 1) array method args) t t' := by
  simp only [callMethod]
  refine hears_next hE (couples_scalarPart array) ht fun word u u' hword hu => ?_
  refine hears_next hE (couples_lookupArray word) hu fun address w w' haddress hw => ?_
  refine hears_next hE (couples_listPart args) hw fun trees x x' hargs hx => ?_
  have hoperands : Comes E.tight first s (.operands trees) x :=
    h trees x (by simp only [argumentsOf, bind_apply, hword, haddress, hargs])
  refine hears_bind hE (hc.values hE hoperands hx) fun vs y y' hvs hy => ?_
  refine hears_next hE (couples_scalarPart method) hy fun name z z' hname hz => ?_
  refine hears_next hE (easing_sharesArrays.applyMethod address name vs) hz
    fun v b b' hv hb => ?_
  have hbefore : methodAnswered fuel array method args E.tight t = .done (word, name, v) b := by
    simp only [methodAnswered, bind_apply, hword, haddress, hargs, hvs, hname, hv, pure_apply]
  refine hears_bind hE (hears_note (.methodAnswered word name v) hb
    (hfaces fuel word name v b hbefore)) fun _ _ _ _ hlast => ?_
  exact hears_pure _ hlast

theorem hears_evaluate {tree : Tree} (h : Comes E.tight first s (.expression tree) t)
    (ht : E.Alike base t t') : Hears E base first s (evaluate (fuel + 1) tree) t t' := by
  cases tree with
  | number value | string value | boolean value =>
      simp only [evaluate]
      refine hears_nested hE ht fun mid mid' _ hmid => Eases.hears ?_ hmid
      exact couples_next (couples_scalarPart value) fun v => couples_pure rfl
  | «variable» name =>
      simp only [evaluate]
      refine hears_nested hE ht fun mid mid' _ hmid => Eases.hears ?_ hmid
      exact couples_next (couples_scalarPart name) couples_lookup
  | unary operator operand =>
      simp only [evaluate]
      refine hears_nested hE ht fun mid mid' enters hmid => ?_
      refine hc.operand hE (h.next (.expression enters rfl)) hmid fun v => ?_
      exact couples_next (couples_scalarPart operator) fun operator => couples_same_lift _
  | binary operator left right =>
      simp only [evaluate]
      refine hears_nested hE ht fun mid mid' enters hmid => ?_
      refine hc.operandPair hE (h.next (.expression enters rfl)) hmid fun l r => ?_
      exact couples_next (couples_scalarPart operator) fun operator =>
        easing_sharesArrays.applyBinary operator l r
  | comparison operator left right =>
      simp only [evaluate]
      refine hears_nested hE ht fun mid mid' enters hmid => ?_
      refine hc.operandPair hE (h.next (.expression enters rfl)) hmid fun l r => ?_
      exact couples_next (couples_scalarPart operator) fun operator => couples_same_lift _
  | arrayLiteral elements =>
      simp only [evaluate]
      refine hears_nested hE ht fun mid mid' enters hmid => ?_
      refine hears_next hE (couples_listPart elements) hmid fun trees u u' hlist hu => ?_
      refine hears_bind hE (hc.values hE (h.next (.expression enters hlist)) hu)
        fun vs w w' _ hw => ?_
      exact Eases.hears (easing_sharesArrays.newArray _) hw
  | elementAccess array index =>
      simp only [evaluate]
      refine hears_nested hE ht fun mid mid' enters hmid => ?_
      refine hears_next hE (couples_scalarPart array) hmid fun word u u' hword hu => ?_
      refine hears_next hE (couples_lookupArray word) hu fun address w w' haddress hw => ?_
      have hfound : expressionOperands (.elementAccess array index) E.tight mid =
          .done [index] w := by
        simp only [expressionOperands, bind_apply, hword, haddress, pure_apply]
      exact hc.operand hE (h.next (.expression enters hfound)) hw
        (easing_sharesArrays.elementAt address)
  | methodExpression array method args =>
      simp only [evaluate]
      refine hears_nested hE ht fun mid mid' enters hmid => ?_
      exact hc.callMethod (fun trees u hfound => h.next (.expression enters hfound))
        (fun _ _ _ _ _ hbefore => ⟨_, t, h, .methodAnswered enters hbefore⟩) hmid
  | arrayProperty array property =>
      simp only [evaluate]
      refine hears_nested hE ht fun mid mid' _ hmid => Eases.hears ?_ hmid
      apply couples_next (couples_scalarPart array)
      intro word
      apply couples_next (couples_lookupArray word)
      intro address
      exact couples_next (couples_scalarPart property) (easing_sharesArrays.applyProperty address)
  | call name args => exact hears_call hE hc h ht
  | _ =>
      simp only [evaluate]
      exact Eases.hears (couples_fail rfl) ht

theorem hears_ifStatement {condition ifBlock elseBlock : Tree}
    (h : Comes E.tight first s (.statement (.ifStatement condition ifBlock elseBlock)) t)
    (ht : E.Alike base t t') :
    Hears E base first s (execute (fuel + 1) (.ifStatement condition ifBlock elseBlock)) t t' := by
  simp only [execute]
  refine hears_nested hE ht fun mid mid' enters hmid => ?_
  have hcondition := (h.next (.statement enters rfl)).next .operand
  refine hears_bind hE (hc.evaluate hcondition hmid) fun v u u' hv hu => ?_
  refine hears_bind hE (hears_note (.branchTested v) hu ⟨_, t, h, .branchTested enters hv⟩)
    fun _ w w' hnote hw => ?_
  have htest : test fuel .branchTested condition E.tight mid = .done v.isTruthy w := by
    simp only [test, bind_apply, hv, show note 3 _ E.tight u = .done () w from hnote, pure_apply]
  have hblock : ∀ {trees : List Tree} {x x' : State},
      branchOf fuel condition ifBlock elseBlock E.tight mid = .done trees x → E.Alike base x x' →
      Hears E base first s (block (execute fuel) (plain .none) trees) x x' :=
    fun hbranch hx => hc.block hE (h.next (.branch enters hbranch)) hx _
  split
  · next htruthy =>
    refine hears_next hE (couples_listPart ifBlock) hw fun trees x x' hlist hx => ?_
    refine hblock ?_ hx
    simp only [branchOf, bind_apply, htest, htruthy, if_true, hlist]
  · next hfalsy =>
    split
    · exact hears_pure _ hw
    · next helse =>
      refine hears_next hE (couples_listPart elseBlock) hw fun trees x x' hlist hx => ?_
      refine hblock ?_ hx
      simp only [branchOf, bind_apply, htest, if_neg hfalsy, hlist]

theorem hears_elementAssignment {array index value : Tree}
    (h : Comes E.tight first s (.statement (.elementAssignment array index value)) t)
    (ht : E.Alike base t t') :
    Hears E base first s (execute (fuel + 1) (.elementAssignment array index value)) t t' := by
  simp only [execute]
  refine hears_nested hE ht fun mid mid' enters hmid => ?_
  refine hears_next hE (couples_scalarPart array) hmid fun word u u' hword hu => ?_
  refine hears_next hE (couples_lookupArray word) hu fun address w w' haddress hw => ?_
  have hfound : statementOperands (.elementAssignment array index value) E.tight mid =
      .done [index, value] w := by
    simp only [statementOperands, bind_apply, hword, haddress, pure_apply]
  have hoperands := h.next (.statement enters hfound)
  refine hears_bind hE (hc.evaluate (hoperands.next .operand) hw) fun i x x' hi hx => ?_
  refine hears_bind hE (hc.evaluate ((hoperands.next (.operandRest hi)).next .operand) hx)
    fun v y y' hv hy => ?_
  refine hears_next hE (easing_sharesArrays.setElement address i v) hy fun _ z z' hset hz => ?_
  have hbefore : elementAssigned fuel array index value E.tight mid = .done (word, i, v) z := by
    simp only [elementAssigned, bind_apply, hword, haddress, hi, hv, hset, pure_apply]
  refine hears_bind hE (hears_note (.elementSet word i v) hz
    ⟨_, t, h, .elementSet enters hbefore⟩) fun _ _ _ _ hlast => ?_
  exact hears_pure _ hlast

theorem hears_execute {tree : Tree} (h : Comes E.tight first s (.statement tree) t)
    (ht : E.Alike base t t') : Hears E base first s (execute (fuel + 1) tree) t t' := by
  cases tree with
  | assignment name value =>
      simp only [execute]
      refine hears_nested hE ht fun mid mid' enters hmid => ?_
      refine hears_bind hE (hc.evaluate ((h.next (.statement enters rfl)).next .operand) hmid)
        fun v u u' hv hu => ?_
      refine hears_next hE (couples_scalarPart name) hu fun word w w' hword hw => ?_
      refine hears_next hE (couples_assign word v) hw fun _ x x' hassign hx => ?_
      have hbefore : assigned fuel name value E.tight mid = .done (word, v) x := by
        simp only [assigned, bind_apply, hv, hword, hassign, pure_apply]
      refine hears_bind hE (hears_note (.assigned word v) hx
        ⟨_, t, h, .assigned enters hbefore⟩) fun _ _ _ _ hlast => ?_
      exact hears_pure _ hlast
  | print value =>
      simp only [execute]
      refine hears_nested hE ht fun mid mid' enters hmid => ?_
      refine hc.operand hE (h.next (.statement enters rfl)) hmid fun v => ?_
      apply couples_next (couples_display v)
      intro text
      exact couples_next (couples_printLine text) fun _ => couples_pure rfl
  | expressionStatement expression =>
      simp only [execute]
      refine hears_nested hE ht fun mid mid' enters hmid => ?_
      exact hc.operand hE (h.next (.statement enters rfl)) hmid fun v => couples_pure rfl
  | ifStatement condition ifBlock elseBlock => exact hears_ifStatement hE hc h ht
  | whileStatement condition body =>
      simp only [execute]
      refine hears_nested hE ht fun mid mid' enters hmid => ?_
      exact hc.loop hE (h.next (.loop enters)) hmid fuel _
  | elementAssignment array index value => exact hears_elementAssignment hE hc h ht
  | methodCall array method args =>
      simp only [execute]
      refine hears_nested hE ht fun mid mid' enters hmid => ?_
      refine hears_bind hE (hc.callMethod (fun trees u hfound => h.next (.statement enters hfound))
        (fun _ _ _ _ _ hbefore => ⟨_, t, h, .methodAnsweredAside enters hbefore⟩) hmid)
        fun v u u' _ hu => ?_
      exact hears_pure _ hu
  | functionDeclaration name params body =>
      simp only [execute]
      refine hears_nested hE ht fun mid mid' enters hmid => ?_
      refine hears_next hE (couples_scalarPart name) hmid fun word u u' hword hu => ?_
      have hdeclare : Eases E base
          (change fun s => { s with functions := s.functions.set word ⟨params, body⟩ }) :=
        couples_declare word params (E.fits_of_not_named hE.not_named body)
      refine hears_next hE hdeclare hu fun _ w w' hchange hw => ?_
      have hbefore : declared name params body E.tight mid = .done word w := by
        simp only [declared, bind_apply, hword, hchange, pure_apply]
      refine hears_bind hE (hears_note (.defined word params) hw
        ⟨_, t, h, .defined enters hbefore⟩) fun _ _ _ _ hlast => ?_
      exact hears_pure _ hlast
  | returnStatement value =>
      simp only [execute]
      refine hears_nested hE ht fun mid mid' enters hmid => ?_
      split
      · exact hears_pure _ hmid
      · next hvalue =>
        have hfound : statementOperands (.returnStatement value) E.tight mid =
            .done [value] mid := by
          simp only [statementOperands, pure_apply]
        exact hc.operand hE (h.next (.statement enters hfound)) hmid fun v => couples_pure rfl
  | _ =>
      simp only [execute]
      exact Eases.hears (couples_fail rfl) ht

end Step

theorem hearing_of_fuel (hE : E.Hushes) (base : List Event) (first : Task) (s : State)
    (fuel : Nat) : Hearing E base first s fuel := by
  induction fuel with
  | zero =>
      constructor
      · intro tree t t' _ ht
        rw [evaluate_zero]
        exact Eases.hears couples_spent ht
      · intro array method args t t' _ _ ht
        rw [callMethod]
        exact Eases.hears couples_spent ht
      · intro tree t t' _ ht
        rw [execute_zero]
        exact Eases.hears couples_spent ht
  | succ fuel ih =>
      constructor
      · exact hears_evaluate hE ih
      · exact hears_callMethod hE ih
      · exact hears_execute hE ih

section Programs

variable {trees : List Tree} (hE : E.Hushes)
include hE

theorem hears_statements (fuel : Nat) (h : Comes E.tight first s (.program trees) t)
    (ht : E.Alike base t t') : Hears E base first s (statements fuel trees) t t' := by
  unfold statements
  generalize Value.none = last
  induction trees generalizing t t' last with
  | nil => exact hears_pure _ ht
  | cons tree trees ih =>
      simp only [List.foldlM_cons]
      refine hears_bind hE ?_ fun v u u' hv hu => ih (h.next (.programRest hv)) hu v
      refine hears_bind hE (hears_note (.executing tree.label) ht ⟨_, t, h, .executing⟩)
        fun _ u u' hstart hu => ?_
      refine hears_bind hE ((hearing_of_fuel hE base first s fuel).execute
        (h.next (.program hstart)) hu) fun last w w' _ hw => ?_
      exact hears_pure _ hw

theorem hears_program (fuel : Nat) (trees : List Tree) (s : State) :
    Hears E s.trace.toList (.program trees) s (program fuel trees) s s := by
  have hs : E.Alike s.trace.toList s s := .refl fun hnamed => absurd hnamed hE.not_named
  have hdepth := hE.depth_eq
  unfold Hears program
  by_cases hkept : greatestDepth < E.tight.depth
  · rw [if_pos hkept, if_pos (hdepth ▸ hkept)]
    exact .inl (.failed rfl hs)
  · rw [if_neg hkept, if_neg (hdepth ▸ hkept)]
    exact hears_statements hE fuel .start hs

end Programs

end Run

end Sprig
