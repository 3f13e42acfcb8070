import Mathlib
import Sprig.Proofs.Run.Brackets

/-!
# The trace of a run of a program

The lines that a run adds to a trace that notes calls are well bracketed. The statements of the
program that are started are those in front of the one where the run stops, and this one too. When
the run is done, no call is open and all statements were started. When it fails, the calls that are
open are those that had their lines noted and fail with the run.

## Implementation notes

That a call which fails is open is found from behind. It stops the run, so the trace of the run is
what it was when the call came to its line, and what the call did from then on. On the way to the
call the trace only grows.
-/

namespace Sprig

theorem State.Leads.isPrefix {s t : State} {calls later : List OpenCall}
    (h : s.Leads t calls later) : s.trace.toList <+: t.trace.toList := by
  obtain ⟨events, htrace, -⟩ := h
  exact ⟨events, htrace.symm⟩

namespace Run

variable {limits : Limits} {first task inner : Task} {s t u : State} {fuel : Nat}

section Growth

theorem quiet_argumentsOf (array args : Tree) : Quiet (argumentsOf array args) :=
  quiet_bind (quiet_scalarPart array) fun word =>
    quiet_bind (quiet_lookupArray word) fun _ => quiet_listPart args

theorem quiet_expressionOperands (tree : Tree) : Quiet (expressionOperands tree) := by
  cases tree with
  | number | string | boolean | «variable» | arrayProperty | unary | binary | comparison =>
      exact quiet_pure _
  | arrayLiteral elements => exact quiet_listPart elements
  | elementAccess array index =>
      exact quiet_bind (quiet_scalarPart array) fun word =>
        quiet_bind (quiet_lookupArray word) fun _ => quiet_pure _
  | methodExpression array method args => exact quiet_argumentsOf array args
  | call name args =>
      refine quiet_bind (quiet_scalarPart name) fun word =>
        quiet_bind (quiet_read _) fun function? => ?_
      cases function? with
      | none => exact quiet_fail _
      | some function => exact quiet_listPart args
  | _ => exact quiet_fail _

theorem quiet_statementOperands (tree : Tree) : Quiet (statementOperands tree) := by
  cases tree with
  | assignment | print | expressionStatement | ifStatement | whileStatement | functionDeclaration =>
      exact quiet_pure _
  | elementAssignment array index value =>
      exact quiet_bind (quiet_scalarPart array) fun word =>
        quiet_bind (quiet_lookupArray word) fun _ => quiet_pure _
  | methodCall array method args => exact quiet_argumentsOf array args
  | returnStatement value =>
      cases value with
      | scalar value => cases value <;> exact quiet_pure _
      | _ => exact quiet_pure _
  | _ => exact quiet_fail _

variable (hlevel : 1 ≤ limits.traceLevel)
include hlevel

theorem leads_of_evaluate {tree : Tree} {v : Value}
    (h : evaluate fuel tree limits t = .done v u) : t.Leads u [] [] :=
  leads_of_nests ((nestings_of_fuel hlevel (.expression tree) t fuel).evaluate .start) h

theorem leads_of_execute {tree : Tree} {last : Completion}
    (h : execute fuel tree limits t = .done last u) : t.Leads u [] [] :=
  leads_of_nests ((nestings_of_fuel hlevel (.statement tree) t fuel).execute .start) h

theorem leads_of_test {event : String → Bool → Event} (hplain : ∀ text b, (event text b).IsPlain)
    {condition : Tree} {b : Bool} (h : test fuel event condition limits t = .done b u) :
    t.Leads u [] [] :=
  leads_of_nests ((nestings_of_fuel hlevel (.expression condition) t fuel).test hplain .start) h

theorem leads_of_block {trees : List Tree} {last next : Completion}
    (h : block (execute fuel) last trees limits t = .done next u) : t.Leads u [] [] :=
  leads_of_nests ((nestings_of_fuel hlevel (.block trees) t fuel).block .start last) h

theorem leads_of_called {name args : Tree} {call : Called} (enters : s.Enters limits t)
    (h : called fuel name args limits t = .done call u) : t.Leads u [] [] :=
  leads_of_nests (nests_called (nestings_of_fuel hlevel (.expression (.call name args)) s fuel)
    .start enters) h

/-- The line of a statement of the program is noted as it starts. -/
theorem note_executing (label : String) (s : State) :
    note 1 (return .executing label) limits s =
      .done () { s with trace := s.trace.push (.executing label) } := by
  rw [note_of_le hlevel]
  rfl

/-- From a task to one that it begins the trace grows. -/
theorem Begins.isPrefix (h : Begins limits task t inner u) :
    t.trace.toList <+: u.trace.toList := by
  cases h with
  | @program tree rest _ _ before =>
      rw [note_executing hlevel] at before
      obtain ⟨-, rfl⟩ := Outcome.done.inj before
      exact ⟨[.executing tree.label], Array.toList_push.symm⟩
  | @programRest fuel tree rest v _ _ before =>
      rw [bind_of_done (note_executing hlevel _ _)] at before
      obtain ⟨last, mid, hrun, hlast⟩ := exists_of_bind before
      obtain ⟨-, rfl⟩ := Outcome.done.inj hlast
      have hline : t.trace.toList <+: (t.trace.push (.executing tree.label)).toList :=
        ⟨[.executing tree.label], Array.toList_push.symm⟩
      exact hline.trans (leads_of_execute hlevel hrun).isPrefix
  | block | operand | loopTest => exact List.prefix_rfl
  | blockRest before => exact (leads_of_execute hlevel before).isPrefix
  | operandRest before => exact (leads_of_evaluate hlevel before).isPrefix
  | expression enters before =>
      obtain ⟨-, rfl⟩ := enters
      exact ((quiet_expressionOperands _).leads before).isPrefix
  | callee enters before =>
      rw [calleeOf_eq] at before
      obtain ⟨call, a, harrives, before⟩ := exists_of_bind before
      obtain ⟨_, b, hline, before⟩ := exists_of_bind before
      obtain ⟨params, c, hparams, before⟩ := exists_of_bind before
      obtain ⟨_, d, hbind, hbody⟩ := exists_of_bind before
      have hcalled := (leads_of_called hlevel enters harrives).isPrefix
      obtain ⟨-, rfl⟩ := enters
      exact hcalled.trans ((leads_of_callLine hlevel hline).isPrefix.trans
        (((quiet_listPart _).leads hparams).isPrefix.trans
          (((quiet_bindAll _ _).leads hbind).isPrefix.trans
            ((quiet_listPart _).leads hbody).isPrefix)))
  | statement enters before =>
      obtain ⟨-, rfl⟩ := enters
      exact ((quiet_statementOperands _).leads before).isPrefix
  | branch enters before =>
      obtain ⟨-, rfl⟩ := enters
      obtain ⟨holds, a, htest, hblock⟩ := exists_of_bind before
      have hplain : ∀ text b, (Event.branchTested text b).IsPlain := fun _ _ => trivial
      refine (leads_of_test hlevel hplain htest).isPrefix.trans ?_
      split at hblock
      · exact ((quiet_listPart _).leads hblock).isPrefix
      · split at hblock
        · exact ((quiet_pure _).leads hblock).isPrefix
        · exact ((quiet_listPart _).leads hblock).isPrefix
  | loop enters =>
      obtain ⟨-, rfl⟩ := enters
      exact List.prefix_rfl
  | loopBody before items =>
      have hplain : ∀ text b, (Event.loopTested text b).IsPlain := fun _ _ => trivial
      exact (leads_of_test hlevel hplain before).isPrefix.trans
        ((quiet_listPart _).leads items).isPrefix
  | loopAgain before round goesOn =>
      have hplain : ∀ text b, (Event.loopTested text b).IsPlain := fun _ _ => trivial
      obtain ⟨trees, a, hlist, hblock⟩ := exists_of_bind round
      exact (leads_of_test hlevel hplain before).isPrefix.trans
        (((quiet_listPart _).leads hlist).isPrefix.trans (leads_of_block hlevel hblock).isPrefix)

/-- From the start to any task that a run comes to the trace grows. -/
theorem Comes.isPrefix (h : Comes limits first s task t) :
    s.trace.toList <+: t.trace.toList := by
  induction h with
  | start => exact List.prefix_rfl
  | next _ begins ih => exact ih.trans (begins.isPrefix hlevel)

end Growth

section Active

variable {fault : Fault} {after stopped : State}

/-- What a task stops with that a run comes to, the run stops with. -/
theorem trace_of_fails {other : Fault} (comes : Comes limits first s task t)
    (htask : Fails stopped limits other task t)
    (hrun : work fuel first limits s = .failed fault after) : after.trace = stopped.trace := by
  obtain ⟨more, levels, hmore⟩ := htask.of_comes comes
  have hone := extends_work (Nat.le_max_left fuel more) first limits s (by simp [hrun])
  have htwo := extends_work (Nat.le_max_right fuel more) first limits s (by simp [hmore])
  rw [hone, hrun, hmore] at htwo
  obtain ⟨-, rfl⟩ := Outcome.failed.inj htwo
  rfl

variable (hlevel : 1 ≤ limits.traceLevel)
include hlevel

/-- A call that fails behind its line leaves itself open below the calls that it made. -/
theorem exists_leads_of_call {word args : Tree} {call : Called} {mid v : State}
    (enters : t.Enters limits mid) (arrives : called fuel word args limits mid = .done call u)
    (line : callLine call limits u = .done () v)
    (fails : evaluate (fuel + 1) (.call word args) limits t = .failed fault after) :
    ∃ calls, t.Leads after [] (calls ++ [⟨u.trace.size, call.name⟩]) := by
  have hrest := nests_callBody hlevel (nestings_of_fuel hlevel _ t fuel) u.trace.size .start enters
    arrives line
  have hcalled := leads_of_called hlevel enters arrives
  obtain ⟨hle, rfl⟩ := enters
  rw [evaluate_call, nested_apply, if_neg (by omega), bind_of_done arrives, bind_of_done line]
    at fails
  cases hout : callBody fuel call limits v with
  | done value last =>
      rw [hout] at fails
      cases fails
  | failed other last =>
      rw [hout] at fails hrest
      obtain ⟨-, rfl⟩ := Outcome.failed.inj fails
      obtain ⟨calls, hleads, -⟩ := hrest
      exact ⟨calls, hcalled.trans ((leads_of_callLine hlevel line).trans (hleads.frame _))⟩
  | outOfFuel last =>
      rw [hout] at fails
      cases fails

/-- A call that is active is open in the trace of a run that fails. -/
theorem mem_of_isActive {call : OpenCall} (h : call.IsActive limits first s)
    (hrun : work fuel first limits s = .failed fault after) {events : List Event}
    {calls : List OpenCall} (htrace : after.trace.toList = s.trace.toList ++ events)
    (hopen : openCalls s.trace.size [] events = some calls) : call ∈ calls := by
  cases h with
  | @intro least word args t mid u v inner other comes enters arrives line fails =>
      obtain ⟨last, hlast⟩ := fails
      obtain ⟨made, later, hlater, hmade⟩ := exists_leads_of_call hlevel enters arrives line hlast
      have hsame := trace_of_fails comes ⟨least + 1, (failsIn_map _).mpr ⟨0, hlast⟩⟩ hrun
      obtain ⟨front, hfront⟩ := comes.isPrefix hlevel
      have hevents : events = front ++ later := by
        rw [hsame, hlater, ← hfront, List.append_assoc] at htrace
        exact (List.append_cancel_left htrace).symm
      have hsize : t.trace.size = s.trace.size + front.length := by
        simpa using (congrArg List.length hfront).symm
      rw [hevents, openCalls_append] at hopen
      obtain ⟨before, -, hbefore⟩ := Option.bind_eq_some_iff.mp hopen
      rw [← hsize] at hbefore
      have hcalls := Option.some.inj ((hmade before).symm.trans hbefore)
      simp [← hcalls]

end Active

/-- Whether lines are the trace of a program that has started some of its statements, with the calls
that are open behind them. -/
structure Traced (trees : List Tree) (place started : Nat) (events : List Event)
    (calls : List OpenCall) : Prop where
  started_le : started ≤ trees.length
  openCalls_eq : openCalls place [] events = some calls
  executed_eq : events.filterMap Event.executed? = (trees.take started).map Tree.label

section Traced

variable {tree : Tree} {trees : List Tree} {place started : Nat} {front events : List Event}
  {calls : List OpenCall}

theorem traced_nil (trees : List Tree) (place : Nat) : Traced trees place 0 [] [] :=
  ⟨Nat.zero_le _, rfl, rfl⟩

theorem openCalls_executing (label : String) (events : List Event) :
    openCalls place [] (.executing label :: events) = openCalls (place + 1) [] events := rfl

/-- The trace of a statement that the program stops in. -/
theorem traced_stop
    (h : ∀ base, openCalls (place + 1) ([] ++ base) events = some (calls ++ base)) :
    Traced (tree :: trees) place 1 (.executing tree.label :: events) calls where
  started_le := by simp
  openCalls_eq := by simpa [openCalls_executing] using h []
  executed_eq := by
    have hnone := executed_of_openCalls fun base => Option.isSome_of_eq_some (h base)
    simp [Event.executed?, hnone]

/-- The trace of a statement and of those that are started behind it. -/
theorem Traced.cons (hfront : ∀ base, openCalls (place + 1) ([] ++ base) front = some ([] ++ base))
    (h : Traced trees (place + 1 + front.length) started events calls) :
    Traced (tree :: trees) place (started + 1) (.executing tree.label :: (front ++ events))
      calls where
  started_le := Nat.succ_le_succ h.started_le
  openCalls_eq := by
    rw [openCalls_executing, openCalls_append, ← List.nil_append [], hfront, Option.bind_some]
    exact h.openCalls_eq
  executed_eq := by
    have hnone := executed_of_openCalls fun base => Option.isSome_of_eq_some (hfront base)
    simp [Event.executed?, hnone, h.executed_eq]

end Traced

section Programs

/-- A statement of a program, with its line. -/
def topStatement (fuel : Nat) (tree : Tree) : Run Value := do
  note 1 (return .executing tree.label)
  return (← execute fuel tree).value

/-- The statements of a program, from some value on. -/
def statementsFrom (fuel : Nat) (last : Value) (trees : List Tree) : Run Value :=
  trees.foldlM (fun _ tree => topStatement fuel tree) last

theorem statementsFrom_cons (fuel : Nat) (last : Value) (tree : Tree) (trees : List Tree) :
    statementsFrom fuel last (tree :: trees) =
      topStatement fuel tree >>= fun v => statementsFrom fuel v trees := List.foldlM_cons

/-- Which calls a run of a program leaves open that has started some of its statements. -/
def Leaves (limits : Limits) (first : Task) (s : State) (trees : List Tree) (started : Nat)
    (calls : List OpenCall) : Outcome Value → Prop
  | .done _ _ => started = trees.length ∧ calls = []
  | .failed _ _ => ∀ call ∈ calls, call.IsActive limits first s
  | .outOfFuel _ => True

theorem Leaves.cons {tree : Tree} {trees : List Tree} {started : Nat} {calls : List OpenCall}
    {outcome : Outcome Value} (h : Leaves limits first s trees started calls outcome) :
    Leaves limits first s (tree :: trees) (started + 1) calls outcome := by
  cases outcome with
  | done v after => exact ⟨congrArg (· + 1) h.1, h.2⟩
  | failed fault after => exact h
  | outOfFuel after => trivial

/-- Whether lines are what the statements of a program add to a trace. Those that are started are
those in front of which the program can be run. -/
structure Advances (fuel : Nat) (limits : Limits) (last : Value) (t : State) (trees : List Tree)
    (started : Nat) (events : List Event) (calls : List OpenCall) : Prop where
  trace_eq : (statementsFrom fuel last trees limits t).after.trace.toList =
    t.trace.toList ++ events
  traced : Traced trees t.trace.size started events calls
  started_iff : ∀ k < trees.length, k < started ↔
    ∃ v u, statementsFrom fuel last (trees.take k) limits t = .done v u

section Advances

variable {tree : Tree} {trees : List Tree} {last v : Value} {started : Nat}
  {front events : List Event} {calls : List OpenCall}

theorem advances_nil : Advances fuel limits last t [] 0 [] [] where
  trace_eq := by simp [statementsFrom, Outcome.after]
  traced := traced_nil [] _
  started_iff := by simp

/-- A program that stops in its first statement has started this one only. -/
theorem exists_advances_of_stop {outcome : Outcome Value}
    (hstop : ∀ rest, statementsFrom fuel last (tree :: rest) limits t = outcome)
    (hnever : ∀ v u, outcome ≠ .done v u)
    (hleads : State.Leads { t with trace := t.trace.push (.executing tree.label) } outcome.after []
      calls) : ∃ events, Advances fuel limits last t (tree :: trees) 1 events calls := by
  obtain ⟨events, htrace, hopen⟩ := hleads
  rw [Array.size_push] at hopen
  refine ⟨.executing tree.label :: events, ?_, traced_stop hopen, fun k _ => ?_⟩
  · rw [hstop, htrace, Array.toList_push, List.append_assoc]
    rfl
  · cases k with
    | zero => exact ⟨fun _ => ⟨last, t, rfl⟩, fun _ => Nat.one_pos⟩
    | succ k =>
        rw [List.take_succ_cons, hstop]
        exact ⟨fun hk => absurd hk (by omega), fun ⟨v, u, h⟩ => absurd h (hnever v u)⟩

/-- A program goes on behind a statement that is done. -/
theorem Advances.cons
    (hfrom : ∀ rest, statementsFrom fuel last (tree :: rest) limits t =
      statementsFrom fuel v rest limits u)
    (htrace : u.trace.toList = (t.trace.push (.executing tree.label)).toList ++ front)
    (hfront : ∀ base, openCalls (t.trace.size + 1) ([] ++ base) front = some ([] ++ base))
    (h : Advances fuel limits v u trees started events calls) :
    Advances fuel limits last t (tree :: trees) (started + 1)
      (.executing tree.label :: (front ++ events)) calls where
  trace_eq := by
    rw [hfrom, h.trace_eq, htrace, Array.toList_push]
    simp
  traced := by
    have hplace : u.trace.size = t.trace.size + 1 + front.length := by
      simpa [Nat.add_assoc, Nat.add_comm 1] using congrArg List.length htrace
    exact .cons hfront (hplace ▸ h.traced)
  started_iff := by
    intro k hk
    cases k with
    | zero => exact ⟨fun _ => ⟨last, t, rfl⟩, fun _ => Nat.succ_pos _⟩
    | succ k =>
        rw [List.take_succ_cons, hfrom, ← h.started_iff k (Nat.lt_of_succ_lt_succ hk)]
        omega

end Advances

/-- From any statement on that a program comes to, the trace goes on as that of a program. -/
theorem exists_advances (hlevel : 1 ≤ limits.traceLevel) (fuel : Nat) {trees : List Tree}
    (h : Comes limits first s (.program trees) t) (last : Value) :
    ∃ started events calls, Advances fuel limits last t trees started events calls ∧
      Leaves limits first s trees started calls (statementsFrom fuel last trees limits t) := by
  induction trees generalizing t last with
  | nil => exact ⟨0, [], [], advances_nil, rfl, rfl⟩
  | cons tree trees ih =>
      have hline := note_executing hlevel tree.label t
      have hbody := (nestings_of_fuel hlevel first s fuel).execute (h.next (.program hline))
      cases hrun : execute fuel tree limits
          { t with trace := t.trace.push (.executing tree.label) } with
      | done next u =>
          rw [hrun] at hbody
          obtain ⟨front, htrace, hfront⟩ := hbody
          rw [Array.size_push] at hfront
          have hdone : topStatement fuel tree limits t = .done next.value u := by
            rw [topStatement, bind_of_done hline, bind_of_done hrun]
            rfl
          have hfrom (rest : List Tree) : statementsFrom fuel last (tree :: rest) limits t =
              statementsFrom fuel next.value rest limits u := by
            rw [statementsFrom_cons, bind_of_done hdone]
          obtain ⟨started, events, calls, hadvances, hleaves⟩ :=
            ih (h.next (.programRest hdone)) next.value
          refine ⟨started + 1, _, calls, hadvances.cons hfrom htrace hfront, ?_⟩
          rw [hfrom]
          exact hleaves.cons
      | failed fault u =>
          rw [hrun] at hbody
          obtain ⟨calls, hleads, hactive⟩ := hbody
          have hstop (rest : List Tree) : statementsFrom fuel last (tree :: rest) limits t =
              .failed fault u := by
            rw [statementsFrom_cons, bind_of_failed]
            rw [topStatement, bind_of_done hline, bind_of_failed hrun]
          obtain ⟨events, hadvances⟩ :=
            exists_advances_of_stop hstop (fun _ _ h => by cases h) hleads
          exact ⟨1, events, calls, hadvances, hstop trees ▸ hactive⟩
      | outOfFuel u =>
          rw [hrun] at hbody
          obtain ⟨calls, hleads⟩ := hbody
          have hstop (rest : List Tree) : statementsFrom fuel last (tree :: rest) limits t =
              .outOfFuel u := by
            rw [statementsFrom_cons, bind_apply, topStatement, bind_of_done hline, bind_apply, hrun]
          obtain ⟨events, hadvances⟩ :=
            exists_advances_of_stop hstop (fun _ _ h => by cases h) hleads
          exact ⟨1, events, calls, hadvances, hstop trees ▸ trivial⟩

/-- The lines that a run adds to a trace are a prefix of well bracketed ones, and tell of the
statements that it starts: these are those in front of which the program can be run, and the first
one always. A run that is done has started all statements and leaves no call open. A run that fails
leaves those calls open, and only those, that it came to, whose lines were noted, and that
failed. -/
theorem program_traced (hlevel : 1 ≤ limits.traceLevel) (fuel : Nat) (trees : List Tree)
    (s : State) :
    ∃ started events calls,
      (program fuel trees limits s).after.trace.toList = s.trace.toList ++ events ∧
      Traced trees s.trace.size started events calls ∧
      (∃ later, openCalls s.trace.size [] (events ++ later) = some []) ∧
      (∀ k < trees.length, k < started ↔
        ∃ v t, program fuel (trees.take k) limits s = .done v t) ∧
      match program fuel trees limits s with
      | .done _ _ => started = trees.length ∧ calls = []
      | .failed _ _ => ∀ call, call ∈ calls ↔
          limits.depth ≤ greatestDepth ∧ call.IsActive limits (.program trees) s
      | .outOfFuel _ => True := by
  by_cases hdepth : greatestDepth < limits.depth
  · have hrefused (rest : List Tree) : program fuel rest limits s = .failed .limitTooLarge s :=
      if_pos hdepth
    refine ⟨0, [], [], ?_, traced_nil trees _, ⟨[], rfl⟩, ?_, ?_⟩
    · simp [hrefused, Outcome.after]
    · simp [hrefused]
    · rw [hrefused]
      simp [Int.not_le.mpr hdepth]
  · have hruns (rest : List Tree) : program fuel rest limits s =
        statementsFrom fuel .none rest limits s := if_neg hdepth
    obtain ⟨started, events, calls, ⟨hevents, htraced, hstarted⟩, hleaves⟩ :=
      exists_advances hlevel fuel (.start : Comes limits (.program trees) s (.program trees) s)
        .none
    refine ⟨started, events, calls, hruns trees ▸ hevents, htraced,
      exists_closing htraced.openCalls_eq, ?_, ?_⟩
    · simpa only [hruns] using hstarted
    · rw [hruns]
      cases hout : statementsFrom fuel .none trees limits s with
      | done v t =>
          rw [hout] at hleaves
          exact hleaves
      | failed fault t =>
          rw [hout] at hleaves hevents
          have hwork : work fuel (.program trees) limits s = .failed fault t := bind_of_failed hout
          refine fun call => ⟨fun hmem => ⟨Int.not_lt.mp hdepth, hleaves call hmem⟩, fun h => ?_⟩
          exact mem_of_isActive hlevel h.2 hwork hevents htraced.openCalls_eq
      | outOfFuel t => trivial

/-- A function without statements, and the call of another one with the value that it returns. The
other one has a variable in its body that is not there. -/
def argumentCall : List Tree := [
  .functionDeclaration (.text "g") (.list []) (.list []),
  .functionDeclaration (.text "f") (.list [.text "a"])
    (.list [.expressionStatement (.variable (.text "b"))]),
  .expressionStatement (.call (.text "f") (.list [.call (.text "g") (.list [])]))]

/-- The lines of such a program at the lowest level. -/
def argumentEvents : List Event := [
  .executing "FunctionDeclaration", .executing "FunctionDeclaration",
  .executing "ExpressionStatement", .calling (.text "g") [], .returned (.text "g") "none",
  .calling (.text "f") ["none"]]

/-- The call that is the argument has returned, and the one that takes it is active. -/
theorem program_traced_argument :
    1 ≤ (⟨1500, 1⟩ : Limits).traceLevel ∧
      (program 9 argumentCall ⟨1500, 1⟩ .start).after.trace.toList = argumentEvents ∧
      ∀ call : OpenCall, call.IsActive ⟨1500, 1⟩ (.program argumentCall) .start ↔
        call = ⟨5, .text "f"⟩ := by
  have hfailed : program 9 argumentCall ⟨1500, 1⟩ .start =
      .failed (.undefinedVariable (.text "b"))
        ⟨⟨[(.text "a", .none)]⟩, ⟨[(.text "g", ⟨.list [], .list []⟩),
          (.text "f", ⟨.list [.text "a"], .list [.expressionStatement (.variable (.text "b"))]⟩)]⟩,
          Heap.empty, 0, #[], argumentEvents.toArray⟩ := by cbv
  have hrun := @program_traced ⟨1500, 1⟩ (Nat.le_refl 1) 9 argumentCall .start
  rw [hfailed] at hrun ⊢
  obtain ⟨started, lines, calls, hlines, htraced, -, -, hends⟩ := hrun
  obtain rfl : lines = argumentEvents := hlines.symm
  have hcalls : [⟨5, .text "f"⟩] = calls := Option.some.inj htraced.openCalls_eq
  refine ⟨Nat.le_refl 1, rfl, fun call => ?_⟩
  rw [← List.mem_singleton, hcalls, hends call]
  exact (and_iff_right (by decide)).symm

end Programs

end Run

end Sprig
