import Sprig.Proofs.Run.Contract
import Sprig.Run.Operator

/-!
# The calls that a trace leaves open

A trace has a line for each call, once the arguments are there, and one for its end, once the
variables are put back. Read from the front, each of its lines opens a call, closes the latest open
one, or does neither. The steps that the interpreter takes between the nodes of a program do
neither, whether they are done or fail.

## Implementation notes

What a part of a trace opens and closes is said for whatever calls are open in front of it. So parts
that follow one another are put together without a look at what is in them, and no part in which a
statement of the program starts is among them.
-/

namespace Sprig

/-- A call that a trace leaves open. -/
structure OpenCall where
  /-- Where the line of the call stands in the trace. -/
  place : Nat
  /-- The name of the function. -/
  name : Scalar
deriving DecidableEq, Repr

namespace Event

/-- The open calls behind a line, with the latest one in front. The end of a call names the latest
open call and closes it, and a statement of the program starts where no call is open. -/
def opens (place : Nat) (calls : List OpenCall) : Event → Option (List OpenCall)
  | calling name _ => some (⟨place, name⟩ :: calls)
  | returned name _ =>
    match calls with
    | latest :: others => if latest.name = name then some others else none
    | [] => none
  | executing _ => if calls.isEmpty then some [] else none
  | _ => some calls

/-- The statement of the program that starts. -/
def executed? : Event → Option String
  | executing label => some label
  | _ => none

/-- Whether an event neither opens nor closes a call, nor starts a statement of the program. -/
def IsPlain : Event → Prop
  | executing _ | calling _ _ | returned _ _ => False
  | _ => True

theorem opens_of_isPlain {event : Event} (h : event.IsPlain) (place : Nat)
    (calls : List OpenCall) : event.opens place calls = some calls := by
  cases event with
  | executing | calling | returned => exact h.elim
  | _ => rfl

end Event

/-- The open calls behind lines that start at a place, with the latest one in front. There are none
to tell when a line does not belong where it stands. -/
def openCalls : (place : Nat) → List OpenCall → List Event → Option (List OpenCall)
  | _, calls, [] => some calls
  | place, calls, event :: events =>
    (event.opens place calls).bind fun calls => openCalls (place + 1) calls events

theorem openCalls_append (place : Nat) (calls : List OpenCall) (events later : List Event) :
    openCalls place calls (events ++ later) =
      (openCalls place calls events).bind (openCalls (place + events.length) · later) := by
  induction events generalizing place calls with
  | nil => rfl
  | cons event events ih =>
      simp only [List.cons_append, openCalls, List.length_cons, Option.bind_assoc, ih]
      congr 1
      funext calls
      rw [Nat.add_assoc, Nat.add_comm 1]

theorem openCalls_returned (place : Nat) (calls : List OpenCall) :
    openCalls place calls (calls.map fun call => .returned call.name "") = some [] := by
  induction calls generalizing place with
  | nil => rfl
  | cons call calls ih => simpa [openCalls, Event.opens] using ih (place + 1)

/-- What is open can be closed, the latest call first. -/
theorem exists_closing {place : Nat} {events : List Event} {base calls : List OpenCall}
    (h : openCalls place base events = some calls) :
    ∃ later, openCalls place base (events ++ later) = some [] :=
  ⟨_, by rw [openCalls_append, h, Option.bind_some]; exact openCalls_returned _ calls⟩

/-- Lines that belong where they stand on top of any open calls start no statement. -/
theorem executed_of_openCalls {place : Nat} {calls : List OpenCall} {events : List Event}
    (h : ∀ base, (openCalls place (calls ++ base) events).isSome) :
    events.filterMap Event.executed? = [] := by
  induction events generalizing place calls with
  | nil => rfl
  | cons event events ih =>
      cases event with
      | executing label =>
          have hnone := h [⟨0, .none⟩]
          simp [openCalls, Event.opens] at hnone
      | calling name args => exact @ih (place + 1) (⟨place, name⟩ :: calls) h
      | returned name value =>
          cases calls with
          | nil => exact absurd (h []) (by simp [openCalls, Event.opens])
          | cons latest calls =>
              by_cases hname : latest.name = name
              · refine @ih (place + 1) calls fun base => ?_
                simpa [openCalls, Event.opens, hname] using h base
              · exact absurd (h []) (by simp [openCalls, Event.opens, hname])
      | _ => exact ih h

/-- From one state to another the trace closes some calls and opens others, whatever calls are open
behind these. -/
def State.Leads (s t : State) (calls later : List OpenCall) : Prop :=
  ∃ events, t.trace.toList = s.trace.toList ++ events ∧
    ∀ base, openCalls s.trace.size (calls ++ base) events = some (later ++ base)

namespace State

variable {s t u : State} {calls later last : List OpenCall}

theorem Leads.of_trace (h : t.trace = s.trace) : s.Leads t calls calls :=
  ⟨[], by rw [h, List.append_nil], fun _ => rfl⟩

theorem Leads.trans (h : s.Leads t calls later) (h' : t.Leads u later last) :
    s.Leads u calls last := by
  obtain ⟨events, htrace, hopen⟩ := h
  obtain ⟨others, htrace', hopen'⟩ := h'
  refine ⟨events ++ others, by rw [htrace', htrace, List.append_assoc], fun base => ?_⟩
  have hsize : t.trace.size = s.trace.size + events.length := by
    simpa using congrArg List.length htrace
  rw [openCalls_append, hopen, Option.bind_some, ← hsize, hopen']

/-- Calls behind those that are opened and closed stay open. -/
theorem Leads.frame (h : s.Leads t calls later) (others : List OpenCall) :
    s.Leads t (calls ++ others) (later ++ others) := by
  obtain ⟨events, htrace, hopen⟩ := h
  refine ⟨events, htrace, fun base => ?_⟩
  rw [List.append_assoc, List.append_assoc, hopen]

/-- An event leads from the open calls to those behind its line. -/
theorem leads_push {event : Event}
    (h : ∀ base, event.opens s.trace.size (calls ++ base) = some (later ++ base)) :
    s.Leads { s with trace := s.trace.push event } calls later :=
  ⟨[event], Array.toList_push, fun base => by rw [openCalls, h]; rfl⟩

end State

namespace Run

variable {α β : Type}

/-- Whether a step opens and closes no call, however it ends. -/
def Quiet (run : Run α) : Prop :=
  ∀ limits (s : State), s.Leads (run limits s).after [] []

theorem Quiet.leads {run : Run α} (h : Quiet run) {limits : Limits} {s t : State} {v : α}
    (hdone : run limits s = .done v t) : s.Leads t [] [] := by
  have hrun := h limits s
  rwa [hdone] at hrun

theorem quiet_of_trace {run : Run α}
    (h : ∀ limits s, (run limits s).after.trace = s.trace) : Quiet run :=
  fun limits s => .of_trace (h limits s)

theorem quiet_pure (v : α) : Quiet (pure v) := quiet_of_trace fun _ _ => rfl

theorem quiet_fail (fault : Fault) : Quiet (fail fault : Run α) := quiet_of_trace fun _ _ => rfl

theorem quiet_read (part : State → α) : Quiet (read part) := quiet_of_trace fun _ _ => rfl

theorem quiet_change {f : State → State} (h : ∀ s, (f s).trace = s.trace) : Quiet (change f) :=
  quiet_of_trace fun _ => h

theorem quiet_bind {first : Run α} {next : α → Run β} (hfirst : Quiet first)
    (hnext : ∀ a, Quiet (next a)) : Quiet (first >>= next) := by
  intro limits s
  have hout := hfirst limits s
  rw [bind_apply]
  cases hrun : first limits s with
  | done a mid =>
      rw [hrun] at hout
      exact hout.trans (hnext a limits mid)
  | failed fault after =>
      rw [hrun] at hout
      exact hout
  | outOfFuel after =>
      rw [hrun] at hout
      exact hout

/-- Whether a step is quiet, and its value is a plain event. -/
structure TellsPlainly (event : Run Event) : Prop where
  quiet : Quiet event
  plain : ∀ {limits s e t}, event limits s = .done e t → e.IsPlain

theorem quiet_lift (result : Except Fault α) : Quiet (lift result) := by
  cases result with
  | ok v => exact quiet_pure v
  | error fault => exact quiet_fail fault

section Texts

theorem quiet_display (v : Value) : Quiet (display v) := by
  refine quiet_of_trace fun limits s => ?_
  unfold display
  split <;> rfl

theorem quiet_displayAll (vs : List Value) : Quiet (displayAll vs) := by
  refine quiet_of_trace fun limits s => ?_
  unfold displayAll
  split <;> rfl

theorem quiet_printLine (text : String) : Quiet (printLine text) := quiet_change fun _ => rfl

theorem tellsPlainly_pure {event : Event} (h : event.IsPlain) : TellsPlainly (pure event) where
  quiet := quiet_pure event
  plain hdone := (Outcome.done.inj hdone).1 ▸ h

theorem tellsPlainly_bind {run : Run α} {next : α → Run Event} (h : Quiet run)
    (hnext : ∀ a, TellsPlainly (next a)) : TellsPlainly (run >>= next) where
  quiet := quiet_bind h fun a => (hnext a).quiet
  plain hdone := by
    obtain ⟨a, mid, -, hdone⟩ := exists_of_bind hdone
    exact (hnext a).plain hdone

theorem quiet_note (level : Nat) {event : Run Event} (h : TellsPlainly event) :
    Quiet (note level event) := by
  intro limits s
  unfold note
  split
  · exact .of_trace rfl
  · have hevent := h.quiet limits s
    rw [bind_apply]
    cases hrun : event limits s with
    | done e mid =>
        rw [hrun] at hevent
        exact hevent.trans (State.leads_push fun base => Event.opens_of_isPlain (h.plain hrun) _ _)
    | failed fault after =>
        rw [hrun] at hevent
        exact hevent
    | outOfFuel after =>
        rw [hrun] at hevent
        exact hevent

/-- Noting a plain event about a value. -/
theorem quiet_noteText (level : Nat) (v : Value) {event : String → Event}
    (h : ∀ text, (event text).IsPlain) : Quiet (note level (do return event (← display v))) :=
  quiet_note level (tellsPlainly_bind (quiet_display v) fun text => tellsPlainly_pure (h text))

end Texts

section Parts

theorem quiet_scalarPart (tree : Tree) : Quiet (scalarPart tree) := by
  unfold scalarPart
  split
  · exact quiet_pure _
  · exact quiet_fail _

theorem quiet_listPart (tree : Tree) : Quiet (listPart tree) := by
  unfold listPart
  split
  · exact quiet_pure _
  · exact quiet_fail _

theorem quiet_textParts (trees : List Tree) : Quiet (textParts trees) := by
  rcases textParts_cases trees with ⟨names, -, hnames⟩ | ⟨-, hfail⟩
  · rw [hnames]
    exact quiet_pure names
  · rw [hfail]
    exact quiet_fail _

end Parts

section Variables

theorem quiet_lookup (name : Scalar) : Quiet (lookup name) := by
  apply quiet_bind (quiet_read _)
  intro v?
  cases v? with
  | none => exact quiet_fail _
  | some v => exact quiet_pure v

theorem quiet_lookupArray (name : Scalar) : Quiet (lookupArray name) := by
  apply quiet_bind (quiet_lookup name)
  intro v
  cases v with
  | array address => exact quiet_pure address
  | _ => exact quiet_fail _

theorem quiet_assign (name : Scalar) (v : Value) : Quiet (assign name v) :=
  quiet_change fun _ => rfl

theorem quiet_bindAll (params : List Tree) (args : List Value) : Quiet (bindAll params args) := by
  induction params generalizing args with
  | nil => exact quiet_pure ()
  | cons param params ih =>
      apply quiet_bind (quiet_scalarPart param)
      intro name
      apply quiet_bind (quiet_assign name _)
      intro _
      exact quiet_bind (quiet_noteText 2 _ fun _ => trivial) fun _ => ih args.tail

end Variables

section Arrays

theorem quiet_applyBinary (operator : Scalar) (left right : Value) :
    Quiet (applyBinary operator left right) := by
  unfold applyBinary
  split
  · apply quiet_bind (quiet_display left)
    intro front
    exact quiet_bind (quiet_display right) fun back => quiet_pure _
  · exact quiet_lift _

theorem quiet_updateArray (address : Address) (f : Array Value → Array Value) :
    Quiet (updateArray address f) :=
  quiet_change fun _ => rfl

theorem quiet_newArray (items : Array Value) : Quiet (newArray items) :=
  quiet_of_trace fun _ _ => rfl

theorem quiet_checkIndex (address : Address) (index : Value) : Quiet (checkIndex address index) :=
  quiet_bind (quiet_read _) fun place => quiet_lift place

theorem quiet_elementAt (address : Address) (index : Value) : Quiet (elementAt address index) :=
  quiet_bind (quiet_checkIndex address index) fun _ => quiet_read _

theorem quiet_setElement (address : Address) (index v : Value) :
    Quiet (setElement address index v) :=
  quiet_bind (quiet_checkIndex address index) fun _ => quiet_updateArray address _

theorem quiet_joinItems (address : Address) (args : List Value) :
    Quiet (joinItems address args) := by
  have hrest : ∀ separator : String, Quiet (do
      let items ← itemsOf address
      let texts ← displayAll items.toList
      return Value.text (String.intercalate separator texts)) := by
    intro separator
    apply quiet_bind (quiet_read _)
    intro items
    exact quiet_bind (quiet_displayAll _) fun texts => quiet_pure _
  unfold joinItems
  dsimp only
  split
  · exact quiet_bind (quiet_display _) hrest
  · exact hrest ","

theorem quiet_applyMethod (address : Address) (method : Scalar) (args : List Value) :
    Quiet (applyMethod address method args) := by
  unfold applyMethod
  split
  · apply quiet_bind (quiet_updateArray address _)
    intro _
    exact quiet_bind (quiet_read _) fun items => quiet_pure _
  split
  · apply quiet_bind (quiet_read _)
    intro last
    exact quiet_bind (quiet_updateArray address _) fun _ => quiet_pure _
  split
  · exact quiet_joinItems address args
  · exact quiet_fail _

theorem quiet_applyProperty (address : Address) (property : Scalar) :
    Quiet (applyProperty address property) := by
  unfold applyProperty
  split
  · exact quiet_bind (quiet_read _) fun items => quiet_pure _
  · exact quiet_fail _

end Arrays

end Run

end Sprig
