import Sprig.Environment.Table
import Sprig.Run.Event
import Sprig.Run.Fault
import Sprig.Value.Display

/-!
# Runs

A step of a run takes the state of the run and ends in one of three ways: it is done with a value,
it fails, or its fuel is spent. Each way tells the state at the end, so what was printed before a
fault is known. Nothing is undone when a step fails.

## Implementation notes

Fuel bounds the recursion of the interpreter and is no part of the language: with more fuel a step
that is done or has failed ends as before.

Two things are assumed of the stack of the machine. Working on nodes takes none of it, so that what
ends a run for its depth is always the depth that is allowed. And what texts may take of it is one
number for the whole run, whatever the depth at which a text is made. A machine with a real stack
has less of it left for a text inside of many nodes, and may run out of it in front of the depth
that is allowed.
-/

namespace Sprig

/-- A function that was declared: the parameters and the body of its declaration. -/
structure Function where
  /-- The parameters. -/
  params : Tree
  /-- The body. -/
  body : Tree
deriving Inhabited

/-- The state of a run. -/
structure State where
  /-- What the variables are bound to. -/
  bindings : Table Value
  /-- The functions declared so far. -/
  functions : Table Function
  /-- The contents of the arrays. -/
  heap : Heap
  /-- How many nodes are being worked on, each inside the one before. -/
  depth : Nat
  /-- The lines printed so far, each with its end. -/
  printed : Array String
  /-- The events noted so far. -/
  trace : Array Event

/-- The state in which nothing has run. -/
def State.start : State := ⟨Table.empty, Table.empty, Heap.empty, 0, #[], #[]⟩

/-- What a run is bound to from outside. -/
structure Limits where
  /-- How many nodes may be worked on, each inside the one before. -/
  depth : Int
  /-- Up to which level events are noted. -/
  traceLevel : Nat
deriving DecidableEq, Repr

/-- The depth that is allowed when nothing else is said. -/
def Limits.usualDepth : Int := 1500

/-- How deeply arrays may be nested in a text. The stack has three frames for each unit of the depth
that is allowed, over a reserve and never fewer than a thousand. All but two hundred of them are for
texts, and each level of a text takes two. -/
def Limits.textAllowance (limits : Limits) : Nat :=
  (max 1000 (3 * limits.depth + 500).toNat - 200) / 2

/-- The usual depth comes with the usual allowance. -/
theorem Limits.textAllowance_usual (level : Nat) :
    textAllowance ⟨usualDepth, level⟩ = Value.displayAllowance := by
  simp [textAllowance, usualDepth, Value.displayAllowance]

/-- How a step of a run ends. -/
inductive Outcome (α : Type)
  | done (value : α) (after : State)
  | failed (fault : Fault) (after : State)
  | outOfFuel (after : State)

/-- The state at the end of a step. -/
def Outcome.after {α : Type} : Outcome α → State
  | .done _ after => after
  | .failed _ after => after
  | .outOfFuel after => after

/-- A step of a run. -/
def Run (α : Type) : Type := Limits → State → Outcome α

namespace Run

variable {α β : Type}

/-- Runs one step, and on its value and state the next one. -/
@[always_inline, inline]
def andThen (first : Run α) (next : α → Run β) : Run β := fun limits s =>
  match first limits s with
  | .done value after => next value limits after
  | .failed fault after => .failed fault after
  | .outOfFuel after => .outOfFuel after

instance : Monad Run where
  pure value := fun _ s => .done value s
  bind := andThen

/-- Fails. -/
def fail (fault : Fault) : Run α := fun _ s => .failed fault s

/-- Gives up because no fuel is left. -/
def spent : Run α := fun _ s => .outOfFuel s

/-- A part of the state. -/
@[inline] def read (part : State → α) : Run α := fun _ s => .done (part s) s

/-- Changes the state. -/
@[inline] def change (f : State → State) : Run Unit := fun _ s => .done () (f s)

/-- Goes on with the value of a computation that may fail. -/
def lift : Except Fault α → Run α
  | .ok value => pure value
  | .error fault => fail fault

/-- The value of a variable. -/
def lookup (name : Scalar) : Run Value := do
  match ← read (·.bindings.get? name) with
  | some v => return v
  | none => fail (.undefinedVariable name)

/-- The address of the array that a variable holds. -/
def lookupArray (name : Scalar) : Run Address := do
  match ← lookup name with
  | .array address => return address
  | _ => fail (.notAnArray name)

/-- Binds a variable. -/
def assign (name : Scalar) (v : Value) : Run Unit :=
  change fun s => { s with bindings := s.bindings.set name v }

/-- The items of an array. -/
def itemsOf (address : Address) : Run (Array Value) := read (·.heap.items address)

/-- A new array. -/
def newArray (items : Array Value) : Run Value := fun _ s =>
  let (address, heap) := s.heap.allocate items
  .done (.array address) { s with heap }

/-- Changes the items of an array. -/
def updateArray (address : Address) (f : Array Value → Array Value) : Run Unit :=
  change fun s => { s with heap := s.heap.update address f }

/-- The text of a value. -/
def display (v : Value) : Run String := fun limits s =>
  match v.display? s.heap limits.textAllowance with
  | some text => .done text s
  | none => .failed .textTooDeep s

/-- The texts of some values. -/
def displayAll (vs : List Value) : Run (List String) := fun limits s =>
  match vs.mapM (Value.display? s.heap limits.textAllowance) with
  | some texts => .done texts s
  | none => .failed .textTooDeep s

/-- Prints a line. -/
def printLine (text : String) : Run Unit :=
  change fun s => { s with printed := s.printed.push (text ++ "\n") }

/-- Notes an event if the trace reaches a level; otherwise the event is not even made. -/
def note (level : Nat) (event : Run Event) : Run Unit := fun limits s =>
  if limits.traceLevel < level then .done () s
  else (do let event ← event; change fun s => { s with trace := s.trace.push event }) limits s

/-- Works on a node inside of those that are being worked on, if the limit allows one more. -/
def nested (kind : NodeKind) (work : Run α) : Run α := fun limits s =>
  if limits.depth < (s.depth : Int) + 1 then .failed (.depthExceeded limits.depth kind) s
  else
    match work limits { s with depth := s.depth + 1 } with
    | .done value after => .done value { after with depth := after.depth - 1 }
    | .failed fault after => .failed fault { after with depth := after.depth - 1 }
    | .outOfFuel after => .outOfFuel after

/-- One step after the other, in the terms of the outcomes. -/
theorem bind_apply (first : Run α) (next : α → Run β) (limits : Limits) (s : State) :
    (first >>= next) limits s =
      match first limits s with
      | .done value after => next value limits after
      | .failed fault after => .failed fault after
      | .outOfFuel after => .outOfFuel after := rfl

/-- A value without a step leaves the state alone. -/
@[simp] theorem pure_apply (value : α) (limits : Limits) (s : State) :
    (pure value : Run α) limits s = .done value s := rfl

/-- Without a trace nothing is noted. -/
theorem note_of_lt {level : Nat} {limits : Limits} (h : limits.traceLevel < level)
    (event : Run Event) (s : State) : note level event limits s = .done () s := by
  simp [note, h]

end Run

end Sprig
