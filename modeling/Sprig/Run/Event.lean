import Sprig.Value.Basic

/-!
# Events of a run

A run that is traced notes events, each as one line of text. Every event has a level of detail, and
a run notes the events up to the level that was asked for.
-/

namespace Sprig

/-- What a run can note. -/
inductive Event
  /-- A statement of the program starts. -/
  | executing (label : String)
  /-- A function is called with arguments. -/
  | calling (name : Scalar) (args : List String)
  /-- A function ends with a value. -/
  | returned (name : Scalar) (value : String)
  /-- A variable is assigned a value. -/
  | assigned (name : Scalar) (kind : Value.Kind) (value : String)
  /-- A parameter is bound to a value. -/
  | bound (param : Scalar) (value : String)
  /-- A function is declared. -/
  | defined (name : Scalar) (params : List String)
  /-- The condition of a branch is tested. -/
  | branchTested (value : String) (holds : Bool)
  /-- The condition of a loop is tested. -/
  | loopTested (value : String) (holds : Bool)
  /-- An element of an array is set. -/
  | elementSet (array : Scalar) (index value : String)
  /-- A method of an array gives a value. -/
  | methodAnswered (array method : Scalar) (value : String)
deriving DecidableEq, Repr

namespace Event

/-- The level of detail at which an event is noted. -/
def level : Event → Nat
  | executing _ => 1
  | calling _ _ => 1
  | returned _ _ => 1
  | assigned _ _ _ => 2
  | bound _ _ => 2
  | defined _ _ => 2
  | branchTested _ _ => 3
  | loopTested _ _ => 3
  | elementSet _ _ _ => 3
  | methodAnswered _ _ _ => 3

/-- Some texts between parentheses. -/
def inParens (texts : List String) : String := "(" ++ String.intercalate ", " texts ++ ")"

/-- An event as a line, without the end of the line. -/
def text : Event → String
  | executing label => "execute " ++ label
  | calling name args => "call " ++ name.shown ++ inParens args
  | returned name value => "return from " ++ name.shown ++ ": " ++ value
  | assigned name kind value => "assign " ++ name.shown ++ ": " ++ kind.name ++ " = " ++ value
  | bound param value => "bind " ++ param.shown ++ " = " ++ value
  | defined name params => "define function " ++ name.shown ++ inParens params
  | branchTested value holds => "if condition " ++ value ++ " -> " ++ boolWord holds
  | loopTested value holds => "while condition " ++ value ++ " -> " ++ boolWord holds
  | elementSet array index value => "set " ++ array.shown ++ "[" ++ index ++ "] = " ++ value
  | methodAnswered array method value => array.shown ++ "." ++ method.shown ++ " -> " ++ value

/-- Some events as lines, one after the other. -/
def lines (events : List Event) : String :=
  String.join (events.map fun event => event.text ++ "\n")

/-- There are three levels of detail. -/
theorem level_mem (event : Event) : event.level ∈ [1, 2, 3] := by cases event <;> simp [level]

end Event

end Sprig
