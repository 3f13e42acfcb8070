/-!
# JSON values

A JSON number without fraction and exponent is an integer of any size; every other number is a
binary64 value. An object keeps its entries as they were written, and the last entry of a name is
the one that counts.
-/

namespace Sprig

/-- A JSON value. -/
inductive Json
  | null
  | boolean (b : Bool)
  | integer (k : Int)
  | number (x : Float)
  | text (s : String)
  | list (items : List Json)
  | object (entries : List (String × Json))
deriving Inhabited

namespace Json

/-- The last of the entries with a name. -/
def lastWith? {α : Type} (entries : List (String × α)) (name : String) : Option α :=
  (entries.reverse.find? fun entry => entry.1 = name).map (·.2)

/-- The value that an object gives to a name. -/
def field? (value : Json) (name : String) : Option Json :=
  match value with
  | .object entries => lastWith? entries name
  | _ => none

/-- Without entries there is no value to find. -/
@[simp] theorem lastWith?_nil {α : Type} (name : String) :
    lastWith? ([] : List (String × α)) name = none := rfl

/-- A later entry decides for its own name only. -/
theorem lastWith?_concat {α : Type} (entries : List (String × α)) (key name : String) (a : α) :
    lastWith? (entries ++ [(key, a)]) name =
      if key = name then some a else lastWith? entries name := by
  by_cases h : key = name <;> simp [lastWith?, h]

end Json

end Sprig
