import Sprig.Numeric.Binary
import Sprig.Tree.Basic

/-!
# Tables of names

A table binds names to variables or functions. In a program that was parsed a name is a text. A
tree made by hand may use any scalar, and then truth values and whole Numbers name the same as the
integers they are equal to.
-/

namespace Sprig

/-- The scalar by which a name is found. -/
def Scalar.key : Scalar → Scalar
  | .boolean b => .integer (if b then 1 else 0)
  | .number x =>
    match Numeric.wholeNumber? x with
    | some k => .integer k
    | Option.none => .number x
  | scalar => scalar

/-- Bindings of names, in the order in which the names came. -/
structure Table (α : Type) where
  /-- The names with what they are bound to. -/
  entries : List (Scalar × α)

namespace Table

variable {α : Type}

/-- The table without a name. -/
def empty : Table α := ⟨[]⟩

/-- What a name is bound to. -/
def get? (table : Table α) (name : Scalar) : Option α :=
  (table.entries.find? fun entry => entry.1.key = name.key).map (·.2)

/-- Whether a name is bound. -/
def contains (table : Table α) (name : Scalar) : Bool := (table.get? name).isSome

/-- Some entries with a name bound anew. -/
def bindIn (name : Scalar) (a : α) : List (Scalar × α) → List (Scalar × α)
  | [] => [(name, a)]
  | entry :: entries =>
    if entry.1.key = name.key then (entry.1, a) :: entries else entry :: bindIn name a entries

/-- The table with a name bound anew; a name that is new goes to the end. -/
def set (table : Table α) (name : Scalar) (a : α) : Table α := ⟨bindIn name a table.entries⟩

/-- Nothing is bound in the empty table. -/
@[simp] theorem get?_empty (name : Scalar) : (empty : Table α).get? name = none := rfl

/-- Binding a name changes what that name is bound to, and nothing else. -/
theorem get?_set (table : Table α) (name other : Scalar) (a : α) :
    (table.set name a).get? other =
      if name.key = other.key then some a else table.get? other := by
  obtain ⟨entries⟩ := table
  simp only [get?, set]
  induction entries with
  | nil => by_cases h : name.key = other.key <;> simp [bindIn, h]
  | cons entry entries ih =>
    simp only [bindIn]
    by_cases hentry : entry.1.key = name.key
    · by_cases h : name.key = other.key <;> simp [hentry, h]
    · by_cases h : entry.1.key = other.key
      · have hne : ¬name.key = other.key := fun hname => hentry (h.trans hname.symm)
        have hback : ¬other.key = name.key := fun hname => hne hname.symm
        simp [h, hne, hback]
      · simp [hentry, h, ih]

end Table

end Sprig
