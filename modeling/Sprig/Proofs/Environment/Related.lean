import Mathlib.Data.List.Forall2
import Mathlib.Data.Option.Basic
import Sprig.Environment.Table

/-!
# Related tables

Two tables are related when they bind the same names in the same order, and what they bind them to
is related. What is looked up is related then, and tables stay related when a name is bound anew in
both.
-/

namespace Sprig.Table

variable {α β : Type} {R : α → β → Prop} {table : Table α} {other : Table β} {a : α} {b : β}

/-- Whether two tables bind the same names to what is related. -/
def Related (R : α → β → Prop) (table : Table α) (other : Table β) : Prop :=
  List.Forall₂ (fun entry entry' => entry.1 = entry'.1 ∧ R entry.2 entry'.2) table.entries
    other.entries

theorem related_refl {R : α → α → Prop} (h : ∀ a, R a a) (table : Table α) :
    table.Related R table :=
  List.forall₂_same.mpr fun entry _ => ⟨rfl, h entry.2⟩

theorem Related.get? (h : table.Related R other) (name : Scalar) :
    Option.Rel R (table.get? name) (other.get? name) := by
  obtain ⟨entries⟩ := table
  obtain ⟨entries'⟩ := other
  simp only [Related, Table.get?] at h ⊢
  induction h with
  | nil => exact .none
  | @cons entry entry' _ _ head _ ih =>
      obtain ⟨hname, hvalue⟩ := head
      simp only [List.find?_cons, hname]
      by_cases hfound : entry'.1.key = name.key
      · simpa [hfound] using Option.Rel.some hvalue
      · simpa [hfound] using ih

theorem Related.set (h : table.Related R other) (name : Scalar) (hab : R a b) :
    (table.set name a).Related R (other.set name b) := by
  obtain ⟨entries⟩ := table
  obtain ⟨entries'⟩ := other
  simp only [Related, Table.set] at h ⊢
  induction h with
  | nil => exact .cons ⟨rfl, hab⟩ .nil
  | @cons entry entry' _ _ head tail ih =>
      obtain ⟨hname, hvalue⟩ := head
      simp only [bindIn, hname]
      split
      · exact .cons ⟨rfl, hab⟩ tail
      · exact .cons ⟨hname, hvalue⟩ ih

end Sprig.Table
