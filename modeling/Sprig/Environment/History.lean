import Sprig.Environment.Table
import Sprig.Value.Basic

/-!
# Variables with snapshots

The variables of a running program are one table, the live one. A snapshot keeps a copy of it.
Restoring a snapshot makes the kept table itself the live one, so what is bound from then on is
bound in the snapshot too.
-/

namespace Sprig

/-- A live table and kept ones. -/
structure History where
  /-- The table that was live at the start, and behind it the kept tables. -/
  tables : Array (Table Value)
  /-- The index of the live table. -/
  live : Nat

namespace History

/-- The history before anything is bound. -/
def start : History := ⟨#[Table.empty], 0⟩

/-- The live table. -/
def current (history : History) : Table Value := (history.tables[history.live]?).getD Table.empty

/-- Binds a name in the live table. -/
def set (history : History) (name : Scalar) (v : Value) : History :=
  { history with tables := history.tables.modify history.live (·.set name v) }

/-- Keeps a copy of the live table, and tells the number of the snapshot. -/
def snapshot (history : History) : Nat × History :=
  (history.tables.size - 1, { history with tables := history.tables.push history.current })

/-- The table that a snapshot kept. -/
def kept? (history : History) (number : Nat) : Option (Table Value) := history.tables[number + 1]?

/-- Makes the table of a snapshot the live one, if there is such a snapshot. -/
def restore (history : History) (number : Nat) : History :=
  if number + 1 < history.tables.size then { history with live := number + 1 } else history

/-- A restored snapshot is live with what it kept. -/
theorem current_restore {history : History} {number : Nat} {table : Table Value}
    (h : history.kept? number = some table) : (history.restore number).current = table := by
  obtain ⟨hlt, _⟩ := Array.getElem?_eq_some_iff.mp h
  simp only [restore, hlt, if_true, current]
  rw [show history.tables[number + 1]? = some table from h]
  rfl

end History

end Sprig
