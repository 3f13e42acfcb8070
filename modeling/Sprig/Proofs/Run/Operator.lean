import Sprig.Run.Element
import Sprig.Run.Operator

/-!
# What operators can do

For each operator, the values that it gives and the faults that it can fail with. A run depends on
operators through these statements only, so what is said here about an operator is said once for
everything that a run keeps.
-/

namespace Sprig.Run

variable {operator : Scalar} {v w left right : Value} {fault : Fault}

/-- A sign in front of a value makes a Number. -/
theorem exists_number_of_applyUnary (h : applyUnary operator v = .ok w) : ∃ x, w = .number x := by
  unfold applyUnary at h
  split at h
  · split at h
    · exact ⟨_, (Except.ok.inj h).symm⟩
    · cases h
  · cases h

/-- A sign is refused in front of what is no Number. -/
theorem fault_of_applyUnary (h : applyUnary operator v = .error fault) :
    (operator ≠ .text "-" ∧ fault = .unknownOperator .unary operator) ∨
      ¬v.isNumber ∧ fault = .negationOf v.kind := by
  unfold applyUnary at h
  split at h
  · cases v with
    | number x => cases h
    | _ => exact .inr ⟨nofun, (Except.error.inj h).symm⟩
  · next hne => exact .inl ⟨hne, (Except.error.inj h).symm⟩

theorem fault_of_apply {op : Arithmetic} {x y : Float} (h : op.apply x y = .error fault) :
    fault = .divisionByZero := by
  cases op with
  | divide =>
      simp only [Arithmetic.apply] at h
      split at h
      · exact (Except.error.inj h).symm
      · cases h
  | _ => cases h

/-- Arithmetic makes Numbers. -/
theorem exists_number_of_applyArithmetic (h : applyArithmetic operator left right = .ok v) :
    ∃ z, v = .number z := by
  unfold applyArithmetic at h
  cases hop : Arithmetic.ofScalar? operator with
  | none => simp [hop] at h
  | some op =>
      simp only [hop] at h
      split at h
      · next x y =>
        cases hz : op.apply x y with
        | error fault => simp [hz, Except.map] at h
        | ok z =>
            simp only [hz, Except.map, Except.ok.injEq] at h
            exact ⟨z, h.symm⟩
      · cases h

/-- Arithmetic fails on Numbers only when it divides by zero, and on all else for their kinds. -/
theorem fault_of_applyArithmetic (h : applyArithmetic operator left right = .error fault) :
    (Arithmetic.ofScalar? operator = none ∧ fault = .unknownOperator .binary operator) ∨
      fault = .divisionByZero ∨
      ¬(left.isNumber ∧ right.isNumber) ∧ fault = .operandsOf operator left.kind right.kind := by
  unfold applyArithmetic at h
  cases hop : Arithmetic.ofScalar? operator with
  | none =>
      simp only [hop] at h
      exact .inl ⟨rfl, (Except.error.inj h).symm⟩
  | some op =>
      simp only [hop] at h
      split at h
      · next x y =>
        cases hresult : op.apply x y with
        | ok z => simp [hresult, Except.map] at h
        | error cause =>
            simp only [hresult, Except.map, Except.error.injEq] at h
            exact .inr (.inl (h ▸ fault_of_apply hresult))
      · next hnumbers =>
        have hkinds : ¬(left.isNumber ∧ right.isNumber) := by
          rintro ⟨hleft, hright⟩
          obtain ⟨x, rfl⟩ := Value.isNumber_iff.mp hleft
          obtain ⟨y, rfl⟩ := Value.isNumber_iff.mp hright
          exact hnumbers x y rfl rfl
        exact .inr (.inr ⟨hkinds, (Except.error.inj h).symm⟩)

/-- Comparisons make Booleans. -/
theorem exists_boolean_of_applyComparison (h : applyComparison operator left right = .ok v) :
    ∃ b, v = .boolean b := by
  simp only [applyComparison, applyOrder] at h
  split at h
  · exact ⟨_, (Except.ok.inj h).symm⟩
  · split at h
    · exact ⟨_, (Except.ok.inj h).symm⟩
    · split at h
      · cases h
      · split at h
        · exact ⟨_, (Except.ok.inj h).symm⟩
        · exact ⟨_, (Except.ok.inj h).symm⟩
        · cases h

theorem fault_of_applyComparison (h : applyComparison operator left right = .error fault) :
    (operator ≠ .text "==" ∧ operator ≠ .text "!=" ∧ Order.ofScalar? operator = none ∧
      fault = .unknownOperator .comparison operator) ∨
      fault = .comparisonOf operator left.kind right.kind := by
  simp only [applyComparison, applyOrder] at h
  split at h
  · cases h
  · next hequal =>
    split at h
    · cases h
    · next hunequal =>
      split at h
      · next hop => exact .inl ⟨hequal, hunequal, hop, (Except.error.inj h).symm⟩
      · split at h
        · cases h
        · cases h
        · exact .inr (Except.error.inj h).symm

/-- A value that points to no place of an array is no Number, or a Number out of bounds. -/
theorem fault_of_placeIn {items : Array Value} {index : Value}
    (h : placeIn items index = .error fault) :
    ¬index.isNumber ∧ fault = .indexOf index.kind ∨ ∃ x, fault = .indexOutOfBounds x := by
  unfold placeIn at h
  split at h
  · split at h
    · split at h
      · cases h
      · exact .inr ⟨_, (Except.error.inj h).symm⟩
    · exact .inr ⟨_, (Except.error.inj h).symm⟩
  · next hnumber =>
    have hkind : ¬index.isNumber := by
      intro hindex
      obtain ⟨x, rfl⟩ := Value.isNumber_iff.mp hindex
      exact hnumber x rfl
    exact .inl ⟨hkind, (Except.error.inj h).symm⟩

end Sprig.Run
