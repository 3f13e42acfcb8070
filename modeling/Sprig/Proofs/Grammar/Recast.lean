import Sprig.Proofs.Grammar.Rendering

/-!
# Method calls in parentheses

The parentheses around the call of a method make it an expression. So what spells the call as a
statement of its own spells it in parentheses as the whole of an expression statement.
-/

namespace Sprig.Grammar

variable {adjoin : Tree → List Token → Token → Prop} {n : Nat} {ts : List Token}
  {left right : Token} {array method args : Tree}

theorem spells_of_methodCall (h : States adjoin n .statement ts (.methodCall array method args)) :
    ∃ m, Spells m .expression ts (.methodExpression array method args) := by
  cases h with
  | methodCall ht hdot hmember hleft args hright =>
      exact ⟨_, (Spells.method ht hdot hmember hleft args hright).of_primary (by simp)⟩
  | conditional inner => cases inner

/-- A statement that calls a method is one that evaluates the call when it stands in parentheses. -/
theorem states_parens (h : States adjoin n .statement ts (.methodCall array method args))
    (hleft : left.kind = .leftParen) (hright : right.kind = .rightParen) :
    ∃ m, States adjoin m .statement (left :: ts ++ [right])
      (.expressionStatement (.methodExpression array method args)) := by
  obtain ⟨m, hspells⟩ := spells_of_methodCall h
  have hparens := (Spells.parens hleft hspells hright).of_primary
    (show Form.expression ≠ .items by simp)
  refine ⟨_, .expression hparens ?_⟩
  rintro ⟨-, hhead⟩
  exact hhead left rfl hleft

end Sprig.Grammar
