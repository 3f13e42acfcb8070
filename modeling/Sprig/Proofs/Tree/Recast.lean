import Mathlib.Data.List.Forall2
import Mathlib.Data.Option.Basic
import Sprig.Tree.Basic

/-!
# Method calls as statements and as expressions

The call of a method stands in a program as a statement of its own, or as an expression that is the
whole of a statement. A tree is recast when some of its statements of the first kind, in blocks and
bodies at any depth, are turned into the second kind.
-/

namespace Sprig.Tree

/-- Whether a tree comes from another one by turning some statements that call a method into
expressions. -/
inductive Recast : Tree → Tree → Prop
  | same (tree) : Recast tree tree
  | methodCall (array method args) :
      Recast (.methodCall array method args)
        (.expressionStatement (.methodExpression array method args))
  | ifStatement (condition) {body body' rest rest'} (hbody : Recast body body')
      (hrest : Recast rest rest') :
      Recast (.ifStatement condition body rest) (.ifStatement condition body' rest')
  | whileStatement (condition) {body body'} (hbody : Recast body body') :
      Recast (.whileStatement condition body) (.whileStatement condition body')
  | functionDeclaration (name params) {body body'} (hbody : Recast body body') :
      Recast (.functionDeclaration name params body) (.functionDeclaration name params body')
  | list {tree tree' trees trees'} (head : Recast tree tree')
      (tail : Recast (.list trees) (.list trees')) :
      Recast (.list (tree :: trees)) (.list (tree' :: trees'))

variable {tree other : Tree} {trees others : List Tree}

theorem recast_list (h : Recast (.list trees) (.list others)) :
    List.Forall₂ Recast trees others := by
  induction trees generalizing others with
  | nil =>
      cases h
      exact .nil
  | cons tree trees ih =>
      cases h with
      | same => exact List.forall₂_same.mpr fun tree _ => .same tree
      | list head tail => exact .cons head (ih tail)

/-- What a tree offers is recast when the tree is. -/
theorem Recast.items? (h : Recast tree other) :
    Option.Rel (List.Forall₂ Recast) tree.items? other.items? := by
  cases h with
  | same =>
      cases tree.items? with
      | none => exact .none
      | some trees => exact .some (List.forall₂_same.mpr fun tree _ => .same tree)
  | list head tail => exact .some (.cons head (recast_list tail))
  | _ => exact .none

/-- A scalar is not recast, and nothing is recast to it. -/
theorem Recast.eq_scalar_iff (h : Recast tree other) (value : Scalar) :
    tree = .scalar value ↔ other = .scalar value := by
  cases h with
  | same => exact Iff.rfl
  | _ => constructor <;> intro h <;> cases h

end Sprig.Tree
