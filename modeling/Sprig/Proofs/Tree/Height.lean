import Sprig.Proofs.Tree.Inside

/-!
# The height of a tree

The height of a tree counts the nodes from the outermost one to one that is the furthest inside.
Whatever a declaration holds is none of its height.
-/

namespace Sprig.Tree

variable {outer tree : Tree} {trees items parts : List Tree} {kind : NodeKind} {bound few : Nat}

mutual

/-- How many nodes of a tree there are at most inside of each other. -/
def height : Tree → Nat
  | .scalar _ => 0
  | .list items => heights items
  | .assignment name value => max name.height value.height + 1
  | .print value => value.height + 1
  | .expressionStatement expression => expression.height + 1
  | .ifStatement condition ifBlock elseBlock =>
    max condition.height (max ifBlock.height elseBlock.height) + 1
  | .whileStatement condition body => max condition.height body.height + 1
  | .elementAssignment array index value => max array.height (max index.height value.height) + 1
  | .methodCall array method args => max array.height (max method.height args.height) + 1
  | .functionDeclaration _ _ _ => 1
  | .returnStatement value => value.height + 1
  | .number value => value.height + 1
  | .string value => value.height + 1
  | .boolean value => value.height + 1
  | .variable name => name.height + 1
  | .unary operator operand => max operator.height operand.height + 1
  | .binary operator left right => max operator.height (max left.height right.height) + 1
  | .comparison operator left right => max operator.height (max left.height right.height) + 1
  | .arrayLiteral elements => elements.height + 1
  | .elementAccess array index => max array.height index.height + 1
  | .methodExpression array method args => max array.height (max method.height args.height) + 1
  | .arrayProperty array property => max array.height property.height + 1
  | .call name args => max name.height args.height + 1

/-- The height of the highest one of some trees. -/
def heights : List Tree → Nat
  | [] => 0
  | tree :: trees => max tree.height (heights trees)

end

theorem height_le_heights (h : tree ∈ trees) : tree.height ≤ heights trees := by
  induction trees with
  | nil => cases h
  | cons first rest ih =>
      rw [heights]
      rcases List.mem_cons.mp h with rfl | h
      · exact Nat.le_max_left ..
      · exact Nat.le_trans (ih h) (Nat.le_max_right ..)

/-- A bound on every one of some trees, with as many nodes on top, bounds the highest one. -/
theorem heights_add_le (hfew : few ≤ bound) (h : ∀ tree ∈ trees, tree.height + few ≤ bound) :
    heights trees + few ≤ bound := by
  induction trees with
  | nil => simpa [heights] using hfew
  | cons tree trees ih =>
      have hfirst := h tree (.head _)
      have hrest := ih fun tree hmem => h tree (.tail _ hmem)
      rw [heights]
      omega

theorem heights_le (h : ∀ tree ∈ trees, tree.height ≤ bound) : heights trees ≤ bound :=
  heights_add_le bound.zero_le h

/-- A node that is no declaration is one higher than its highest part. -/
theorem height_of_node (node : tree.node? = some (kind, parts))
    (hkind : kind ≠ .functionDeclaration) : tree.height = heights parts + 1 := by
  cases tree with
  | scalar | list => cases node
  | functionDeclaration =>
      obtain ⟨rfl, -⟩ := Prod.mk.inj (Option.some.inj node)
      exact absurd rfl hkind
  | _ =>
      obtain ⟨-, rfl⟩ := Prod.mk.inj (Option.some.inj node)
      simp [height, heights]

theorem height_pos (node : tree.node? = some (kind, parts)) : 0 < tree.height := by
  cases tree with
  | scalar | list => cases node
  | _ => simp [height]

theorem heights_items_le (hitems : tree.items? = some items) : heights items ≤ tree.height := by
  cases tree with
  | list =>
      obtain rfl := Option.some.inj hitems
      simp [height]
  | scalar value =>
      cases value with
      | text s =>
          obtain rfl := Option.some.inj hitems
          apply heights_le
          intro tree hmem
          obtain ⟨c, -, rfl⟩ := List.mem_map.mp hmem
          simp [text, height]
      | _ => cases hitems
  | _ => cases hitems

theorem height_le_of_gives (h : outer.Gives tree) : tree.height ≤ outer.height := by
  rcases h with rfl | ⟨items, hitems, hmem⟩
  · exact Nat.le_refl _
  · exact Nat.le_trans (height_le_heights hmem) (heights_items_le hitems)

theorem height_lt_of_uses (h : outer.Uses tree) : tree.height < outer.height := by
  obtain ⟨kind, parts, part, hnode, hkind, hmem, hgives⟩ := h
  rw [height_of_node hnode hkind]
  exact Nat.lt_succ_of_le (Nat.le_trans (height_le_of_gives hgives) (height_le_heights hmem))

end Sprig.Tree
