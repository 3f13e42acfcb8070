import Sprig.Proofs.Tree.Named

/-!
# What is inside of a tree

A property of all that is inside of a tree is one of all that is inside of its parts and items. From
a node a run goes on to the parts of the node and to the items of those, but not to the parts of a
declaration.
-/

namespace Sprig.Tree

variable {inner outer tree : Tree} {P : Tree → Prop} {kind : NodeKind} {parts items : List Tree}

theorem Within.trans (h : Within inner tree) (houter : Within tree outer) : Within inner outer := by
  induction houter with
  | self => exact h
  | part node hmem _ ih => exact .part node hmem ih
  | item hmem _ ih => exact .item hmem ih

/-- Whether all that is inside of a tree has a property. -/
def Every (P : Tree → Prop) (tree : Tree) : Prop := ∀ inner, Within inner tree → P inner

theorem Every.of_within (h : outer.Every P) (hin : Within tree outer) : tree.Every P :=
  fun _ hinner => h _ (hinner.trans hin)

theorem every_scalar {value : Scalar} (h : P (scalar value)) : (scalar value).Every P := by
  intro inner hin
  rw [within_scalar.mp hin]
  exact h

theorem every_list (h : P (list items)) (hitems : ∀ item ∈ items, item.Every P) :
    (list items).Every P := by
  intro inner hin
  rcases within_list.mp hin with rfl | ⟨item, hmem, hin⟩
  · exact h
  · exact hitems item hmem inner hin

theorem every_node (node : tree.node? = some (kind, parts)) (h : P tree)
    (hparts : ∀ part ∈ parts, part.Every P) : tree.Every P := by
  intro inner hin
  rcases (within_node node).mp hin with rfl | ⟨part, hmem, hin⟩
  · exact h
  · exact hparts part hmem inner hin

/-- Whether a tree is another one or one of its items. -/
def Gives (outer tree : Tree) : Prop :=
  tree = outer ∨ ∃ items, outer.items? = some items ∧ tree ∈ items

theorem gives_self : tree.Gives tree := .inl rfl

/-- Whether a node, which is no declaration, has a tree as a part or among the items of a part. -/
def Uses (node tree : Tree) : Prop :=
  ∃ kind parts part, node.node? = some (kind, parts) ∧ kind ≠ .functionDeclaration ∧
    part ∈ parts ∧ part.Gives tree

theorem uses_of_part {node part : Tree} (hnode : node.node? = some (kind, parts))
    (hkind : kind ≠ .functionDeclaration) (hmem : part ∈ parts) (hgives : part.Gives tree) :
    node.Uses tree :=
  ⟨kind, parts, part, hnode, hkind, hmem, hgives⟩

/-- What all letters of a text have as well goes over to what a tree gives. -/
theorem Every.of_gives (h : outer.Every P) (htext : ∀ s, P (text s)) (hgives : outer.Gives tree) :
    tree.Every P := by
  rcases hgives with rfl | ⟨items, hitems, hmem⟩
  · exact h
  · intro inner hin
    rcases within_of_items hitems hmem hin with hin | ⟨s, rfl⟩
    · exact h inner hin
    · exact htext s

theorem Every.of_uses (h : outer.Every P) (htext : ∀ s, P (text s)) (huses : outer.Uses tree) :
    tree.Every P := by
  obtain ⟨kind, parts, part, hnode, -, hmem, hgives⟩ := huses
  exact (h.of_within (.part hnode hmem .self)).of_gives htext hgives

end Sprig.Tree
