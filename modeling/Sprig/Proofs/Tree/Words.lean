import Sprig.Proofs.Tree.Named

/-!
# The words of a tree

A run tells a name, an operator or a method in a fault when it stands in such a place of a node.
These places are the words of the node. The names that a node binds or declares are none of them,
and neither are the values of literals.
-/

namespace Sprig.Tree

/-- The parts of a node that name what it works on or how. -/
def words : Tree → List Tree
  | .elementAssignment array _ _ => [array]
  | .methodCall array method _ => [array, method]
  | .variable name => [name]
  | .unary operator _ => [operator]
  | .binary operator _ _ => [operator]
  | .comparison operator _ _ => [operator]
  | .elementAccess array _ => [array]
  | .methodExpression array method _ => [array, method]
  | .arrayProperty array property => [array, property]
  | .call name _ => [name]
  | _ => []

/-- Whether all words inside a tree have a property. -/
def Says (P : Scalar → Prop) (tree : Tree) : Prop :=
  ∀ inner, Within inner tree → ∀ a, .scalar a ∈ inner.words → P a

variable {P : Scalar → Prop} {tree : Tree} {kind : NodeKind} {parts trees : List Tree}

/-- A node's own words have the property. -/
theorem Says.word (h : tree.Says P) {a : Scalar} (hmem : .scalar a ∈ tree.words) : P a :=
  h tree .self a hmem

/-- A part of a node is inside of it. -/
theorem Says.part (h : tree.Says P) (node : tree.node? = some (kind, parts)) :
    ∀ part ∈ parts, part.Says P :=
  fun _ hpart _ hin => h _ (.part node hpart hin)

theorem Says.items (h : tree.Says P) (hitems : tree.items? = some trees) :
    ∀ item ∈ trees, item.Says P := by
  intro item hitem inner hin
  rcases within_of_items hitems hitem hin with hin | ⟨s, rfl⟩
  · exact h inner hin
  · simp [text, words]

@[simp] theorem says_scalar (value : Scalar) : (scalar value).Says P := by
  intro inner hin
  obtain rfl := within_scalar.mp hin
  simp [words]

@[simp] theorem says_text (s : String) : (text s).Says P := says_scalar _

@[simp] theorem scalar_eq_text {a : Scalar} {s : String} : scalar a = text s ↔ a = .text s := by
  simp [text]

@[simp] theorem says_none : none.Says P := says_scalar _

theorem says_list (h : ∀ item ∈ trees, item.Says P) : (list trees).Says P := by
  intro inner hin
  rcases within_list.mp hin with rfl | ⟨item, hmem, hin⟩
  · simp [words]
  · exact h item hmem _ hin

/-- The words inside a node are its own and those inside its parts. -/
theorem says_node (node : tree.node? = some (kind, parts))
    (hwords : ∀ a, .scalar a ∈ tree.words → P a) (hparts : ∀ part ∈ parts, part.Says P) :
    tree.Says P := by
  intro inner hin
  rcases (within_node node).mp hin with rfl | ⟨part, hmem, hin⟩
  · exact hwords
  · exact hparts part hmem _ hin

end Sprig.Tree
