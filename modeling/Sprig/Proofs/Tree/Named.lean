import Sprig.Proofs.Tree.Shape

/-!
# Declarations that name their parameters

A declaration that was parsed lists the names of its parameters. One that was read from a document
may hold anything in their place, and nothing looks at it before the function is called or the
declaration is told in the trace.
-/

namespace Sprig.Tree

/-- The places of a tree in which another tree stands. -/
inductive Within (inner : Tree) : Tree → Prop
  | self : Within inner inner
  | part {tree kind parts part} (node : tree.node? = some (kind, parts)) (mem : part ∈ parts)
      (within : Within inner part) : Within inner tree
  | item {items item} (mem : item ∈ items) (within : Within inner item) :
      Within inner (.list items)

variable {inner tree item : Tree} {kind : NodeKind} {parts trees : List Tree}

section Within

theorem within_scalar {value : Scalar} : Within inner (scalar value) ↔ inner = scalar value := by
  constructor
  · intro h
    cases h with
    | self => rfl
    | part node => simp [node?] at node
  · rintro rfl
    exact .self

/-- Inside of a list are its items and what is inside of them. -/
theorem within_list :
    Within inner (list trees) ↔ inner = list trees ∨ ∃ item ∈ trees, Within inner item := by
  constructor
  · intro h
    cases h with
    | self => exact .inl rfl
    | part node => simp [node?] at node
    | item hmem hin => exact .inr ⟨_, hmem, hin⟩
  · rintro (rfl | ⟨item, hmem, hin⟩)
    · exact .self
    · exact .item hmem hin

/-- Inside of a node are its parts and what is inside of them. -/
theorem within_node (node : tree.node? = some (kind, parts)) :
    Within inner tree ↔ inner = tree ∨ ∃ part ∈ parts, Within inner part := by
  constructor
  · intro h
    cases h with
    | self => exact .inl rfl
    | part node' hmem hin =>
        obtain ⟨rfl, rfl⟩ := Prod.mk.inj (Option.some.inj (node.symm.trans node'))
        exact .inr ⟨_, hmem, hin⟩
    | item => simp [node?] at node
  · rintro (rfl | ⟨part, hmem, hin⟩)
    · exact .self
    · exact .part node hmem hin

/-- What a tree offers one after the other is inside of it, or is a text. -/
theorem within_of_items (hitems : tree.items? = some trees) (hmem : item ∈ trees)
    (hin : Within inner item) : Within inner tree ∨ ∃ s, inner = text s := by
  cases tree with
  | list _ =>
      obtain rfl := Option.some.inj hitems
      exact .inl (.item hmem hin)
  | scalar value =>
      cases value with
      | text s =>
          obtain rfl := Option.some.inj hitems
          obtain ⟨c, -, rfl⟩ := List.mem_map.mp hmem
          exact .inr ⟨_, within_scalar.mp hin⟩
      | _ => simp [items?] at hitems
  | _ => simp [items?] at hitems

end Within

/-- Whether what a tree offers one after the other are names. -/
def ListsNames (tree : Tree) : Prop := ∃ names : List String, tree.items? = some (names.map .text)

/-- Whether every declaration inside a tree lists the names of its parameters. -/
def Named (tree : Tree) : Prop :=
  ∀ name params body, Within (.functionDeclaration name params body) tree → params.ListsNames

/-- A part of a node is inside of it. -/
theorem Named.part (h : tree.Named) (node : tree.node? = some (kind, parts)) :
    ∀ part ∈ parts, part.Named :=
  fun _ hpart _ _ _ hin => h _ _ _ (.part node hpart hin)

theorem Named.items (h : tree.Named) (hitems : tree.items? = some trees) :
    ∀ item ∈ trees, item.Named := by
  intro item hitem name params body hin
  rcases within_of_items hitems hitem hin with hin | ⟨s, heq⟩
  · exact h _ _ _ hin
  · simp [text] at heq

@[simp] theorem named_scalar (value : Scalar) : (scalar value).Named := by
  intro name params body hin
  cases within_scalar.mp hin

@[simp] theorem named_text (s : String) : (text s).Named := named_scalar _

theorem named_list (h : ∀ item ∈ trees, item.Named) : (list trees).Named := by
  intro name params body hin
  rcases within_list.mp hin with heq | ⟨item, hmem, hin⟩
  · cases heq
  · exact h item hmem _ _ _ hin

/-- A node that is no declaration holds the declarations of its parts. -/
theorem named_node (node : tree.node? = some (kind, parts)) (hkind : kind ≠ .functionDeclaration)
    (h : ∀ part ∈ parts, part.Named) : tree.Named := by
  intro name params body hin
  rcases (within_node node).mp hin with rfl | ⟨part, hmem, hin⟩
  · exact absurd (Prod.mk.inj (Option.some.inj node)).1.symm hkind
  · exact h part hmem _ _ _ hin

theorem named_declaration {f params body : Tree} (hf : f.Named) (hparams : params.Named)
    (hbody : body.Named) (hnames : params.ListsNames) :
    (functionDeclaration f params body).Named := by
  intro name others rest hin
  rcases (within_node rfl).mp hin with heq | ⟨part, hmem, hpart⟩
  · obtain ⟨-, rfl, -⟩ := functionDeclaration.inj heq
    exact hnames
  · simp only [List.mem_cons, List.not_mem_nil, or_false] at hmem
    rcases hmem with rfl | rfl | rfl
    · exact hf _ _ _ hpart
    · exact hparams _ _ _ hpart
    · exact hbody _ _ _ hpart

/-- There is no declaration inside an expression that was parsed. -/
theorem IsExpression.named (h : tree.IsExpression) : tree.Named := by
  induction h with
  | number | string | boolean | name | length => exact named_node rfl (by simp) (by simp)
  | unary _ ih => exact named_node rfl (by simp) (by simp [ih])
  | binary _ _ _ left right | comparison _ _ _ left right =>
      exact named_node rfl (by simp) (by simp [left, right])
  | arrayLiteral _ ih | methodExpression _ ih | call _ ih =>
      exact named_node rfl (by simp) (by simp [named_list ih])
  | elementAccess _ ih => exact named_node rfl (by simp) (by simp [ih])

/-- Every declaration that was parsed lists the names of its parameters. -/
theorem IsStatement.named (h : tree.IsStatement) : tree.Named := by
  induction h with
  | assignment value | print value | expression value | valueReturn value =>
      exact named_node rfl (by simp) (by simp [value.named])
  | ifOnly condition _ ih =>
      exact named_node rfl (by simp) (by simp [condition.named, named_list ih, none])
  | ifElse condition _ _ block otherwise =>
      exact named_node rfl (by simp)
        (by simp [condition.named, named_list block, named_list otherwise])
  | «while» condition _ ih =>
      exact named_node rfl (by simp) (by simp [condition.named, named_list ih])
  | elementAssignment index value =>
      exact named_node rfl (by simp) (by simp [index.named, value.named])
  | methodCall args =>
      exact named_node rfl (by simp) (by simp [named_list fun e he => (args e he).named])
  | declaration params _ ih =>
      refine named_declaration (named_text _) (named_list ?_) (named_list ih) ⟨params, rfl⟩
      simp
  | emptyReturn => exact named_node rfl (by simp) (by simp [none])

/-- The declarations of a program that was parsed list the names of their parameters. -/
theorem IsProgram.named (h : IsProgram trees) : ∀ tree ∈ trees, tree.Named :=
  fun tree htree => (h tree htree).named

end Sprig.Tree
