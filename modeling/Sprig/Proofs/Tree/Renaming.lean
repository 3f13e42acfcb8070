import Mathlib.Logic.Function.Basic
import Sprig.Environment.Table

/-!
# Renaming

The names of variables and the names of functions are renamed independently of each other, so that a
variable and a function of one name may part. A tree is renamed in the places where such a name
stands. The texts of literals, operators, methods and properties stay, whatever they say.

## Implementation notes

A name is a text. A tree made by hand may have another scalar in the place of a name, and that stays
too. Parameters that are given as one text are the characters of the text, so they are renamed to
the list of their new names.
-/

namespace Sprig

/-- New names for variables and for functions, different ones for different names. -/
structure Renaming where
  /-- The new name of a variable. -/
  ofVariable : String → String
  /-- The new name of a function. -/
  ofFunction : String → String
  ofVariable_injective : Function.Injective ofVariable
  ofFunction_injective : Function.Injective ofFunction

/-- The names with a word in front of them, one for variables and one for functions. -/
def Renaming.prefixed (variableWord functionWord : String) : Renaming where
  ofVariable name := variableWord ++ name
  ofFunction name := functionWord ++ name
  ofVariable_injective _ _ h := (String.append_right_inj variableWord).mp h
  ofFunction_injective _ _ h := (String.append_right_inj functionWord).mp h

namespace Scalar

variable {f : String → String}

/-- A scalar in the place of a name, renamed. -/
def rename (f : String → String) : Scalar → Scalar
  | .text s => .text (f s)
  | scalar => scalar

theorem key_rename (a : Scalar) : (a.rename f).key = a.key.rename f := by
  cases a with
  | number x =>
      simp only [rename, key]
      split <;> rfl
  | _ => rfl

theorem rename_injective (hf : Function.Injective f) : Function.Injective (rename f) := by
  intro a b h
  cases a <;> cases b <;> simp_all [rename]
  exact hf h

/-- Names that are told apart are told apart by their new names, and no others are. -/
theorem key_rename_eq_iff (hf : Function.Injective f) (a b : Scalar) :
    (a.rename f).key = (b.rename f).key ↔ a.key = b.key := by
  rw [key_rename, key_rename]
  exact (rename_injective hf).eq_iff

end Scalar

namespace Table

variable {α β : Type} {f : String → String}

/-- A table with its names renamed and what they are bound to changed. -/
def rename (f : String → String) (change : α → β) (table : Table α) : Table β :=
  ⟨table.entries.map fun entry => (entry.1.rename f, change entry.2)⟩

/-- A new name is bound to what the old one was bound to. -/
theorem get?_rename (hf : Function.Injective f) (change : α → β) (table : Table α)
    (name : Scalar) :
    (table.rename f change).get? (name.rename f) = (table.get? name).map change := by
  have hkeys : (fun entry : Scalar × α => decide ((entry.1.rename f).key = (name.rename f).key)) =
      fun entry => decide (entry.1.key = name.key) := by
    funext entry
    exact decide_eq_decide.mpr (Scalar.key_rename_eq_iff hf entry.1 name)
  simp only [get?, rename, List.find?_map, Function.comp_def, hkeys, Option.map_map]

theorem bindIn_rename (hf : Function.Injective f) (change : α → β) (name : Scalar) (a : α)
    (entries : List (Scalar × α)) :
    bindIn (name.rename f) (change a)
        (entries.map fun entry => (entry.1.rename f, change entry.2)) =
      (bindIn name a entries).map fun entry => (entry.1.rename f, change entry.2) := by
  induction entries with
  | nil => rfl
  | cons entry entries ih =>
      simp only [List.map_cons, bindIn, Scalar.key_rename_eq_iff hf]
      split
      · rfl
      · rw [List.map_cons, ih]

/-- Binding a new name is binding the old one before the renaming. -/
theorem set_rename (hf : Function.Injective f) (change : α → β) (table : Table α) (name : Scalar)
    (a : α) :
    (table.rename f change).set (name.rename f) (change a) = (table.set name a).rename f change :=
  congrArg Table.mk (bindIn_rename hf change name a table.entries)

end Table

namespace Tree

/-- A tree in the place of a name, renamed. -/
def renameName (f : String → String) : Tree → Tree
  | .scalar value => .scalar (value.rename f)
  | tree => tree

/-- A tree in the place of parameters, renamed. -/
def renameParams (f : String → String) (params : Tree) : Tree :=
  match params.items? with
  | some items => .list (items.map (renameName f))
  | Option.none => params

mutual

/-- A tree with its variables and functions renamed. -/
def rename (ρ : Renaming) : Tree → Tree
  | .scalar value => .scalar value
  | .list items => .list (renameAll ρ items)
  | .assignment name value => .assignment (name.renameName ρ.ofVariable) (value.rename ρ)
  | .print value => .print (value.rename ρ)
  | .expressionStatement expression => .expressionStatement (expression.rename ρ)
  | .ifStatement condition ifBlock elseBlock =>
    .ifStatement (condition.rename ρ) (ifBlock.rename ρ) (elseBlock.rename ρ)
  | .whileStatement condition body => .whileStatement (condition.rename ρ) (body.rename ρ)
  | .elementAssignment array index value =>
    .elementAssignment (array.renameName ρ.ofVariable) (index.rename ρ) (value.rename ρ)
  | .methodCall array method args =>
    .methodCall (array.renameName ρ.ofVariable) method (args.rename ρ)
  | .functionDeclaration name params body =>
    .functionDeclaration (name.renameName ρ.ofFunction) (params.renameParams ρ.ofVariable)
      (body.rename ρ)
  | .returnStatement value => .returnStatement (value.rename ρ)
  | .number value => .number value
  | .string value => .string value
  | .boolean value => .boolean value
  | .variable name => .variable (name.renameName ρ.ofVariable)
  | .unary operator operand => .unary operator (operand.rename ρ)
  | .binary operator left right => .binary operator (left.rename ρ) (right.rename ρ)
  | .comparison operator left right => .comparison operator (left.rename ρ) (right.rename ρ)
  | .arrayLiteral elements => .arrayLiteral (elements.rename ρ)
  | .elementAccess array index => .elementAccess (array.renameName ρ.ofVariable) (index.rename ρ)
  | .methodExpression array method args =>
    .methodExpression (array.renameName ρ.ofVariable) method (args.rename ρ)
  | .arrayProperty array property => .arrayProperty (array.renameName ρ.ofVariable) property
  | .call name args => .call (name.renameName ρ.ofFunction) (args.rename ρ)

/-- The trees of a list with their variables and functions renamed. -/
def renameAll (ρ : Renaming) : List Tree → List Tree
  | [] => []
  | tree :: trees => tree.rename ρ :: renameAll ρ trees

end

variable (ρ : Renaming)

theorem renameAll_eq_map (trees : List Tree) : renameAll ρ trees = trees.map (rename ρ) := by
  induction trees with
  | nil => simp [renameAll]
  | cons tree trees ih => simp [renameAll, ih]

/-- A renamed tree is called the same in messages. -/
theorem label_rename (tree : Tree) : (tree.rename ρ).label = tree.label := by
  cases tree <;> simp [rename, label, node?]

/-- Nothing but the empty place is renamed to it. -/
theorem eq_none_of_rename {ρ : Renaming} {tree : Tree} (h : tree.rename ρ = .scalar .none) :
    tree = .scalar .none := by
  cases tree <;> simp_all [rename]

/-- A renamed tree offers what the tree offers, renamed. -/
theorem items?_rename (tree : Tree) :
    (tree.rename ρ).items? = tree.items?.map (List.map (rename ρ)) := by
  cases tree with
  | scalar value => cases value <;> simp [rename, items?, Function.comp_def, text]
  | list items => simp [rename, items?, renameAll_eq_map]
  | _ => simp [rename, items?]

/-- Renamed parameters offer what the parameters offer, renamed. -/
theorem items?_renameParams (f : String → String) (params : Tree) :
    (params.renameParams f).items? = params.items?.map (List.map (renameName f)) := by
  unfold renameParams
  split
  · next items hitems => rw [hitems]; rfl
  · next hitems => rw [hitems]; rfl

end Tree

end Sprig
