import Sprig.Proofs.Run.Work
import Sprig.Proofs.Tree.Inside

/-!
# Where the trees of a run come from

What a run works on is inside of a tree that it worked on before, or in the body of a function that
it calls. A function was there at the start, or its declaration stands in the task that the run began
with or in the body of a function that was there at the start. So what is known of the inside of
these trees is known of all that the run works on.

## Implementation notes

The functions change while a run goes on, and a declaration may stand in a body that was declared
itself. It is said where the declaration of a function stands, not when the run came to it. So what
is known of functions does not depend on an order of the points of a run.
-/

namespace Sprig

namespace Task

/-- The trees of a task. -/
def trees : Task → List Tree
  | .program trees | .block trees | .operands trees => trees
  | .statement tree | .expression tree => [tree]
  | .loop condition body => [condition, body]

/-- How many nodes a task works on itself. -/
def nodes : Task → Nat
  | .statement _ | .expression _ => 1
  | _ => 0

/-- How many calls lead from a task to one that it begins: an expression begins a block only by
calling a function. -/
def callsTo : Task → Task → Nat
  | .expression _, .block _ => 1
  | _, _ => 0

theorem callsTo_le_one (task inner : Task) : task.callsTo inner ≤ 1 := by
  unfold callsTo
  split
  · exact Nat.le_refl 1
  · exact Nat.zero_le 1

end Task

namespace Run

open Sprig.Tree

variable {limits : Limits} {task inner first : Task} {s t u : State} {tree : Tree}
  {nodes calls : Nat}

/-- Where a tree of a task comes from that is begun by another one, so many nodes and calls deeper. -/
inductive Origin (task : Task) (t : State) (tree : Tree) : (nodes calls : Nat) → Prop
  | list {outer} (mem : outer ∈ task.trees) (gives : outer.Gives tree) : Origin task t tree 0 0
  | node {outer} (mem : outer ∈ task.trees) (uses : outer.Uses tree) : Origin task t tree 1 0
  | body {name f} (found : t.functions.get? name = some f) (gives : f.body.Gives tree) :
      Origin task t tree 1 1

section Begins

theorem trees_of_listPart {trees : List Tree} (h : listPart tree limits t = .done trees u) :
    tree.items? = some trees := by
  cases hitems : tree.items? with
  | none =>
      simp only [listPart, hitems] at h
      cases h
  | some items =>
      simp only [listPart, hitems] at h
      obtain ⟨rfl, -⟩ := Outcome.done.inj h
      rfl

theorem gives_of_listPart {trees : List Tree} (h : listPart tree limits t = .done trees u) :
    ∀ item ∈ trees, tree.Gives item :=
  fun _ hitem => .inr ⟨trees, trees_of_listPart h, hitem⟩

theorem gives_of_argumentsOf {array args : Tree} {trees : List Tree}
    (h : argumentsOf array args limits t = .done trees u) : ∀ item ∈ trees, args.Gives item := by
  obtain ⟨word, w, -, h⟩ := exists_of_bind h
  obtain ⟨address, x, -, h⟩ := exists_of_bind h
  exact gives_of_listPart h

theorem uses_of_expressionOperands {node : Tree} {trees : List Tree}
    (h : expressionOperands node limits t = .done trees u) : ∀ tree ∈ trees, node.Uses tree := by
  intro tree hmem
  cases node with
  | number | string | boolean | «variable» | arrayProperty =>
      obtain ⟨rfl, -⟩ := Outcome.done.inj h
      cases hmem
  | unary | binary | comparison =>
      obtain ⟨rfl, -⟩ := Outcome.done.inj h
      exact uses_of_part rfl (by simp) (.tail _ hmem) gives_self
  | arrayLiteral elements =>
      exact uses_of_part rfl (by simp) (.head _) (gives_of_listPart h tree hmem)
  | elementAccess array index =>
      obtain ⟨word, w, -, h⟩ := exists_of_bind h
      obtain ⟨address, x, -, h⟩ := exists_of_bind h
      obtain ⟨rfl, -⟩ := Outcome.done.inj h
      exact uses_of_part rfl (by simp) (.tail _ hmem) gives_self
  | methodExpression array method args =>
      exact uses_of_part rfl (by simp) (by simp) (gives_of_argumentsOf h tree hmem)
  | call name args =>
      obtain ⟨word, w, -, h⟩ := exists_of_bind h
      obtain ⟨function?, x, -, h⟩ := exists_of_bind h
      cases function? with
      | none => cases h
      | some function =>
          exact uses_of_part rfl (by simp) (by simp) (gives_of_listPart h tree hmem)
  | _ => cases h

theorem uses_of_statementOperands {node : Tree} {trees : List Tree}
    (h : statementOperands node limits t = .done trees u) : ∀ tree ∈ trees, node.Uses tree := by
  intro tree hmem
  cases node with
  | whileStatement | functionDeclaration =>
      obtain ⟨rfl, -⟩ := Outcome.done.inj h
      cases hmem
  | assignment =>
      obtain ⟨rfl, -⟩ := Outcome.done.inj h
      exact uses_of_part rfl (by simp) (.tail _ hmem) gives_self
  | print | expressionStatement =>
      obtain ⟨rfl, -⟩ := Outcome.done.inj h
      exact uses_of_part rfl (by simp) hmem gives_self
  | ifStatement condition ifBlock elseBlock =>
      obtain ⟨rfl, -⟩ := Outcome.done.inj h
      obtain rfl := List.mem_singleton.mp hmem
      exact uses_of_part rfl (by simp) (.head _) gives_self
  | elementAssignment array index value =>
      obtain ⟨word, w, -, h⟩ := exists_of_bind h
      obtain ⟨address, x, -, h⟩ := exists_of_bind h
      obtain ⟨rfl, -⟩ := Outcome.done.inj h
      exact uses_of_part rfl (by simp) (.tail _ hmem) gives_self
  | methodCall array method args =>
      exact uses_of_part rfl (by simp) (by simp) (gives_of_argumentsOf h tree hmem)
  | returnStatement value =>
      by_cases hvalue : value = .scalar .none
      · subst hvalue
        obtain ⟨rfl, -⟩ := Outcome.done.inj h
        cases hmem
      · rw [statementOperands.eq_def] at h
        simp only at h
        obtain ⟨rfl, -⟩ := Outcome.done.inj h
        exact uses_of_part rfl (by simp) hmem gives_self
  | _ => cases h

theorem gives_of_branchOf {fuel : Nat} {condition ifBlock elseBlock : Tree} {trees : List Tree}
    (h : branchOf fuel condition ifBlock elseBlock limits t = .done trees u) :
    ∀ tree ∈ trees, ∃ part ∈ [ifBlock, elseBlock], part.Gives tree := by
  intro tree hmem
  obtain ⟨holds, w, -, h⟩ := exists_of_bind h
  split at h
  · exact ⟨ifBlock, .head _, gives_of_listPart h tree hmem⟩
  · split at h
    · obtain ⟨rfl, -⟩ := Outcome.done.inj h
      cases hmem
    · exact ⟨_, .tail _ (.head _), gives_of_listPart h tree hmem⟩

theorem eq_of_scalarPart {word : Scalar} (h : scalarPart tree limits t = .done word u) : u = t := by
  cases tree with
  | scalar value => exact (Outcome.done.inj h).2.symm
  | _ => cases h

theorem gives_of_calleeOf {fuel : Nat} {name args : Tree} {trees : List Tree}
    (h : calleeOf fuel name args limits t = .done trees u) :
    ∃ word f, t.functions.get? word = some f ∧ ∀ tree ∈ trees, f.body.Gives tree := by
  obtain ⟨word, w, hword, h⟩ := exists_of_bind h
  obtain ⟨function?, x, hread, h⟩ := exists_of_bind h
  obtain ⟨hfound, rfl⟩ := Outcome.done.inj hread
  cases function? with
  | none => cases h
  | some f =>
      obtain ⟨items, a, -, h⟩ := exists_of_bind h
      obtain ⟨vs, b, -, h⟩ := exists_of_bind h
      obtain ⟨_, c, -, h⟩ := exists_of_bind h
      obtain ⟨params, d, -, h⟩ := exists_of_bind h
      obtain ⟨_, e, -, h⟩ := exists_of_bind h
      rw [eq_of_scalarPart hword] at hfound
      exact ⟨word, f, hfound, gives_of_listPart h⟩

/-- The trees of a task come from the task that began it, or from the body of a function. -/
theorem Begins.origin (begins : Begins limits task t inner u) (hmem : tree ∈ inner.trees) :
    Origin task t tree task.nodes (task.callsTo inner) := by
  cases begins with
  | program | block | operand => exact .list (.head _) (List.mem_singleton.mp hmem ▸ gives_self)
  | programRest | blockRest | operandRest => exact .list (.tail _ hmem) gives_self
  | expression enters before => exact .node (.head _) (uses_of_expressionOperands before tree hmem)
  | callee enters before =>
      obtain ⟨word, f, hfound, hgives⟩ := gives_of_calleeOf before
      obtain ⟨-, rfl⟩ := enters
      exact .body hfound (hgives tree hmem)
  | statement enters before => exact .node (.head _) (uses_of_statementOperands before tree hmem)
  | branch enters before =>
      obtain ⟨part, hpart, hgives⟩ := gives_of_branchOf before tree hmem
      exact .node (.head _) (uses_of_part rfl (by simp) (.tail _ hpart) hgives)
  | loop enters => exact .node (.head _) (uses_of_part rfl (by simp) hmem gives_self)
  | loopTest => exact .list (.head _) (List.mem_singleton.mp hmem ▸ gives_self)
  | loopBody before items => exact .list (.tail _ (.head _)) (gives_of_listPart items tree hmem)
  | loopAgain => exact .list hmem gives_self

end Begins

theorem Origin.exists_body (h : Origin task t tree nodes calls) (hcalls : 0 < calls) :
    ∃ name f, t.functions.get? name = some f ∧ f.body.Gives tree := by
  cases h with
  | body hfound hgives => exact ⟨_, _, hfound, hgives⟩
  | _ => exact absurd hcalls (Nat.lt_irrefl 0)

/-- A property of all that is inside of a task goes over to the tasks that it begins, if the functions
that it calls have it as well. -/
theorem Origin.every {P : Tree → Prop} (h : Origin task t tree nodes calls)
    (htext : ∀ s, P (text s)) (htask : ∀ outer ∈ task.trees, outer.Every P)
    (hbodies : 0 < calls → ∀ name f, t.functions.get? name = some f → f.body.Every P) :
    tree.Every P := by
  cases h with
  | list hmem hgives => exact (htask _ hmem).of_gives htext hgives
  | node hmem huses => exact (htask _ hmem).of_uses htext huses
  | body hfound hgives => exact (hbodies Nat.one_pos _ _ hfound).of_gives htext hgives

section Declarations

/-- Whether a declaration stands in the task that a run begins with, or in the body of a function
that is there at the start. -/
def Declares (first : Task) (s : State) (name params body : Tree) : Prop :=
  (∃ tree ∈ first.trees, Within (.functionDeclaration name params body) tree) ∨
    ∃ other f, s.functions.get? other = some f ∧
      Within (.functionDeclaration name params body) f.body

/-- Whether a tree is no declaration but one that stands there. -/
def Stems (first : Task) (s : State) (tree : Tree) : Prop :=
  ∀ name params body, tree = .functionDeclaration name params body →
    Declares first s name params body

/-- Whether the functions of a state were there at the start of a run, or are those of declarations
that stand there. -/
def Declared (first : Task) (s t : State) : Prop :=
  ∀ name f, t.functions.get? name = some f → (∃ other, s.functions.get? other = some f) ∨
    ∃ other, Declares first s other f.params f.body

theorem stems_text (word : String) : Stems first s (text word) := nofun

theorem declared_refl : Declared first s s := fun name _ h => .inl ⟨name, h⟩

/-- What is declared inside of the body of a declaration stands there when the declaration does. -/
theorem Declares.stems {name params body : Tree} (h : Declares first s name params body) :
    body.Every (Stems first s) := by
  rintro inner hin other others inside rfl
  -- The inner declaration is inside of the outer one, which is inside of a tree from the start.
  have hpart : Within body (.functionDeclaration name params body) := .part rfl (by simp) .self
  have hbody := hin.trans hpart
  rcases h with ⟨root, hroot, hwithin⟩ | ⟨word, f, hfound, hwithin⟩
  · exact .inl ⟨root, hroot, hbody.trans hwithin⟩
  · exact .inr ⟨word, f, hfound, hbody.trans hwithin⟩

theorem Declared.stems {name : Scalar} {f : Function} (h : Declared first s t)
    (hfound : t.functions.get? name = some f) : f.body.Every (Stems first s) := by
  rcases h name f hfound with ⟨other, hother⟩ | ⟨other, hother⟩
  · rintro inner hin _ _ _ rfl
    exact .inr ⟨other, f, hother, hin⟩
  · exact hother.stems

/-- Whether a run comes to a task, all of whose declarations stand where those of the run do. -/
structure Arrives (limits : Limits) (first : Task) (s : State) (task : Task) (t : State) :
    Prop where
  comes : Comes limits first s task t
  stems : ∀ tree ∈ task.trees, tree.Every (Stems first s)

theorem Arrives.start : Arrives limits first s first s := by
  refine ⟨.start, ?_⟩
  rintro tree hmem inner hin _ _ _ rfl
  exact .inl ⟨tree, hmem, hin⟩

theorem Arrives.next (h : Arrives limits first s task t) (ht : Declared first s t)
    (begins : Begins limits task t inner u) : Arrives limits first s inner u := by
  refine ⟨.next h.comes begins, fun tree hmem => ?_⟩
  exact (begins.origin hmem).every stems_text h.stems fun _ _ _ hfound => ht.stems hfound

end Declarations

end Run

end Sprig
