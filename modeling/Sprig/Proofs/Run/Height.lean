import Mathlib
import Sprig.Proofs.Run.Nesting
import Sprig.Proofs.Tree.Height

/-!
# How much depth a run needs

A run goes deeper into a tree only as far as the tree is high, however many rounds its loops make and
however many calls it makes one after the other. A call starts over at the body of a function. So
the depth that a run needs is bounded by the height of the program and of the bodies, once for the
program and once for each call inside of another one.

The bodies are those of the functions at the start and of all declarations inside of the program and
of these bodies. A declaration adds only one to the height of the body that it stands in, so what it
declares there has to be counted for itself.
-/

namespace Sprig

namespace Tree

/-- Whether a tree and all bodies that are declared in it have a bounded height. -/
def IsLow (bound : Nat) (tree : Tree) : Prop :=
  tree.height ≤ bound ∧ ∀ name params body,
    Within (.functionDeclaration name params body) tree → body.height ≤ bound

/-- Whether a tree is no call. -/
def IsNoCall (tree : Tree) : Prop := ∀ name args, tree ≠ .call name args

/-- Whether there is no call inside of a tree. -/
def IsCallFree (tree : Tree) : Prop := tree.Every IsNoCall

theorem isNoCall_text (s : String) : (text s).IsNoCall := nofun

end Tree

namespace Run

open Sprig.Tree

variable {limits : Limits} {task inner first : Task} {s t u : State} {tree : Tree}
  {trees : List Tree} {nodes calls bound times deep : Nat}

section Step

theorem height_pos_of_expressionOperands
    (h : expressionOperands tree limits t = .done trees u) : 0 < tree.height := by
  cases tree with
  | scalar | list => cases h
  | _ => exact height_pos rfl

theorem height_pos_of_statementOperands
    (h : statementOperands tree limits t = .done trees u) : 0 < tree.height := by
  cases tree with
  | scalar | list => cases h
  | _ => exact height_pos rfl

/-- A task that begins another one is at least as high as the nodes that it works on itself. -/
theorem Begins.nodes_le (begins : Begins limits task t inner u) :
    task.nodes ≤ heights task.trees := by
  have hone : ∀ {tree : Tree}, 0 < tree.height → 1 ≤ heights [tree] :=
    fun h => Nat.le_trans h (height_le_heights (.head _))
  cases begins with
  | expression enters before => exact hone (height_pos_of_expressionOperands before)
  | statement enters before => exact hone (height_pos_of_statementOperands before)
  | callee | branch | loop => exact hone (height_pos rfl)
  | _ => exact Nat.zero_le _

/-- A tree is lower than the one that it comes from by the nodes in between, or it starts over at a
body. -/
theorem Origin.height_add_le (h : Origin task t tree nodes calls)
    (hnodes : nodes ≤ heights task.trees) (htask : deep + heights task.trees ≤ times * bound)
    (hbodies : 0 < calls → ∀ name f, t.functions.get? name = some f → f.body.height ≤ bound) :
    tree.height + (deep + nodes) ≤ (times + calls) * bound := by
  cases h with
  | list hmem hgives =>
      have hle := Nat.le_trans (height_le_of_gives hgives) (height_le_heights hmem)
      rw [Nat.add_zero times]
      omega
  | node hmem huses =>
      have hlt := Nat.lt_of_lt_of_le (height_lt_of_uses huses) (height_le_heights hmem)
      rw [Nat.add_zero times]
      omega
  | body hfound hgives =>
      -- The call itself is still paid by its own tree, so the whole next share is for the body.
      have hle := Nat.le_trans (height_le_of_gives hgives) (hbodies Nat.one_pos _ _ hfound)
      rw [Nat.add_mul, Nat.one_mul]
      omega

/-- One step keeps the nodes and what is still below them within the bound for the calls. -/
theorem Begins.height_add_le (begins : Begins limits task t inner u)
    (htask : deep + heights task.trees ≤ times * bound)
    (hbodies : 0 < task.callsTo inner → ∀ name f, t.functions.get? name = some f →
      f.body.height ≤ bound) :
    deep + task.nodes + heights inner.trees ≤ (times + task.callsTo inner) * bound := by
  have hnodes := begins.nodes_le
  have hle : deep + task.nodes ≤ (times + task.callsTo inner) * bound :=
    Nat.le_trans (Nat.add_le_add_left hnodes deep)
      (Nat.le_trans htask (Nat.mul_le_mul_right bound (Nat.le_add_right ..)))
  rw [Nat.add_comm]
  exact heights_add_le hle fun tree hmem =>
    (begins.origin hmem).height_add_le hnodes htask hbodies

end Step

section Calls

theorem Begins.callsTo_eq_zero (begins : Begins limits task t inner u)
    (h : ∀ tree ∈ task.trees, tree.IsCallFree) : task.callsTo inner = 0 := by
  cases begins with
  | @callee fuel name args => exact absurd rfl (h _ (.head _) _ .self name args)
  | _ => rfl

/-- What a task without calls begins is without calls. -/
theorem Begins.isCallFree (begins : Begins limits task t inner u)
    (h : ∀ tree ∈ task.trees, tree.IsCallFree) : ∀ tree ∈ inner.trees, tree.IsCallFree := by
  intro tree hmem
  refine (begins.origin hmem).every isNoCall_text h fun hcalls => ?_
  rw [begins.callsTo_eq_zero h] at hcalls
  exact absurd hcalls (Nat.lt_irrefl 0)

/-- A run without calls stays within the height of what it begins with. -/
theorem Stands.height_le_of_isCallFree (h : Stands limits first s nodes calls task t)
    (hfirst : ∀ tree ∈ first.trees, tree.IsCallFree) :
    (∀ tree ∈ task.trees, tree.IsCallFree) ∧
      nodes + heights task.trees ≤ heights first.trees := by
  induction h with
  | start => exact ⟨hfirst, Nat.le_of_eq (Nat.zero_add _)⟩
  | @next nodes calls task inner t u _ begins ih =>
      obtain ⟨hfree, hle⟩ := ih
      have hzero := begins.callsTo_eq_zero hfree
      refine ⟨begins.isCallFree hfree, ?_⟩
      have hone : nodes + heights task.trees ≤ 1 * heights first.trees := by rwa [Nat.one_mul]
      have hstep := begins.height_add_le hone fun hcalls =>
        absurd hcalls (by rw [hzero]; exact Nat.lt_irrefl 0)
      rwa [hzero, Nat.one_mul] at hstep

/-- Calls do not go inside of each other when there is no call in the body of a function. -/
theorem Stands.calls_le_one (h : Stands limits first s nodes calls task t)
    (hfirst : ∀ tree ∈ first.trees, ∀ name params body,
      Within (.functionDeclaration name params body) tree → body.IsCallFree)
    (hbodies : ∀ name f, s.functions.get? name = some f → f.body.IsCallFree) :
    calls ≤ 1 ∧ (0 < calls → ∀ tree ∈ task.trees, tree.IsCallFree) := by
  have hcallFree : ∀ {t : State}, Declared first s t → ∀ name f,
      t.functions.get? name = some f → f.body.IsCallFree := by
    intro t ht name f hfound
    rcases ht name f hfound with ⟨other, hother⟩ | ⟨other, ⟨tree, hmem, hin⟩ | ⟨word, g, hg, hin⟩⟩
    · exact hbodies other f hother
    · exact hfirst tree hmem other f.params f.body hin
    · exact (hbodies word g hg).of_within (.trans (.part rfl (by simp) .self) hin)
  induction h with
  | start => exact ⟨Nat.zero_le 1, fun hcalls => absurd hcalls (Nat.lt_irrefl 0)⟩
  | @next nodes calls task inner t u stands begins ih =>
      obtain ⟨hle, hfree⟩ := ih
      -- Only a point outside of all calls can be in front of one: bodies are without calls.
      rcases Nat.eq_zero_or_pos calls with rfl | hcalls
      · rw [Nat.zero_add]
        refine ⟨task.callsTo_le_one inner, fun hcalls tree hmem => ?_⟩
        obtain ⟨name, f, hfound, hgives⟩ := (begins.origin hmem).exists_body hcalls
        exact (hcallFree stands.deepens.declared name f hfound).of_gives isNoCall_text hgives
      · have hzero := begins.callsTo_eq_zero (hfree hcalls)
        rw [hzero]
        exact ⟨hle, fun _ => begins.isCallFree (hfree hcalls)⟩

end Calls

section Bounds

/-- A program does not fail because of the depth when all nodes that its run comes to are within the
limit. -/
theorem not_failsWith_of_stands
    (h : ∀ nodes calls task t kind, Stands limits (.program trees) s nodes calls task t →
      task.kind? = some kind → ((s.depth + (nodes + 1) : Nat) : Int) ≤ limits.depth)
    (fuel : Nat) (limit : Int) (kind : NodeKind) :
    ¬FailsWith (program fuel trees) limits (.depthExceeded limit kind) s := by
  intro hfails
  obtain ⟨-, task, t, comes, hkind, hlt⟩ :=
    refuses_of_accounted (accounted_program limits fuel trees s) hfails
  obtain ⟨nodes, calls, stands⟩ := comes.exists_stands
  have hwithin := h nodes calls task t kind stands hkind
  have hdepth := stands.deepens.depth
  omega

theorem heights_pos_of_kind {kind : NodeKind} (h : task.kind? = some kind) :
    0 < heights task.trees := by
  have hpos : ∀ {tree : Tree} {p : NodeKind → Bool},
      (tree.node?.map (·.1)).filter p = some kind → 0 < heights [tree] := by
    intro tree p hkind
    obtain ⟨hnode, -⟩ := Option.filter_eq_some_iff.mp hkind
    obtain ⟨⟨other, parts⟩, hnode, -⟩ := Option.map_eq_some_iff.mp hnode
    exact Nat.lt_of_lt_of_le (height_pos hnode) (height_le_heights (.head _))
  cases task with
  | statement tree | expression tree => exact hpos h
  | _ => cases h

/-- The functions at all points of a run have bodies within the bound. -/
theorem Declared.height_le (ht : Declared first s t) (hfirst : ∀ tree ∈ first.trees, tree.IsLow bound)
    (hbodies : ∀ name f, s.functions.get? name = some f → f.body.IsLow bound) (name : Scalar)
    (f : Function) (hfound : t.functions.get? name = some f) : f.body.height ≤ bound := by
  rcases ht name f hfound with ⟨other, hother⟩ | ⟨other, ⟨tree, hmem, hin⟩ | ⟨word, g, hg, hin⟩⟩
  · exact (hbodies other f hother).1
  · exact (hfirst tree hmem).2 other f.params f.body hin
  · exact (hbodies word g hg).2 other f.params f.body hin

/-- The nodes around a point and what is below it are within the bound once more than there are
calls. -/
theorem Stands.height_le (h : Stands limits first s nodes calls task t)
    (hfirst : ∀ tree ∈ first.trees, tree.IsLow bound)
    (hbodies : ∀ name f, s.functions.get? name = some f → f.body.IsLow bound) :
    nodes + heights task.trees ≤ (calls + 1) * bound := by
  induction h with
  | start =>
      rw [Nat.zero_add, Nat.zero_add, Nat.one_mul]
      exact heights_le fun tree hmem => (hfirst tree hmem).1
  | @next nodes calls task inner t u stands begins ih =>
      have hstep := begins.height_add_le ih fun _ =>
        stands.deepens.declared.height_le hfirst hbodies
      rwa [Nat.add_right_comm calls] at hstep

/-- How much depth a run needs. Where no body is higher than a bound, and neither is the program, and
calls go at most some times inside of each other, all nodes around a point of the run are within the
bound once more than these times. A limit of that much is not exceeded, whatever the loops and the
calls side by side do. Without calls the height of the program itself is enough. -/
theorem nesting_le_height (limits : Limits) (trees : List Tree) (s : State) :
    (∀ bound times, (∀ tree ∈ trees, tree.IsLow bound) →
      (∀ name f, s.functions.get? name = some f → f.body.IsLow bound) →
      (∀ nodes calls task t, Stands limits (.program trees) s nodes calls task t → calls ≤ times) →
      (∀ nodes calls task t, Stands limits (.program trees) s nodes calls task t →
        nodes ≤ (times + 1) * bound ∧
          ∀ kind, task.kind? = some kind → nodes + 1 ≤ (times + 1) * bound) ∧
      (((s.depth + (times + 1) * bound : Nat) : Int) ≤ limits.depth → ∀ fuel limit kind,
        ¬FailsWith (program fuel trees) limits (.depthExceeded limit kind) s)) ∧
    ((∀ tree ∈ trees, tree.IsCallFree) → ((s.depth + heights trees : Nat) : Int) ≤ limits.depth →
      ∀ fuel limit kind, ¬FailsWith (program fuel trees) limits (.depthExceeded limit kind) s) := by
  constructor
  · intro bound times htrees hbodies hcalls
    have hnodes : ∀ nodes calls task t, Stands limits (.program trees) s nodes calls task t →
        nodes + heights task.trees ≤ (times + 1) * bound := by
      intro nodes calls task t stands
      have htimes := Nat.succ_le_succ (hcalls nodes calls task t stands)
      exact Nat.le_trans (stands.height_le htrees hbodies) (Nat.mul_le_mul_right bound htimes)
    refine ⟨fun nodes calls task t stands => ⟨?_, fun kind hkind => ?_⟩, fun hdepth => ?_⟩
    · exact Nat.le_of_add_right_le (hnodes nodes calls task t stands)
    · have hpos := heights_pos_of_kind hkind
      have hle := hnodes nodes calls task t stands
      omega
    · refine not_failsWith_of_stands fun nodes calls task t kind stands hkind => ?_
      have hpos := heights_pos_of_kind hkind
      have hle := hnodes nodes calls task t stands
      omega
  · intro hfree hdepth
    refine not_failsWith_of_stands fun nodes calls task t kind stands hkind => ?_
    have hpos := heights_pos_of_kind hkind
    have hle : nodes + heights task.trees ≤ heights trees :=
      (stands.height_le_of_isCallFree hfree).2
    omega

end Bounds

section Declaring

/-- A body that is higher than the one that declares it. -/
def innerBody : Tree :=
  .list [.print (.binary (.text "+") (.string (.text "a")) (.string (.text "b")))]

/-- A function that declares another one when it is called. -/
def outerFunction : Function :=
  ⟨.list [], .list [.functionDeclaration (.text "g") (.list []) innerBody]⟩

/-- A program that calls both functions. -/
def outerThenInner : List Tree :=
  [.expressionStatement (.call (.text "f") (.list [])),
    .expressionStatement (.call (.text "g") (.list []))]

/-- The state in which only the first one is declared. -/
def outerDeclared : State :=
  { State.start with functions := Table.empty.set (.text "f") outerFunction }

/-- The state in which both are declared. -/
def innerDeclared : State :=
  { outerDeclared with functions := outerDeclared.functions.set (.text "g") ⟨.list [], innerBody⟩ }

theorem interpreted_outerDeclared : Interpreted outerDeclared :=
  @Interpreted.done ⟨4, 0⟩ 1
    [.functionDeclaration (.text "f") outerFunction.params outerFunction.body] .none .start _
    .start rfl

theorem eq_outerFunction {name : Scalar} {f : Function}
    (h : outerDeclared.functions.get? name = some f) : f = outerFunction := by
  simp only [outerDeclared, Table.get?_set, Table.get?_empty] at h
  split at h
  · exact (Option.some.inj h).symm
  · cases h

/-- All that is inside of the first function, but for the declaration, is no declaration and no
call. -/
theorem every_outerFunction {P : Tree → Prop}
    (hdeclaration : P (.functionDeclaration (.text "g") (.list []) innerBody))
    (hrest : ∀ tree : Tree, (∀ name params body, tree ≠ .functionDeclaration name params body) →
      tree.IsNoCall → P tree) : outerFunction.body.Every P := by
  have hword : ∀ s : String, (text s).Every P := fun s => every_scalar (hrest _ nofun nofun)
  have hempty : (list []).Every P := every_list (hrest _ nofun nofun) (by simp)
  have hstring : ∀ s : String, (string (text s)).Every P := fun s =>
    every_node rfl (hrest _ nofun nofun) (by simpa using hword s)
  have hsum : (binary (text "+") (string (text "a")) (string (text "b"))).Every P :=
    every_node rfl (hrest _ nofun nofun) (by simp [hword, hstring])
  have hbody : innerBody.Every P := by
    refine every_list (hrest _ nofun nofun) fun item hitem => ?_
    rw [List.mem_singleton.mp hitem]
    exact every_node rfl (hrest _ nofun nofun) (by simpa using hsum)
  have hinner := every_node rfl hdeclaration (by simp [hword, hempty, hbody])
  exact every_list (hrest _ nofun nofun) (by simpa using hinner)

theorem isCallFree_outerFunction : outerFunction.body.IsCallFree :=
  every_outerFunction nofun fun _ _ hcall => hcall

/-- All that is inside of the program is no declaration. -/
theorem every_outerThenInner {P : Tree → Prop}
    (hrest : ∀ tree : Tree, (∀ name params body, tree ≠ .functionDeclaration name params body) →
      P tree) : ∀ tree ∈ outerThenInner, tree.Every P := by
  have hword : ∀ s : String, (text s).Every P := fun s => every_scalar (hrest _ nofun)
  have hargs : (list []).Every P := every_list (hrest _ nofun) (by simp)
  have hcall : ∀ s : String, (call (text s) (list [])).Every P := fun s =>
    every_node rfl (hrest _ nofun) (by simp [hword, hargs])
  have hstatement : ∀ s : String, (expressionStatement (call (text s) (list []))).Every P :=
    fun s => every_node rfl (hrest _ nofun) (by simp [hcall])
  simp [outerThenInner, hstatement]

theorem not_within_outerThenInner {name params body tree : Tree} (h : tree ∈ outerThenInner) :
    ¬Within (.functionDeclaration name params body) tree := fun hin =>
  every_outerThenInner (fun _ hrest => hrest name params body) tree h _ hin rfl

/-- The calls of the program do not go inside of each other. -/
theorem calls_le_one_outerThenInner (limits : Limits) (nodes calls : Nat) (task : Task) (t : State)
    (h : Stands limits (.program outerThenInner) outerDeclared nodes calls task t) : calls ≤ 1 := by
  refine (h.calls_le_one (fun tree hmem name params body hin => ?_) fun name f hfound => ?_).1
  · exact absurd hin (not_within_outerThenInner hmem)
  · rw [eq_outerFunction hfound]
    exact isCallFree_outerFunction

/-- Once the body that is declared last is counted, the program is within the depth that it needs. -/
theorem nesting_le_height_of_inner :
    (∀ tree ∈ outerThenInner, tree.IsLow 3) ∧ outerFunction.body.IsLow 3 ∧
      ∀ fuel limit kind, ¬FailsWith (program fuel outerThenInner) ⟨6, 0⟩
        (.depthExceeded limit kind) outerDeclared := by
  have htrees : ∀ tree ∈ outerThenInner, tree.IsLow 3 := by
    intro tree hmem
    have hheight : heights outerThenInner ≤ 3 := by decide
    refine ⟨Nat.le_trans (height_le_heights hmem) hheight, fun name params body hin => ?_⟩
    exact absurd hin (not_within_outerThenInner hmem)
  have hbody : outerFunction.body.IsLow 3 := by
    refine ⟨by decide, fun name params body hin => ?_⟩
    refine every_outerFunction (P := fun tree => ∀ name params body,
      tree = .functionDeclaration name params body → body.height ≤ 3) ?_ ?_ _ hin _ _ _ rfl
    · rintro _ _ _ ⟨⟩
      decide
    · rintro _ hdeclaration - name params body rfl
      exact absurd rfl (hdeclaration name params body)
  have hbodies : ∀ name f, outerDeclared.functions.get? name = some f → f.body.IsLow 3 :=
    fun name f hfound => eq_outerFunction hfound ▸ hbody
  obtain ⟨hbounded, -⟩ := nesting_le_height ⟨6, 0⟩ outerThenInner outerDeclared
  exact ⟨htrees, hbody,
    (hbounded 3 1 htrees hbodies (calls_le_one_outerThenInner _)).2 (by decide)⟩

/-- A bound on the program, on what it declares and on the functions that are there does not suffice:
a function that is there may declare one that is higher. -/
theorem height_of_table_insufficient :
    ¬∀ (limits : Limits) (trees : List Tree) (s : State) (bound times : Nat), Interpreted s →
      heights trees ≤ bound →
      (∀ tree ∈ trees, ∀ name params body, Within (.functionDeclaration name params body) tree →
        body.height ≤ bound) →
      (∀ name f, s.functions.get? name = some f → f.body.height ≤ bound) →
      (∀ nodes calls task t, Stands limits (.program trees) s nodes calls task t → calls ≤ times) →
      (((times + 1) * bound : Nat) : Int) ≤ limits.depth →
      ∀ fuel limit kind, ¬FailsWith (program fuel trees) limits (.depthExceeded limit kind) s := by
  intro h
  have hfailed : program 6 outerThenInner ⟨4, 0⟩ outerDeclared =
      .failed (.depthExceeded 4 .string) innerDeclared := by cbv
  refine h ⟨4, 0⟩ outerThenInner outerDeclared 2 1 interpreted_outerDeclared (by decide) ?_ ?_
    (calls_le_one_outerThenInner _) (by decide) 6 4 .string ⟨innerDeclared, hfailed⟩
  · exact fun tree hmem name params body hin => absurd hin (not_within_outerThenInner hmem)
  · intro name f hfound
    rw [eq_outerFunction hfound]
    decide

end Declaring

end Run

end Sprig
