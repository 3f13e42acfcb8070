import Sprig.Proofs.Run.Nesting
import Sprig.Proofs.Run.Termination
import Sprig.Proofs.Run.Widening
import Sprig.Proofs.Tree.Shape

/-!
# Expressions without effects

An expression without calls, and without the methods that change an array, only looks at the
variables and the arrays that are there, and makes new arrays. So it changes nothing that is there,
however its evaluation ends, and it gives the same once more: the same fault, or a value that
differs in nothing but where the arrays are that its own literals have made.

## Implementation notes

Everything follows from one fact, that such an expression goes side by side with itself beside more
arrays. It keeps what is there because it does so beside itself. It has the same value once more
because the state after it is the one before with more arrays. It ends because it also goes side by
side with itself where no functions are declared.
-/

namespace Sprig

namespace Tree

/-- Whether a tree is no call and no method that changes its array. -/
def IsQuiet : Tree → Prop
  | .call _ _ => False
  | .methodExpression _ method _ => method ≠ .text "push" ∧ method ≠ .text "pop"
  | _ => True

/-- Whether there is no call and no method that changes an array inside of a tree. -/
def EffectFree (tree : Tree) : Prop := tree.Every IsQuiet

variable {tree inner : Tree} {kind : NodeKind} {parts trees : List Tree}

theorem EffectFree.part (h : tree.EffectFree) (node : tree.node? = some (kind, parts))
    (hmem : inner ∈ parts) : inner.EffectFree :=
  h.of_within (.part node hmem .self)

theorem EffectFree.items (h : tree.EffectFree) (hitems : tree.items? = some trees) :
    ∀ item ∈ trees, item.EffectFree :=
  fun _ hmem => h.of_gives (fun _ => trivial) (.inr ⟨trees, hitems, hmem⟩)

/-- There is no loop inside of an expression. -/
theorem IsExpression.loopless (h : tree.IsExpression) : tree.Loopless := by
  have hscalar : ∀ value, (scalar value).Loopless := fun _ _ _ hin => by
    cases within_scalar.mp hin
  induction h with
  | arrayLiteral _ ih | methodExpression _ ih | call _ ih =>
      exact loopless_node rfl (by simp) (by simp [loopless_list ih])
  | unary _ ih | elementAccess _ ih => exact loopless_node rfl (by simp) (by simp [ih])
  | binary _ _ _ hleft hright | comparison _ _ _ hleft hright =>
      exact loopless_node rfl (by simp) (by simp [hleft, hright])
  | _ => exact loopless_node rfl (by simp) (by simp [hscalar])

end Tree

namespace Run

variable {W : Widening} {fuel : Nat} {tree : Tree}

/-- Whether the interpreter with some fuel goes side by side with itself where nothing has an
effect. -/
structure Widens (W : Widening) (fuel : Nat) : Prop where
  evaluate {tree : Tree} (h : tree.EffectFree) :
    Couples W.coupling W.Moved (evaluate fuel tree) (evaluate fuel tree)
  callMethod {array method args : Tree} (h : (Tree.methodExpression array method args).EffectFree) :
    Couples W.coupling W.Moved (callMethod fuel array method args)
      (callMethod fuel array method args)

section Step

open Widening

theorem Widens.values (h : Widens W fuel) {args : Tree} (hargs : args.EffectFree) :
    Couples W.coupling (List.Forall₂ W.Moved)
      (do Run.values (Run.evaluate fuel) (← listPart args))
      (do Run.values (Run.evaluate fuel) (← listPart args)) := by
  apply couples_bind (Widening.couples_listPart args)
  rintro trees _ ⟨rfl, hitems⟩
  exact couples_values_of (List.forall₂_same.mpr fun tree htree =>
    h.evaluate (hargs.items hitems tree htree))

theorem Widens.operandPair (h : Widens W fuel) {left right : Tree} (hleft : left.EffectFree)
    (hright : right.EffectFree) {next others : Value → Value → Run Value}
    (hnext : ∀ l r, Couples W.coupling W.Moved (next l r)
      (others (l.move W.move) (r.move W.move))) :
    Couples W.coupling W.Moved (do next (← Run.evaluate fuel left) (← Run.evaluate fuel right))
      (do others (← Run.evaluate fuel left) (← Run.evaluate fuel right)) := by
  apply couples_bind (h.evaluate hleft)
  rintro l _ rfl
  apply couples_bind (h.evaluate hright)
  rintro r _ rfl
  exact hnext l r

theorem widens_applyMethod (address : Address) {method : Scalar} (args : List Value)
    (hpush : method ≠ .text "push") (hpop : method ≠ .text "pop") :
    Couples W.coupling W.Moved (applyMethod address method args)
      (applyMethod (W.move address) method (args.map (Value.move W.move))) := by
  unfold applyMethod
  rw [if_neg hpush, if_neg hpush, if_neg hpop, if_neg hpop]
  split
  · exact couples_joinItems address args
  · exact couples_fail rfl

/-- A method that does not change its array goes side by side with itself. -/
theorem widens_callMethod (h : Widens W fuel) {array method args : Tree}
    (hfree : (Tree.methodExpression array method args).EffectFree) :
    Couples W.coupling W.Moved (Run.callMethod (fuel + 1) array method args)
      (Run.callMethod (fuel + 1) array method args) := by
  obtain ⟨hpush, hpop⟩ : method ≠ .text "push" ∧ method ≠ .text "pop" := hfree _ .self
  simp only [Run.callMethod]
  apply couples_next (Widening.couples_scalarPart array)
  intro name
  apply couples_bind (Widening.couples_lookupArray name)
  rintro address _ rfl
  simp only [← bind_assoc (listPart args)]
  apply couples_bind (h.values (hfree.part rfl (by simp)))
  intro vs ws hvs
  obtain rfl := forall₂_moved_iff.mp hvs
  cases method with
  | scalar value =>
      have hvalue : ∀ s, Tree.scalar value ≠ .text s → value ≠ .text s :=
        fun s hne heq => hne (congrArg Tree.scalar heq)
      simp only [scalarPart, pure_bind]
      apply couples_bind (widens_applyMethod address vs (hvalue _ hpush) (hvalue _ hpop))
      rintro v _ rfl
      apply couples_next (Widening.couples_noteText 3 v _)
      exact fun _ => couples_pure rfl
  | _ => exact couples_fail rfl

theorem widens_evaluate (h : Widens W fuel) (hfree : tree.EffectFree) :
    Couples W.coupling W.Moved (Run.evaluate (fuel + 1) tree) (Run.evaluate (fuel + 1) tree) := by
  cases tree with
  | number value | string value | boolean value =>
      simp only [Run.evaluate]
      refine Widening.couples_nested _ (couples_next (Widening.couples_scalarPart value) ?_)
      exact fun v => couples_pure (Value.move_ofScalar W.move v)
  | «variable» name =>
      simp only [Run.evaluate]
      exact Widening.couples_nested _
        (couples_next (Widening.couples_scalarPart name) Widening.couples_lookup)
  | unary operator operand =>
      simp only [Run.evaluate]
      refine Widening.couples_nested _ (couples_bind (h.evaluate (hfree.part rfl (by simp))) ?_)
      rintro v _ rfl
      refine couples_next (Widening.couples_scalarPart operator) fun operator => ?_
      refine Widening.couples_lift (applyUnary_move ..) fun w hw => ?_
      obtain ⟨x, rfl⟩ := exists_number_of_applyUnary hw
      simp [Value.kind]
  | binary operator left right =>
      simp only [Run.evaluate]
      have hleft : left.EffectFree := hfree.part rfl (by simp)
      have hright : right.EffectFree := hfree.part rfl (by simp)
      refine Widening.couples_nested _ (h.operandPair hleft hright fun l r => ?_)
      exact couples_next (Widening.couples_scalarPart operator) fun operator =>
        couples_applyBinary operator l r
  | comparison operator left right =>
      simp only [Run.evaluate]
      have hleft : left.EffectFree := hfree.part rfl (by simp)
      have hright : right.EffectFree := hfree.part rfl (by simp)
      refine Widening.couples_nested _ (h.operandPair hleft hright fun l r => ?_)
      refine couples_next (Widening.couples_scalarPart operator) fun operator => ?_
      -- Here the new arrays of the two sides are compared, so no two may be moved to one address.
      refine Widening.couples_lift (applyComparison_move move_injective ..) fun w hw => ?_
      obtain ⟨holds, rfl⟩ := exists_boolean_of_applyComparison hw
      simp [Value.kind]
  | arrayLiteral elements =>
      simp only [Run.evaluate, ← bind_assoc (listPart elements)]
      refine Widening.couples_nested _ (couples_bind (h.values (hfree.part rfl (by simp))) ?_)
      intro vs ws hvs
      obtain rfl := forall₂_moved_iff.mp hvs
      rw [← List.map_toArray]
      exact couples_newArray vs.toArray
  | elementAccess array index =>
      simp only [Run.evaluate]
      refine Widening.couples_nested _ (couples_arrayOf fun address => ?_)
      apply couples_bind (h.evaluate (hfree.part rfl (by simp)))
      rintro index _ rfl
      exact couples_elementAt address index
  | methodExpression array method args =>
      simp only [Run.evaluate]
      exact Widening.couples_nested _ (h.callMethod hfree)
  | arrayProperty array property =>
      simp only [Run.evaluate]
      refine Widening.couples_nested _ (couples_arrayOf fun address => ?_)
      exact couples_next (Widening.couples_scalarPart property) (couples_applyProperty address)
  | call name args => exact (hfree _ .self).elim
  | _ =>
      simp only [Run.evaluate]
      exact couples_fail rfl

end Step

/-- The interpreter goes side by side with itself beside more arrays where nothing has an effect. -/
theorem widens_of_fuel (W : Widening) (fuel : Nat) : Widens W fuel := by
  induction fuel with
  | zero =>
      constructor
      · intro tree _
        rw [evaluate_zero]
        exact couples_spent
      · intro array method args _
        rw [callMethod]
        exact couples_spent
  | succ fuel ih =>
      constructor
      · exact widens_evaluate ih
      · exact widens_callMethod ih

section Expressions

variable {s : State} {limits : Limits}

/-- Evaluating an expression without effects beside some more arrays. -/
theorem coupled_evaluate (W : Widening) (hdepth : W.first.depth = W.second.depth)
    (hfree : tree.EffectFree) (fuel : Nat) :
    (evaluate fuel tree W.limits W.first).Coupled W.coupling W.Moved
      (evaluate fuel tree W.limits W.second) :=
  ((widens_of_fuel W fuel).evaluate hfree).together (.start hdepth)

theorem grown_evaluate (hfree : tree.EffectFree) (hs : s.Grounded) (limits : Limits) (fuel : Nat) :
    ∃ fresh, s.Grown fresh (evaluate fuel tree limits s).after := by
  let W : Widening := ⟨limits, s, s, #[], rfl, by simp, hs⟩
  have hself : W.Alike _ _ := coupled_after (coupled_evaluate W rfl hfree fuel)
  exact hself.grown.imp fun _ h => h.1

/-- An expression without effects ends with the fuel that is enough where there are no loops. -/
theorem evaluate_ne_outOfFuel (htree : tree.IsExpression) (hfree : tree.EffectFree)
    (hs : s.Grounded) {fuel : Nat} (hfuel : enoughFuel limits s ≤ fuel) (t : State) :
    evaluate fuel tree limits s ≠ .outOfFuel t := by
  intro hout
  let undeclared : State := { s with functions := Table.empty }
  let W : Widening := ⟨limits, s, undeclared, #[], rfl, by simp [undeclared], hs⟩
  have hloopless : undeclared.IsLoopless := fun _ _ hdeclared => by cases hdeclared
  have hends : (evaluate fuel tree limits undeclared).Settled s.depth fun _ => True :=
    (settles_of_fuel (Nat.le_refl _) hfuel htree.loopless).1 undeclared rfl hloopless
  have hboth := coupled_evaluate W rfl hfree fuel
  obtain ⟨u, hother⟩ := exists_outOfFuel_of_coupled (hout ▸ hboth)
  have hother : evaluate fuel tree limits undeclared = .outOfFuel u := hother
  rw [hother] at hends
  exact hends

/-- Whether the arrays of a state are found again in another one: those that were there in an
earlier state where they were, and those made since then at new addresses. -/
structure Renews (s t u : State) (f : Address → Address) : Prop where
  injective : Function.Injective f
  old : ∀ a < s.heap.arrays.size, f a = a
  new : ∀ a, s.heap.arrays.size ≤ a → t.heap.arrays.size ≤ f a
  moves : t.heap.Moves f u.heap

/-- What both runs have made is at new addresses for the second one. -/
theorem renews_of_alike {W : Widening} {u : State} (h : W.Alike W.second u) :
    Renews W.first W.second u W.move where
  injective := Widening.move_injective
  old a ha := if_pos ha
  new a ha := by
    obtain ⟨k, rfl⟩ := Nat.exists_eq_add_of_le ha
    rw [Widening.move_new]
    exact Nat.le_add_right ..
  moves := h.moves

/-- **Effect-free expressions**: an expression without calls, and without the methods `push` and
`pop`, changes no variable, no function, no printed text, and no array that was there, however its
evaluation ends. It ends with the fuel that is enough, and evaluating it once more straight
afterwards gives the same fault, or the same value but for the addresses of the arrays made since.
The state has to be grounded, and at every point of a run it is. -/
theorem evaluate_of_effectFree (htree : tree.IsExpression) (hfree : tree.EffectFree)
    (hs : s.Grounded) (limits : Limits) :
    (∀ fuel, (evaluate fuel tree limits s).after.Grounded ∧
        ∃ fresh, s.Grown fresh (evaluate fuel tree limits s).after) ∧
      ((∃ v t u f, Renews s t u f ∧ ∀ fuel, enoughFuel limits s ≤ fuel →
          evaluate fuel tree limits s = .done v t ∧
            evaluate fuel tree limits t = .done (v.move f) u) ∨
        ∃ fault t u, ∀ fuel, enoughFuel limits s ≤ fuel →
          evaluate fuel tree limits s = .failed fault t ∧
            evaluate fuel tree limits t = .failed fault u) := by
  have hgrounded : ∀ fuel, (evaluate fuel tree limits s).after.Grounded := fun fuel =>
    grounded_after ((grounding_of_fuel fuel).evaluate 0 tree) hs limits
  refine ⟨fun fuel => ⟨hgrounded fuel, grown_evaluate hfree hs limits fuel⟩, ?_⟩
  let least := enoughFuel limits s
  obtain ⟨fresh, hgrown⟩ := grown_evaluate hfree hs limits least
  have hdepth := (evaluate_accounted limits least tree s).endsAt
  cases hout : evaluate least tree limits s with
  | outOfFuel t => exact absurd hout (evaluate_ne_outOfFuel htree hfree hs (Nat.le_refl _) t)
  | done v t =>
      rw [hout] at hgrown hdepth
      let W : Widening := ⟨limits, s, t, fresh, hgrown.bindings, hgrown.arrays, hs⟩
      have hboth := coupled_evaluate W hdepth.symm hfree least
      obtain ⟨w, u, hagain, rfl, halike⟩ := exists_done_of_coupled (hout ▸ hboth)
      exact .inl ⟨v, t, u, W.move, renews_of_alike halike, fun fuel hfuel =>
        ⟨evaluate_of_le hfuel hout (by simp), evaluate_of_le hfuel hagain (by simp)⟩⟩
  | failed fault t =>
      rw [hout] at hgrown hdepth
      let W : Widening := ⟨limits, s, t, fresh, hgrown.bindings, hgrown.arrays, hs⟩
      have hboth := coupled_evaluate W hdepth.symm hfree least
      obtain ⟨u, hagain⟩ := exists_failed_of_coupled (hout ▸ hboth)
      exact .inr ⟨fault, t, u, fun fuel hfuel =>
        ⟨evaluate_of_le hfuel hout (by simp), evaluate_of_le hfuel hagain (by simp)⟩⟩

/-- An array literal that holds the array of a variable and a new one. -/
def oldBesideNew : Tree := .arrayLiteral (.list [.variable (.text "a"), .arrayLiteral (.list [])])

/-- A state in which a variable holds an array. -/
def oneArray : State :=
  { State.start with
    bindings := Table.empty.set (.text "a") (.array 0)
    heap := (Heap.empty.allocate #[]).2 }

theorem isExpression_oldBesideNew : oldBesideNew.IsExpression :=
  .arrayLiteral (by simp [Tree.IsExpression.name, Tree.IsExpression.arrayLiteral])

theorem effectFree_oldBesideNew : oldBesideNew.EffectFree := by
  have hword : (Tree.text "a").Every Tree.IsQuiet := Tree.every_scalar trivial
  have hname : (Tree.variable (.text "a")).Every Tree.IsQuiet :=
    Tree.every_node rfl trivial (by simpa using hword)
  have hempty : (Tree.arrayLiteral (.list [])).Every Tree.IsQuiet :=
    Tree.every_node rfl trivial (by simpa using Tree.every_list trivial (by simp))
  refine Tree.every_node rfl trivial (List.forall_mem_singleton.mpr ?_)
  exact Tree.every_list trivial (by simp [hname, hempty])

theorem grounded_oneArray : oneArray.Grounded := by
  have hmade : State.Grounded { State.start with heap := (Heap.empty.allocate #[]).2 } :=
    State.Grounded.start.allocate (by simp)
  refine hmade.bind fun name v hv => ?_
  rw [Table.get?_set] at hv
  split at hv
  · rw [← Option.some.inj hv]
    rintro a ⟨⟩
    exact Nat.one_pos
  · cases hv

/-- The array of the variable is in both values, and each value has a new one beside it. -/
theorem evaluate_of_effectFree_oldBesideNew :
    oldBesideNew.IsExpression ∧ oldBesideNew.EffectFree ∧ oneArray.Grounded ∧
      ∃ t u outer inner, (∀ fuel, 7 ≤ fuel →
          evaluate fuel oldBesideNew ⟨3, 0⟩ oneArray = .done (.array 2) t ∧
            evaluate fuel oldBesideNew ⟨3, 0⟩ t = .done (.array outer) u) ∧
        t.heap.items 2 = #[.array 0, .array 1] ∧
        u.heap.items outer = #[.array 0, .array inner] ∧ 2 < outer ∧ 2 < inner := by
  have hfirst : evaluate 7 oldBesideNew ⟨3, 0⟩ oneArray =
      .done (.array 2) { oneArray with heap := ⟨#[#[], #[], #[.array 0, .array 1]]⟩ } := by rfl
  have hagain := evaluate_of_effectFree isExpression_oldBesideNew effectFree_oldBesideNew
    grounded_oneArray ⟨3, 0⟩
  refine ⟨isExpression_oldBesideNew, effectFree_oldBesideNew, grounded_oneArray, ?_⟩
  rcases hagain.2 with ⟨v, t, u, f, hrenews, hboth⟩ | ⟨fault, t, u, hboth⟩
  · obtain ⟨rfl, rfl⟩ := Outcome.done.inj ((hboth 7 (by decide)).1.symm.trans hfirst)
    refine ⟨_, u, f 2, f 1, hboth, rfl, ?_, hrenews.new 2 (by decide), hrenews.new 1 (by decide)⟩
    have hitems : Heap.items ⟨#[#[], #[], #[.array 0, .array 1]]⟩ 2 = #[.array 0, .array 1] := rfl
    rw [hrenews.moves 2, hitems]
    simp [Value.move, hrenews.old 0 (by decide)]
  · cases (hboth 7 (by decide)).1.symm.trans hfirst

end Expressions

end Run

end Sprig
