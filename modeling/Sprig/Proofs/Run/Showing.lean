import Sprig.Proofs.Run.Outward
import Sprig.Proofs.Value.Unfolding

/-!
# Values that are shown

A run shows a value when it makes a text of it: by printing it, by joining it to a text, or by
joining the items of an array that holds it. The text is that of the unfolding of the value. A value
without a text ends the program, and nothing is printed or changed on the way out.
-/

namespace Sprig.Run

variable {limits : Limits} {s t : State} {v : Value} {address : Address} {args : List Value}

section Texts

theorem display_of_unfolds {tree : Unfolding} (h : v.Unfolds s.heap tree) (limits : Limits) :
    display v limits s =
      if tree.levels ≤ limits.textAllowance then .done tree.text s
      else .failed .textTooDeep s := by
  rw [display, Value.display?_of_unfolds h]
  by_cases hlevels : tree.levels ≤ limits.textAllowance <;> simp [hlevels]

theorem display_of_no_text (h : v.display? s.heap limits.textAllowance = none) :
    display v limits s = .failed .textTooDeep s := by
  rw [display, h]

theorem displayAll_of_unfolds {vs : List Value} {items : List Unfolding}
    (h : List.Forall₂ (Value.Unfolds s.heap) vs items) (limits : Limits) :
    displayAll vs limits s =
      if ∀ item ∈ items, item.levels ≤ limits.textAllowance then .done (items.map Unfolding.text) s
      else .failed .textTooDeep s := by
  have hmapM := Value.mapM_display? (h.imp fun _ _ hitem =>
    Value.display?_of_unfolds hitem limits.textAllowance)
  rw [displayAll, hmapM, ← Unfolding.texts_eq_map]
  simp only [← Unfolding.mostLevels_le_iff]
  by_cases hlevels : Unfolding.mostLevels items ≤ limits.textAllowance <;> simp [hlevels]

theorem displayAll_of_no_text {vs : List Value} (hmem : v ∈ vs)
    (h : v.display? s.heap limits.textAllowance = none) :
    displayAll vs limits s = .failed .textTooDeep s := by
  have hmapM : vs.mapM (Value.display? s.heap limits.textAllowance) = none := by
    by_contra hsome
    obtain ⟨texts, htexts⟩ := Option.ne_none_iff_exists'.mp hsome
    obtain ⟨text, htext⟩ := Value.exists_of_mem_of_mapM htexts hmem
    rw [h] at htext
    cases htext
  rw [displayAll, hmapM]

end Texts

section Joining

/-- The value that joins the items of an array: the first argument, or a comma if there is none or
it counts as false. -/
def separator (args : List Value) : Value :=
  if (args.headD .none).isTruthy then args.headD .none else .text ","

theorem joinItems_eq (address : Address) (args : List Value) :
    joinItems address args = do
      let between ← display (separator args)
      let items ← itemsOf address
      let texts ← displayAll items.toList
      return .text (String.intercalate between texts) := by
  unfold joinItems separator
  by_cases htruthy : (args.headD .none).isTruthy
  · simp only [htruthy, if_true]
  · have hcomma : display (.text ",") = (pure "," : Run String) := by
      funext limits s
      simp [display, Value.display?]
    rw [if_neg htruthy, if_neg htruthy, hcomma]

/-- The items are joined by what they are written out as. -/
theorem joinItems_of_unfolds {between : Unfolding} {items : List Unfolding}
    (hbetween : (separator args).Unfolds s.heap between)
    (hitems : List.Forall₂ (Value.Unfolds s.heap) (s.heap.items address).toList items)
    (limits : Limits) :
    joinItems address args limits s =
      if ∀ tree ∈ between :: items, tree.levels ≤ limits.textAllowance then
        .done (.text (String.intercalate between.text (items.map Unfolding.text))) s
      else .failed .textTooDeep s := by
  rw [joinItems_eq, bind_apply, display_of_unfolds hbetween]
  by_cases hgap : between.levels ≤ limits.textAllowance
  · simp only [hgap, if_true, List.forall_mem_cons, true_and]
    rw [bind_of_done (show itemsOf address limits s = .done _ s from rfl), bind_apply,
      displayAll_of_unfolds hitems]
    by_cases hlevels : ∀ item ∈ items, item.levels ≤ limits.textAllowance
    · rw [if_pos hlevels, if_pos hlevels]
      rfl
    · rw [if_neg hlevels, if_neg hlevels]
  · simp [hgap]

/-- Items or a separator without a text are not joined. -/
theorem joinItems_of_no_text (hv : v = separator args ∨ v ∈ s.heap.items address)
    (h : v.display? s.heap limits.textAllowance = none) :
    joinItems address args limits s = .failed .textTooDeep s := by
  rw [joinItems_eq, bind_apply]
  cases hbetween : (separator args).display? s.heap limits.textAllowance with
  | none => rw [display_of_no_text hbetween]
  | some text =>
      have hmem : v ∈ s.heap.items address := by
        rcases hv with rfl | hmem
        · rw [h] at hbetween
          cases hbetween
        · exact hmem
      simp only [display, hbetween]
      rw [bind_of_done (show itemsOf address limits s = .done _ s from rfl), bind_apply,
        displayAll_of_no_text (Array.mem_toList_iff.mpr hmem) h]

end Joining

/-- What an operator stands between: it and the values of its operands. -/
def operandsOf (fuel : Nat) (operator left right : Tree) : Run (Scalar × Value × Value) := do
  let l ← evaluate fuel left
  let r ← evaluate fuel right
  return (← scalarPart operator, l, r)

/-- What a method works on: its array, the values of its arguments, and its name. -/
def receiverOf (fuel : Nat) (array method args : Tree) : Run (Address × List Value × Scalar) := do
  let address ← lookupArray (← scalarPart array)
  let args ← values (evaluate fuel) (← listPart args)
  return (address, args, ← scalarPart method)

/-- Which values a task makes a text of, and in which state, once its operands are known. -/
inductive Shows (limits : Limits) : Task → State → Value → State → Prop
  | print {fuel value v s mid t} (enters : s.Enters limits mid)
      (before : evaluate fuel value limits mid = .done v t) :
      Shows limits (.statement (.print value)) s v t
  | joined {fuel operator left right word l r v s mid t} (enters : s.Enters limits mid)
      (before : operandsOf fuel operator left right limits mid = .done (word, l, r) t)
      (joins : joinsTexts word l r) (shown : v = l ∨ v = r) :
      Shows limits (.expression (.binary operator left right)) s v t
  | items {fuel array method args address vs v s mid t} (enters : s.Enters limits mid)
      (before : receiverOf fuel array method args limits mid = .done (address, vs, .text "join") t)
      (shown : v = separator vs ∨ v ∈ t.heap.items address) :
      Shows limits (.expression (.methodExpression array method args)) s v t
  | itemsAside {fuel array method args address vs v s mid t} (enters : s.Enters limits mid)
      (before : receiverOf fuel array method args limits mid = .done (address, vs, .text "join") t)
      (shown : v = separator vs ∨ v ∈ t.heap.items address) :
      Shows limits (.statement (.methodCall array method args)) s v t

section Failing

variable {task first : Task} {trees : List Tree}

theorem failsIn_applyBinary {word : Scalar} {l r : Value} (joins : joinsTexts word l r)
    (hv : v = l ∨ v = r) (h : v.display? s.heap limits.textAllowance = none) :
    FailsIn s (applyBinary word l r) limits .textTooDeep s := by
  rw [applyBinary, if_pos joins]
  cases hleft : l.display? s.heap limits.textAllowance with
  | none => exact .bind ⟨0, display_of_no_text hleft⟩ _
  | some front =>
      have hright : r.display? s.heap limits.textAllowance = none := by
        rcases hv with rfl | rfl
        · rw [h] at hleft
          cases hleft
        · exact h
      refine .after (v := front) (t := s) (by simp only [display, hleft]) ?_
      exact .bind ⟨0, display_of_no_text hright⟩ _

theorem failsIn_joining {fuel : Nat} {array method args : Tree} {vs : List Value}
    (before : receiverOf fuel array method args limits s = .done (address, vs, .text "join") t)
    (hv : v = separator vs ∨ v ∈ t.heap.items address)
    (h : v.display? t.heap limits.textAllowance = none) :
    FailsIn t (callMethod (fuel + 1) array method args) limits .textTooDeep s := by
  obtain ⟨word, a, hword, before⟩ := exists_of_bind before
  obtain ⟨found, b, hfound, before⟩ := exists_of_bind before
  obtain ⟨items, c, hitems, before⟩ := exists_of_bind before
  obtain ⟨given, d, hgiven, before⟩ := exists_of_bind before
  obtain ⟨name, e, hname, before⟩ := exists_of_bind before
  obtain ⟨hparts, rfl⟩ := Outcome.done.inj before
  obtain ⟨rfl, rfl, rfl⟩ : found = address ∧ given = vs ∧ name = .text "join" := by
    simpa using hparts
  have hjoin : FailsIn e (applyMethod found (.text "join") given) limits .textTooDeep e :=
    ⟨0, joinItems_of_no_text hv h⟩
  rw [callMethod]
  exact .after hword (.after hfound (.after hitems (.after hgiven (.after hname (hjoin.bind _)))))

/-- A task fails when it shows a value that has no text, in the state in which it shows it. -/
theorem Shows.fails (shows : Shows limits task s v t)
    (h : v.display? t.heap limits.textAllowance = none) :
    Fails t limits .textTooDeep task s := by
  cases shows with
  | @print fuel value _ _ mid _ enters before =>
      refine ⟨fuel + 1, (failsIn_map _).mpr ?_⟩
      rw [execute]
      exact .nested enters (.after before (.bind ⟨0, display_of_no_text h⟩ _))
  | @joined fuel operator left right word l r _ _ mid _ enters before joins shown =>
      obtain ⟨l', a, hleft, before⟩ := exists_of_bind before
      obtain ⟨r', b, hright, before⟩ := exists_of_bind before
      obtain ⟨word', c, hword, before⟩ := exists_of_bind before
      obtain ⟨hparts, rfl⟩ := Outcome.done.inj before
      obtain ⟨rfl, rfl, rfl⟩ : word' = word ∧ l' = l ∧ r' = r := by simpa using hparts
      refine ⟨fuel + 1, (failsIn_map _).mpr ?_⟩
      rw [evaluate]
      exact .nested enters
        (.after hleft (.after hright (.after hword (failsIn_applyBinary joins shown h))))
  | @items fuel array method args address vs _ _ mid _ enters before shown =>
      refine ⟨fuel + 2, (failsIn_map _).mpr ?_⟩
      rw [evaluate]
      exact .nested enters (failsIn_joining before shown h)
  | @itemsAside fuel array method args address vs _ _ mid _ enters before shown =>
      refine ⟨fuel + 2, (failsIn_map _).mpr ?_⟩
      rw [execute]
      exact .nested enters ((failsIn_joining before shown h).bind _)

/-- A program ends when a task that it comes to shows a value that has no text. -/
theorem Shows.program_fails {u : State} (shows : Shows limits task t v u)
    (comes : Comes limits (.program trees) s task t) (hkept : limits.depth ≤ greatestDepth)
    (h : v.display? u.heap limits.textAllowance = none) :
    ∃ least levels, ∀ fuel, least ≤ fuel →
      program fuel trees limits s = .failed .textTooDeep (u.outOf levels) :=
  (shows.fails h).program_fails comes hkept

/-- Arrays are shown by what they are written out as. A value from which no cycle is reached is
written out in one way, and its text is the text of that, if the allowance is enough for its levels;
so values that are written out alike have the same text, whatever arrays they share. A value from
which a cycle is reached has no text for any allowance. Taking a text leaves the state alone, and so
does joining the items of an array, which gives the texts of the items with that of the separator
between them and fails if one of these has no text. Wherever a program shows a value without a text,
it ends with the fault of texts that are too deep; nothing is printed or changed after that. -/
theorem text_of_unfolding (limits : Limits) :
    (∀ heap (v : Value), ¬v.MeetsCycle heap → ∃! tree, v.Unfolds heap tree) ∧
    (∀ heap (v : Value) tree, v.Unfolds heap tree → ∀ allowance, v.display? heap allowance =
      if tree.levels ≤ allowance then some tree.text else none) ∧
    (∀ heap (v : Value), v.MeetsCycle heap → ∀ allowance, v.display? heap allowance = none) ∧
    (∀ s v tree, v.Unfolds s.heap tree → display v limits s =
      if tree.levels ≤ limits.textAllowance then .done tree.text s
      else .failed .textTooDeep s) ∧
    (∀ s v, v.MeetsCycle s.heap → display v limits s = .failed .textTooDeep s) ∧
    (∀ s address args between items, (separator args).Unfolds s.heap between →
      List.Forall₂ (Value.Unfolds s.heap) (s.heap.items address).toList items →
      joinItems address args limits s =
        if ∀ tree ∈ between :: items, tree.levels ≤ limits.textAllowance then
          .done (.text (String.intercalate between.text (items.map Unfolding.text))) s
        else .failed .textTooDeep s) ∧
    (∀ s address args v, v = separator args ∨ v ∈ s.heap.items address → v.MeetsCycle s.heap →
      joinItems address args limits s = .failed .textTooDeep s) ∧
    Fault.textTooDeep.message = "RecursionLimitExceeded: maximum recursion depth exceeded" ∧
    (limits.depth ≤ greatestDepth → ∀ trees s task t v u, Comes limits (.program trees) s task t →
      Shows limits task t v u → v.display? u.heap limits.textAllowance = none →
      ∃ least after, (∀ fuel, least ≤ fuel →
          program fuel trees limits s = .failed .textTooDeep after) ∧
        after.printed = u.printed ∧ after.heap = u.heap ∧ after.bindings = u.bindings) := by
  refine ⟨?_, ?_, ?_, ?_, ?_, ?_, ?_, by decide, ?_⟩
  · intro heap v hacyclic
    obtain ⟨tree, htree⟩ := Value.exists_unfolds_iff.mpr hacyclic
    exact ⟨tree, htree, fun other hother => hother.unique htree⟩
  · exact fun heap v tree htree allowance => Value.display?_of_unfolds htree allowance
  · exact fun heap v hcycle allowance => Value.display?_of_meetsCycle hcycle allowance
  · exact fun s v tree htree => display_of_unfolds htree limits
  · exact fun s v hcycle => display_of_no_text (Value.display?_of_meetsCycle hcycle _)
  · intro s address args between items hbetween hitems
    exact joinItems_of_unfolds hbetween hitems limits
  · intro s address args v hv hcycle
    exact joinItems_of_no_text hv (Value.display?_of_meetsCycle hcycle _)
  · intro hkept trees s task t v u comes shows hnone
    obtain ⟨least, levels, hfails⟩ := shows.program_fails comes hkept hnone
    exact ⟨least, u.outOf levels, hfails, rfl, rfl, rfl⟩

/-- An array that was pushed into itself is not printed, and what was printed before stays. -/
theorem text_of_unfolding_of_itself :
    let a : Tree := .variable (.text "a")
    let trees : List Tree :=
      [.assignment (.text "a") (.arrayLiteral (.list [])),
        .methodCall (.text "a") (.text "push") (.list [a]), .print (.string (.text "x")), .print a]
    ∃ least after, (∀ fuel, least ≤ fuel →
        program fuel trees ⟨1500, 0⟩ .start = .failed .textTooDeep after) ∧
      after.printed = #["x\n"] := by
  intro a trees
  let name : Scalar := .text "a"
  let made : State := ⟨⟨[(name, .array 0)]⟩, Table.empty, ⟨#[#[]]⟩, 0, #[], #[]⟩
  let knot : State := { made with heap := ⟨#[#[.array 0]]⟩ }
  let printed : State := { knot with printed := #["x\n"] }
  have hcomes : Comes ⟨1500, 0⟩ (.program trees) .start (.statement (.print a)) printed := by
    have hmade : Begins ⟨1500, 0⟩ (.program trees) .start (.program (trees.drop 1)) made :=
      @Begins.programRest _ 3 _ _ (.array 0) _ _ (by rfl)
    have hknot : Begins ⟨1500, 0⟩ (.program (trees.drop 1)) made (.program (trees.drop 2)) knot :=
      @Begins.programRest _ 3 _ _ (.number (Numeric.ofCount 1)) _ _ (by rfl)
    have hprinted : Begins ⟨1500, 0⟩ (.program (trees.drop 2)) knot (.program [.print a]) printed :=
      @Begins.programRest _ 3 _ _ (.text "x") _ _ (by rfl)
    exact (((Comes.start.next hmade).next hknot).next hprinted).next (.program (by rfl))
  have hshows : Shows ⟨1500, 0⟩ (.statement (.print a)) printed (.array 0)
      { printed with depth := 1 } :=
    @Shows.print _ 1 _ _ _ _ _ ⟨by decide, rfl⟩ (by rfl)
  have hcycle : (Value.array 0).MeetsCycle printed.heap :=
    ⟨0, .root rfl, .single (by simp [Heap.Holds, Heap.items, printed, knot])⟩
  obtain ⟨-, -, htext, -, -, -, -, -, hprogram⟩ := text_of_unfolding ⟨1500, 0⟩
  obtain ⟨least, after, hfails, hprinted, -⟩ :=
    hprogram (by decide) trees .start _ _ _ _ hcomes hshows (htext printed.heap _ hcycle _)
  exact ⟨least, after, hfails, hprinted⟩

end Failing

end Sprig.Run
