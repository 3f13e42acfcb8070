import Mathlib.Data.Fintype.EquivFin
import Mathlib.Data.List.Forall2
import Sprig.Proofs.Value.Display
import Sprig.Proofs.Value.Reach

/-!
# Values written out

A value is unfolded when every array in it is replaced by what it holds, again and again, until only
scalars are left. A value has an unfolding exactly if no cycle of arrays is reached from it, and
then its text is that of the unfolding, however its arrays are shared. A value from which a cycle is
reached has no text, whatever the allowance.

## Implementation notes

Arrays are made and changed at will, so no order of the addresses goes with what they hold. That
unfolding ends is shown by the finite number of addresses in use.
-/

namespace Sprig

/-- A value that is written out: a scalar, or the items of an array. -/
inductive Unfolding
  | scalar (value : Scalar)
  | array (items : List Unfolding)

namespace Unfolding

mutual

/-- The text of what is written out. -/
def text : Unfolding → String
  | .scalar .none => "none"
  | .scalar (.boolean b) => if b then "true" else "false"
  | .scalar (.integer k) => Numeric.integerText k
  | .scalar (.number x) => Numeric.displayText x
  | .scalar (.text s) => s
  | .array items => "[" ++ String.intercalate ", " (texts items) ++ "]"

/-- The texts of some of it. -/
def texts : List Unfolding → List String
  | [] => []
  | item :: items => item.text :: texts items

end

mutual

/-- How many arrays there are at most inside of each other. -/
def levels : Unfolding → Nat
  | .scalar _ => 0
  | .array items => mostLevels items + 1

/-- The most of some of it. -/
def mostLevels : List Unfolding → Nat
  | [] => 0
  | item :: items => max item.levels (mostLevels items)

end

variable {item : Unfolding} {items : List Unfolding} {bound : Nat}

theorem texts_eq_map (items : List Unfolding) : texts items = items.map text := by
  induction items with
  | nil => rfl
  | cons item items ih => rw [texts, ih, List.map_cons]

theorem levels_le_mostLevels (h : item ∈ items) : item.levels ≤ mostLevels items := by
  induction items with
  | nil => cases h
  | cons first rest ih =>
      rw [mostLevels]
      rcases List.mem_cons.mp h with rfl | h
      · exact Nat.le_max_left ..
      · exact Nat.le_trans (ih h) (Nat.le_max_right ..)

theorem levels_lt (h : item ∈ items) : item.levels < (array items).levels :=
  Nat.lt_succ_of_le (levels_le_mostLevels h)

theorem mostLevels_le_iff : mostLevels items ≤ bound ↔ ∀ item ∈ items, item.levels ≤ bound := by
  induction items with
  | nil => simp [mostLevels]
  | cons first rest ih => simp [mostLevels, ih]

end Unfolding

/-- Whether a value is written out as some unfolding. -/
inductive Value.Unfolds (heap : Heap) : Value → Unfolding → Prop
  | scalar (value : Scalar) : Unfolds heap (.ofScalar value) (.scalar value)
  | array {a items} (each : List.Forall₂ (Unfolds heap) (heap.items a).toList items) :
      Unfolds heap (.array a) (.array items)

/-- Whether an array stands in a cell of another one. -/
def Heap.Holds (heap : Heap) (a b : Address) : Prop := .array b ∈ heap.items a

/-- Whether an array is reached from a value that is reached from itself again. -/
def Value.MeetsCycle (heap : Heap) (v : Value) : Prop :=
  ∃ a, v.Reaches heap a ∧ Relation.TransGen heap.Holds a a

namespace Value

variable {heap : Heap} {v : Value} {a b : Address} {tree other : Unfolding} {allowance : Nat}

section Lists

variable {α β : Type} {R : α → β → Prop} {as : List α} {bs : List β} {a : α}

/-- What some values have each, they have as a list. -/
theorem exists_forall₂ (h : ∀ a ∈ as, ∃ b, R a b) : ∃ bs, List.Forall₂ R as bs := by
  induction as with
  | nil => exact ⟨[], .nil⟩
  | cons a as ih =>
      obtain ⟨b, hb⟩ := h a (by simp)
      obtain ⟨bs, hbs⟩ := ih fun a ha => h a (by simp [ha])
      exact ⟨b :: bs, .cons hb hbs⟩

theorem exists_mem_of_forall₂ (h : List.Forall₂ R as bs) (ha : a ∈ as) : ∃ b ∈ bs, R a b := by
  induction h with
  | nil => cases ha
  | cons head _ ih =>
      rcases List.mem_cons.mp ha with rfl | ha
      · exact ⟨_, List.mem_cons_self, head⟩
      · obtain ⟨b, hb, hab⟩ := ih ha
        exact ⟨b, List.mem_cons_of_mem _ hb, hab⟩

/-- What belongs to some values each is one list, if for each of them it is one. -/
theorem forall₂_unique {others : List β} (h : ∀ a, ∀ b ∈ bs, ∀ c, R a b → R a c → b = c)
    (hbs : List.Forall₂ R as bs) (hothers : List.Forall₂ R as others) : bs = others := by
  induction hbs generalizing others with
  | nil =>
      cases hothers
      rfl
  | cons head _ ih =>
      cases hothers with
      | cons headOther rest =>
          rw [h _ _ (by simp) _ head headOther, ih (fun a b hb => h a b (by simp [hb])) rest]

end Lists

theorem scalar_or_array (v : Value) : (∃ value, v = .ofScalar value) ∨ ∃ a, v = .array a := by
  cases v with
  | none => exact .inl ⟨.none, rfl⟩
  | boolean b => exact .inl ⟨.boolean b, rfl⟩
  | number x => exact .inl ⟨.number x, rfl⟩
  | text s => exact .inl ⟨.text s, rfl⟩
  | integer k => exact .inl ⟨.integer k, rfl⟩
  | array a => exact .inr ⟨a, rfl⟩

theorem unfolds_scalar {value : Scalar} (h : (Value.ofScalar value).Unfolds heap tree) :
    tree = .scalar value := by
  generalize hv : Value.ofScalar value = v at h
  cases h with
  | scalar other => cases value <;> cases other <;> cases hv <;> rfl
  | array each => cases value <;> cases hv

theorem unfolds_array (h : (Value.array a).Unfolds heap tree) :
    ∃ items, tree = .array items ∧
      List.Forall₂ (Unfolds heap) (heap.items a).toList items := by
  generalize hv : Value.array a = v at h
  cases h with
  | scalar value => cases value <;> cases hv
  | array each =>
      obtain rfl := Value.array.inj hv
      exact ⟨_, rfl, each⟩

/-- A value has one unfolding at most. -/
theorem Unfolds.unique (h : v.Unfolds heap tree) (hother : v.Unfolds heap other) :
    tree = other := by
  induction hlevels : tree.levels using Nat.strong_induction_on generalizing v tree other with
  | _ levels ih =>
      rcases v.scalar_or_array with ⟨value, rfl⟩ | ⟨a, rfl⟩
      · rw [unfolds_scalar h, unfolds_scalar hother]
      · obtain ⟨items, rfl, each⟩ := unfolds_array h
        obtain ⟨others, rfl, eachOther⟩ := unfolds_array hother
        congr 1
        refine forall₂_unique (fun w item hmem other hitem hitem' => ?_) each eachOther
        exact ih _ (hlevels ▸ Unfolding.levels_lt hmem) hitem hitem' rfl

section Texts

/-- The text of a scalar does not depend on arrays. -/
theorem display?_ofScalar (heap : Heap) (allowance : Nat) (value : Scalar) :
    (Value.ofScalar value).display? heap allowance = some (Unfolding.scalar value).text := by
  cases value <;> simp [ofScalar, display?, Unfolding.text]

theorem mapM_display? {vs : List Value} {items : List Unfolding}
    (h : List.Forall₂ (fun v item => v.display? heap allowance =
      if item.levels ≤ allowance then some item.text else Option.none) vs items) :
    vs.mapM (display? heap allowance) =
      if Unfolding.mostLevels items ≤ allowance then some (Unfolding.texts items)
      else Option.none := by
  induction h with
  | nil => simp [Unfolding.mostLevels, Unfolding.texts]
  | @cons v item vs items head _ ih =>
      rw [List.mapM_cons, head, ih]
      by_cases hitem : item.levels ≤ allowance
      · by_cases hitems : Unfolding.mostLevels items ≤ allowance <;>
          simp [Unfolding.mostLevels, Unfolding.texts, hitem, hitems]
      · simp [Unfolding.mostLevels, hitem]

/-- The text of a value is that of its unfolding, if it is nested no deeper than allowed. -/
theorem display?_of_unfolds (h : v.Unfolds heap tree) (allowance : Nat) :
    v.display? heap allowance =
      if tree.levels ≤ allowance then some tree.text else Option.none := by
  induction allowance generalizing v tree with
  | zero =>
      cases h with
      | scalar value => simp [display?_ofScalar, Unfolding.levels]
      | array => simp [display?, Unfolding.levels]
  | succ allowance ih =>
      cases h with
      | scalar value => simp [display?_ofScalar, Unfolding.levels]
      | @array a items each =>
          rw [display?, mapM_display? (each.imp fun _ _ hitem => ih hitem)]
          by_cases hitems : Unfolding.mostLevels items ≤ allowance <;>
            simp [Unfolding.levels, Unfolding.text, hitems]

/-- An array has an unfolding if all of its items have one. -/
theorem exists_unfolds_of_items (h : ∀ item ∈ heap.items a, ∃ tree, item.Unfolds heap tree) :
    ∃ tree, (Value.array a).Unfolds heap tree := by
  obtain ⟨items, hitems⟩ := exists_forall₂ fun item hitem => h item (Array.mem_toList_iff.mp hitem)
  exact ⟨.array items, .array hitems⟩

/-- Only what has an unfolding has a text. -/
theorem exists_unfolds_of_display? {text : String} (h : v.display? heap allowance = some text) :
    ∃ tree, v.Unfolds heap tree := by
  induction allowance generalizing v text with
  | zero =>
      rcases v.scalar_or_array with ⟨value, rfl⟩ | ⟨a, rfl⟩
      · exact ⟨_, .scalar value⟩
      · cases h
  | succ allowance ih =>
      rcases v.scalar_or_array with ⟨value, rfl⟩ | ⟨a, rfl⟩
      · exact ⟨_, .scalar value⟩
      · rw [display?, Option.map_eq_some_iff] at h
        obtain ⟨parts, hparts, -⟩ := h
        refine exists_unfolds_of_items fun item hitem => ?_
        obtain ⟨part, hpart⟩ := exists_of_mem_of_mapM hparts (Array.mem_toList_iff.mpr hitem)
        exact ih hpart

end Texts

section Cycles

/-- What an array holds has an unfolding with fewer levels than the one of the array. -/
theorem Unfolds.of_holds (h : (Value.array a).Unfolds heap tree) (holds : heap.Holds a b) :
    ∃ inner, (Value.array b).Unfolds heap inner ∧ inner.levels < tree.levels := by
  obtain ⟨items, rfl, each⟩ := unfolds_array h
  obtain ⟨inner, hmem, hinner⟩ := exists_mem_of_forall₂ each (Array.mem_toList_iff.mpr holds)
  exact ⟨inner, hinner, Unfolding.levels_lt hmem⟩

theorem Unfolds.of_transGen (h : (Value.array a).Unfolds heap tree)
    (holds : Relation.TransGen heap.Holds a b) :
    ∃ inner, (Value.array b).Unfolds heap inner ∧ inner.levels < tree.levels := by
  induction holds with
  | single holds => exact h.of_holds holds
  | tail _ holds ih =>
      obtain ⟨middle, hmiddle, hlt⟩ := ih
      obtain ⟨inner, hinner, hless⟩ := hmiddle.of_holds holds
      exact ⟨inner, hinner, hless.trans hlt⟩

/-- Around a cycle the levels would go down for ever. -/
theorem not_unfolds_of_cycle (cycle : Relation.TransGen heap.Holds a a) (tree : Unfolding) :
    ¬(Value.array a).Unfolds heap tree := by
  induction hlevels : tree.levels using Nat.strong_induction_on generalizing tree with
  | _ levels ih =>
      intro h
      obtain ⟨inner, hinner, hlt⟩ := h.of_transGen cycle
      exact ih inner.levels (hlevels ▸ hlt) inner rfl hinner

theorem Unfolds.of_reaches (h : v.Unfolds heap tree) (reaches : v.Reaches heap a) :
    ∃ inner, (Value.array a).Unfolds heap inner := by
  induction reaches with
  | root hv => exact ⟨tree, hv ▸ h⟩
  | cell _ mem ih =>
      obtain ⟨middle, hmiddle⟩ := ih
      obtain ⟨inner, hinner, -⟩ := hmiddle.of_holds mem
      exact ⟨inner, hinner⟩

/-- Where no cycle is reached, no way through the arrays in use goes on for ever. -/
theorem wellFounded_of_not_meetsCycle (h : ¬v.MeetsCycle heap) :
    WellFounded fun b a : {a // v.Reaches heap a ∧ a < heap.arrays.size} =>
      Relation.TransGen heap.Holds a b := by
  have _ : Finite {a // v.Reaches heap a ∧ a < heap.arrays.size} :=
    Finite.of_injective (fun a => (⟨a, a.2.2⟩ : Fin heap.arrays.size))
      fun a b hab => Subtype.ext (Fin.mk.inj hab)
  have _ : IsTrans {a // v.Reaches heap a ∧ a < heap.arrays.size} fun b a =>
      Relation.TransGen heap.Holds a b := ⟨fun _ _ _ hab hbc => hbc.trans hab⟩
  have _ : Std.Irrefl fun b a : {a // v.Reaches heap a ∧ a < heap.arrays.size} =>
      Relation.TransGen heap.Holds a b := ⟨fun a cycle => h ⟨a, a.2.1, cycle⟩⟩
  exact Finite.wellFounded_of_trans_of_irrefl _

theorem exists_unfolds_of_reaches (h : ¬v.MeetsCycle heap) (reaches : v.Reaches heap a) :
    ∃ tree, (Value.array a).Unfolds heap tree := by
  have hfree : ∀ b, heap.arrays.size ≤ b → ∃ tree, (Value.array b).Unfolds heap tree :=
    fun b hle => exists_unfolds_of_items fun item hitem => by simp [Heap.items_of_le hle] at hitem
  have hused : ∀ b : {b // v.Reaches heap b ∧ b < heap.arrays.size},
      ∃ tree, (Value.array b).Unfolds heap tree := by
    intro b
    induction b using (wellFounded_of_not_meetsCycle h).induction with
    | _ b ih =>
        refine exists_unfolds_of_items fun item hitem => ?_
        rcases item.scalar_or_array with ⟨value, rfl⟩ | ⟨c, rfl⟩
        · exact ⟨_, .scalar value⟩
        · rcases Nat.lt_or_ge c heap.arrays.size with hlt | hle
          · exact ih ⟨c, .cell b.2.1 hitem, hlt⟩ (.single hitem)
          · exact hfree c hle
  rcases Nat.lt_or_ge a heap.arrays.size with hlt | hle
  · exact hused ⟨a, reaches, hlt⟩
  · exact hfree a hle

/-- A value has an unfolding exactly if no cycle is reached from it. -/
theorem exists_unfolds_iff : (∃ tree, v.Unfolds heap tree) ↔ ¬v.MeetsCycle heap := by
  constructor
  · rintro ⟨tree, h⟩ ⟨a, reaches, cycle⟩
    obtain ⟨inner, hinner⟩ := h.of_reaches reaches
    exact not_unfolds_of_cycle cycle inner hinner
  · intro h
    rcases v.scalar_or_array with ⟨value, rfl⟩ | ⟨a, rfl⟩
    · exact ⟨_, .scalar value⟩
    · exact exists_unfolds_of_reaches h (.root rfl)

/-- A value from which a cycle is reached has no text, whatever the allowance. -/
theorem display?_of_meetsCycle (h : v.MeetsCycle heap) (allowance : Nat) :
    v.display? heap allowance = Option.none := by
  by_contra htext
  obtain ⟨text, htext⟩ := Option.ne_none_iff_exists'.mp htext
  exact exists_unfolds_iff.mp (exists_unfolds_of_display? htext) h

end Cycles

end Value

end Sprig
