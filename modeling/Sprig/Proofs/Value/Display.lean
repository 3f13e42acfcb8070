import Sprig.Value.Display

/-!
# Texts and their allowance

A text that fits an allowance is the same under every larger one.
-/

namespace Sprig.Value

/-- What a step gives for each item, another gives too if it gives all that the first one does. -/
theorem mapM_mono {α β : Type} {f g : α → Option β} {items : List α} {results : List β}
    (h : ∀ a b, f a = some b → g a = some b) (hf : items.mapM f = some results) :
    items.mapM g = some results := by
  induction items generalizing results with
  | nil => exact hf
  | cons a items ih =>
      simp only [List.mapM_cons, Option.pure_def, Option.bind_eq_bind,
        Option.bind_eq_some_iff] at hf ⊢
      obtain ⟨b, hb, rest, hrest, hresults⟩ := hf
      exact ⟨b, h a b hb, rest, ih hrest, hresults⟩

/-- What a step gives for all items, it gives for each of them. -/
theorem exists_of_mem_of_mapM {α β : Type} {f : α → Option β} {items : List α} {results : List β}
    {a : α} (hf : items.mapM f = some results) (ha : a ∈ items) : ∃ b, f a = some b := by
  induction items generalizing results with
  | nil => cases ha
  | cons first items ih =>
      simp only [List.mapM_cons, Option.pure_def, Option.bind_eq_bind,
        Option.bind_eq_some_iff] at hf
      obtain ⟨b, hb, rest, hrest, -⟩ := hf
      rcases List.mem_cons.mp ha with rfl | ha
      · exact ⟨b, hb⟩
      · exact ih hrest ha

/-- A larger allowance gives the same text. -/
theorem display?_mono {heap : Heap} {allowance more : Nat} (h : allowance ≤ more) {v : Value}
    {text : String} (htext : v.display? heap allowance = some text) :
    v.display? heap more = some text := by
  induction allowance generalizing more v text with
  | zero => cases v <;> simp_all [display?]
  | succ allowance ih =>
      obtain ⟨more, rfl⟩ := Nat.exists_eq_add_of_le' (Nat.lt_of_lt_of_le allowance.succ_pos h)
      have hle := Nat.le_of_succ_le_succ h
      cases v with
      | array address =>
          simp only [display?, Option.map_eq_some_iff] at htext ⊢
          obtain ⟨parts, hparts, rfl⟩ := htext
          exact ⟨parts, mapM_mono (fun v text htext => ih hle htext) hparts, rfl⟩
      | _ => simpa [display?] using htext

/-- Some texts are too deep only if one of them is. -/
theorem exists_mem_display?_eq_none {heap : Heap} {allowance : Nat} {vs : List Value}
    (h : vs.mapM (display? heap allowance) = Option.none) :
    ∃ v ∈ vs, v.display? heap allowance = Option.none := by
  induction vs with
  | nil => simp at h
  | cons v vs ih =>
      cases hv : v.display? heap allowance with
      | none => exact ⟨v, List.mem_cons_self, hv⟩
      | some text =>
          cases hvs : vs.mapM (display? heap allowance) with
          | none =>
              obtain ⟨other, hmem, hother⟩ := ih hvs
              exact ⟨other, List.mem_cons_of_mem v hmem, hother⟩
          | some texts => simp [List.mapM_cons, hv, hvs] at h

end Sprig.Value
