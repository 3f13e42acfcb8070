import Mathlib.Data.List.Basic
import Sprig.CommandLine.Path

/-!
# Shown paths

A path is shown as its slashes at the front and its parts between single slashes. Showing such a
path again changes nothing, and the path of the file for a tree is one of them. So the name that
is told for the file leads to it.
-/

namespace Sprig.CommandLine

/-- What a path starts with when it is shown. -/
def IsRoot (slashes : List Char) : Prop := slashes ∈ [[], ['/'], ['/', '/']]

/-- A part of a path as it is shown. -/
structure IsPart (part : String) : Prop where
  /-- The part says something. -/
  filled : part ≠ ""
  /-- The part leads elsewhere. -/
  leads : part ≠ "."
  /-- The part is one part. -/
  single : '/' ∉ part.toList

/-- Parts between slashes, behind the slashes at the front. -/
def joined (slashes : List Char) (ps : List String) : String :=
  String.ofList slashes ++ String.intercalate "/" ps

section Parts

theorem notMem_of_mem_splitOn {cs ds : List Char} {c : Char} (h : ds ∈ cs.splitOn c) : c ∉ ds := by
  induction cs generalizing ds with
  | nil =>
      rw [List.splitOn_nil, List.mem_singleton] at h
      rw [h]
      exact List.not_mem_nil
  | cons d cs ih =>
      rw [List.splitOn_cons_eq_if_modifyHead] at h
      split at h
      · rcases List.mem_cons.mp h with rfl | h
        · exact List.not_mem_nil
        · exact ih h
      · next hne =>
        obtain ⟨first, others, hsplit⟩ := List.exists_cons_of_ne_nil (List.splitOn_ne_nil c cs)
        rw [hsplit, List.modifyHead_cons] at h
        rcases List.mem_cons.mp h with rfl | h
        · have hfirst := ih (hsplit ▸ List.mem_cons_self)
          have hd : c ≠ d := fun heq => hne (beq_iff_eq.mpr heq.symm)
          simp [hd, hfirst]
        · exact ih (hsplit ▸ List.mem_cons_of_mem _ h)

theorem isPart_of_mem_parts {path part : String} (h : part ∈ parts path) : IsPart part := by
  obtain ⟨hmem, hsays⟩ := List.mem_filter.mp h
  obtain ⟨ds, hds, rfl⟩ := List.mem_map.mp hmem
  rw [decide_eq_true_eq] at hsays
  constructor
  · exact hsays.1
  · exact hsays.2
  · rw [String.toList_ofList]
    exact notMem_of_mem_splitOn hds

theorem isRoot_root (cs : List Char) : IsRoot (root cs) := by
  unfold root
  split <;> simp [IsRoot]

variable {slashes : List Char} {ps : List String}

theorem toList_joined (slashes : List Char) (ps : List String) :
    (joined slashes ps).toList = slashes ++ ['/'].intercalate (ps.map String.toList) := by
  rw [joined, String.toList_append, String.toList_ofList, String.toList_intercalate]
  rfl

/-- The slashes at the front cut off nothing but empty parts. -/
theorem splitOn_joined (hslashes : IsRoot slashes) (hne : ps ≠ []) (hps : ∀ p ∈ ps, IsPart p) :
    ∃ n, (joined slashes ps).toList.splitOn '/' =
      List.replicate n [] ++ ps.map String.toList := by
  have hsplit : (['/'].intercalate (ps.map String.toList)).splitOn '/' = ps.map String.toList := by
    apply List.splitOn_intercalate
    · intro cs hcs
      obtain ⟨p, hp, rfl⟩ := List.mem_map.mp hcs
      exact (hps p hp).single
    · simpa using hne
  rw [toList_joined]
  simp only [IsRoot, List.mem_cons, List.not_mem_nil, or_false] at hslashes
  rcases hslashes with rfl | rfl | rfl
  · exact ⟨0, hsplit⟩
  · refine ⟨1, ?_⟩
    rw [List.cons_append, List.splitOn_cons_eq_if_modifyHead, if_pos (beq_self_eq_true _)]
    exact congrArg _ hsplit
  · refine ⟨2, ?_⟩
    rw [List.cons_append, List.splitOn_cons_eq_if_modifyHead, if_pos (beq_self_eq_true _),
      List.cons_append, List.splitOn_cons_eq_if_modifyHead, if_pos (beq_self_eq_true _)]
    exact congrArg _ (congrArg _ hsplit)

theorem parts_joined (hslashes : IsRoot slashes) (hne : ps ≠ []) (hps : ∀ p ∈ ps, IsPart p) :
    parts (joined slashes ps) = ps := by
  obtain ⟨n, hsplit⟩ := splitOn_joined hslashes hne hps
  have hempty : ((List.replicate n []).map String.ofList).filter
      (fun part => part ≠ "" ∧ part ≠ ".") = [] := by
    rw [List.map_replicate, List.filter_replicate_of_neg]
    decide
  have hsays : ps.filter (fun part => part ≠ "" ∧ part ≠ ".") = ps := by
    rw [List.filter_eq_self]
    intro p hp
    exact decide_eq_true ⟨(hps p hp).filled, (hps p hp).leads⟩
  rw [parts, hsplit, List.map_append, List.map_map, List.filter_append, hempty, List.nil_append]
  simpa using hsays

theorem root_joined (hslashes : IsRoot slashes) (hne : ps ≠ []) (hps : ∀ p ∈ ps, IsPart p) :
    root (joined slashes ps).toList = slashes := by
  obtain ⟨p, ps, rfl⟩ := List.exists_cons_of_ne_nil hne
  have hp := hps p List.mem_cons_self
  obtain ⟨c, cs, hcs⟩ := List.exists_cons_of_ne_nil (String.toList_eq_nil_iff.not.mpr hp.filled)
  have hc : c ≠ '/' := fun heq => hp.single (by simp [hcs, heq])
  obtain ⟨rest, hrest⟩ : ∃ rest, ['/'].intercalate ((p :: ps).map String.toList) = c :: rest := by
    cases ps <;> simp [hcs, List.intercalate_cons_cons]
  rw [toList_joined, hrest, root]
  simp only [IsRoot, List.mem_cons, List.not_mem_nil, or_false] at hslashes
  rcases hslashes with rfl | rfl | rfl <;> simp [hc]

/-- Showing a shown path changes nothing. -/
theorem shownPath_joined (hslashes : IsRoot slashes) (hne : ps ≠ []) (hps : ∀ p ∈ ps, IsPart p) :
    shownPath (joined slashes ps) = joined slashes ps := by
  have hfilled : joined slashes ps ≠ "" := by
    intro heq
    have hparts := parts_joined hslashes hne hps
    rw [heq] at hparts
    exact hne (hparts.symm.trans (by decide))
  rw [shownPath, root_joined hslashes hne hps, parts_joined hslashes hne hps]
  exact if_neg hfilled

end Parts

section TreePaths

/-- What is added to the last part is added to the path. -/
theorem joined_append (slashes : List Char) (ps : List String) (part ending : String) :
    joined slashes (ps ++ [part]) ++ ending = joined slashes (ps ++ [part ++ ending]) := by
  have hparts : ['/'].intercalate ((ps ++ [part]).map String.toList) ++ ending.toList =
      ['/'].intercalate ((ps ++ [part ++ ending]).map String.toList) := by
    induction ps with
    | nil => simp
    | cons p ps ih =>
        obtain ⟨q, qs, hqs⟩ := List.exists_cons_of_ne_nil (List.concat_ne_nil part ps)
        cases ps <;> simp_all [List.intercalate_cons_cons]
  rw [← String.toList_inj, String.toList_append, toList_joined, toList_joined, List.append_assoc,
    hparts]

/-- A part stays one when the ending of a file for a tree is added. -/
theorem IsPart.append {part : String} (h : '/' ∉ part.toList) : IsPart (part ++ ".ast.json") := by
  have hlength : 9 ≤ (part ++ ".ast.json").length := by
    rw [String.length_append]
    exact Nat.le_add_left 9 part.length
  constructor
  · intro heq
    rw [heq] at hlength
    exact absurd hlength (by decide)
  · intro heq
    rw [heq] at hlength
    exact absurd hlength (by decide)
  · rw [String.toList_append, List.mem_append]
    rintro (hmem | hmem)
    · exact h hmem
    · revert hmem
      decide

variable (path : String)

/-- The path of the file for a tree is a shown path. -/
theorem exists_joined_treePath : ∃ slashes ps, IsRoot slashes ∧ ps ≠ [] ∧ (∀ p ∈ ps, IsPart p) ∧
    treePath path = joined slashes ps := by
  have hroot := isRoot_root path.toList
  rcases List.eq_nil_or_concat (parts path) with hparts | ⟨ps, part, hparts⟩
  · by_cases hslashes : root path.toList = []
    · refine ⟨[], ["." ++ ".ast.json"], by simp [IsRoot], by simp, ?_, ?_⟩
      · simpa using IsPart.append (by decide : '/' ∉ ".".toList)
      · rw [treePath, shownPath, hparts, hslashes]
        rfl
    · refine ⟨root path.toList, [] ++ ["" ++ ".ast.json"], hroot, by simp, ?_, ?_⟩
      · simpa using IsPart.append (by decide : '/' ∉ "".toList)
      · have hfilled : joined (root path.toList) [] ≠ "" := by
          simpa [← String.toList_inj, toList_joined] using hslashes
        rw [← joined_append, treePath, shownPath, hparts]
        exact congrArg (· ++ ".ast.json") (if_neg hfilled)
  · have hall : ∀ p ∈ parts path, IsPart p := fun p hp => isPart_of_mem_parts hp
    rw [hparts, List.concat_eq_append] at hall
    refine ⟨root path.toList, ps ++ [part ++ ".ast.json"], hroot, by simp, ?_, ?_⟩
    · intro p hp
      rcases List.mem_append.mp hp with hp | hp
      · exact hall p (List.mem_append_left _ hp)
      · obtain rfl := List.mem_singleton.mp hp
        exact IsPart.append (hall part (by simp)).single
    · have hfilled : joined (root path.toList) (ps ++ [part]) ≠ "" := by
        intro heq
        have := parts_joined hroot (by simp) hall
        rw [heq] at this
        simp [parts] at this
      rw [← joined_append, treePath, shownPath, hparts, List.concat_eq_append]
      exact congrArg (· ++ ".ast.json") (if_neg hfilled)

theorem shownPath_treePath : shownPath (treePath path) = treePath path := by
  obtain ⟨slashes, ps, hslashes, hne, hps, heq⟩ := exists_joined_treePath path
  rw [heq, shownPath_joined hslashes hne hps]

theorem treePath_ne_shownPath : treePath path ≠ shownPath path := by
  intro heq
  have hlength := congrArg String.length heq
  rw [treePath, String.length_append] at hlength
  exact absurd hlength (by simp)

theorem treePath_ne_here : treePath path ≠ shownPath "" := by
  have hhere : shownPath "" = "." := by decide
  intro heq
  have hlast := congrArg (fun s => s.toList.getLast?) (heq.trans hhere)
  simp [treePath] at hlast

theorem treePath_ne_tracePath : treePath path ≠ tracePath := by
  intro heq
  have hlast := congrArg (fun s => s.toList.getLast?) heq
  simp [treePath, tracePath] at hlast

end TreePaths

end Sprig.CommandLine
