import Mathlib.Logic.Relation
import Sprig.Proofs.Tree.Oversized

/-!
# Documents are read for their declared fields

An object is read for its kind and for the parts that the kind declares. The order of its entries,
entries of other names whatever they hold, and declared parts that are null make no difference,
anywhere in a document: it stands for the same trees, or the same fault is told of it.

## Implementation notes

An edit is one such change at one place, and documents differ by edits in either direction. An entry
that is passed over may hold what cannot be read itself, so it may not be changed by edits only: it
is taken out and put in again with other contents.
-/

namespace Sprig

namespace Json

section Lookup

variable {α : Type} {front back entries others : List (String × α)} {name field : String} {a : α}

/-- An entry decides for its own name only, wherever it stands. -/
theorem lastWith?_insert (h : field ≠ name) :
    lastWith? (front ++ (name, a) :: back) field = lastWith? (front ++ back) field := by
  simp [lastWith?, List.find?_append, h.symm]

theorem lastWith?_eq_none (h : name ∉ entries.map (·.1)) : lastWith? entries name = none := by
  cases hfound : lastWith? entries name with
  | none => rfl
  | some a => exact absurd (List.mem_map_of_mem (mem_of_lastWith? hfound)) h

theorem lastWith?_eq_some (h : name ∉ back.map (·.1)) :
    lastWith? (front ++ (name, a) :: back) name = some a := by
  have hback : ∀ entry ∈ back, entry.1 ≠ name := fun entry hentry heq =>
    h (heq ▸ List.mem_map_of_mem hentry)
  rw [List.append_cons, lastWith?_append _ hback, lastWith?_concat, if_pos rfl]

/-- With names of their own, each of the entries counts. -/
theorem lastWith?_eq_some_iff (nodup : (entries.map (·.1)).Nodup) :
    lastWith? entries name = some a ↔ (name, a) ∈ entries := by
  refine ⟨mem_of_lastWith?, fun hmem => ?_⟩
  obtain ⟨front, back, rfl⟩ := List.append_of_mem hmem
  rw [List.map_append, List.map_cons] at nodup
  exact lastWith?_eq_some (List.nodup_cons.mp (List.nodup_append.mp nodup).2.1).1

/-- With names of their own, the order of the entries does not count. -/
theorem lastWith?_perm (nodup : (entries.map (·.1)).Nodup) (perm : entries.Perm others)
    (name : String) : lastWith? entries name = lastWith? others name := by
  have hothers : (others.map (·.1)).Nodup := (perm.map _).nodup_iff.mp nodup
  ext a
  rw [lastWith?_eq_some_iff nodup, lastWith?_eq_some_iff hothers, perm.mem_iff]

end Lookup

end Json

namespace Tree

/-- The names that an object is read for. -/
def namesRead (entries : List (String × Json)) : List String :=
  match kindOf (Json.lastWith? entries kindField) with
  | .ok kind => kindField :: kind.fields
  | .error _ => [kindField]

/-- A change at one place of a document. -/
inductive Edit : Json → Json → Prop
  /-- The same change in an item of a list. -/
  | item {front back value other} (h : Edit value other) :
      Edit (.list (front ++ value :: back)) (.list (front ++ other :: back))
  /-- The same change in an entry of an object. -/
  | entry {front back name value other} (h : Edit value other) :
      Edit (.object (front ++ (name, value) :: back)) (.object (front ++ (name, other) :: back))
  /-- Another order of the entries. -/
  | reorder {entries others} (nodup : (entries.map (·.1)).Nodup) (perm : entries.Perm others) :
      Edit (.object entries) (.object others)
  /-- One more entry, of a name that the object is not read for. -/
  | passedOver {front back name} (value : Json) (h : name ∉ namesRead (front ++ back)) :
      Edit (.object (front ++ back)) (.object (front ++ (name, value) :: back))
  /-- One more entry, which says of a missing entry that it is null. -/
  | null {front back name} (h : name ∉ (front ++ back).map (·.1)) :
      Edit (.object (front ++ back)) (.object (front ++ (name, .null) :: back))

/-- Documents that edits lead from one to the other, in either direction. -/
abbrev Edited : Json → Json → Prop := Relation.EqvGen Edit

section Parts

variable {entries others front back : List (String × Json)} {name field : String} {value : Json}

/-- A part is what its entry holds, and nothing if there is no such entry. -/
theorem partOf_decodeEntries (entries : List (String × Json)) (field : String) :
    partOf (decodeEntries entries) field =
      ((Json.lastWith? entries field).map decode).getD (.ok none) := by
  rw [partOf, decodeEntries_eq_map, Json.lastWith?_map]

theorem mapM_partOf_congr {fields : List String}
    (h : ∀ field ∈ fields, partOf (decodeEntries entries) field =
      partOf (decodeEntries others) field) :
    fields.mapM (partOf (decodeEntries entries)) = fields.mapM (partOf (decodeEntries others)) := by
  induction fields with
  | nil => rfl
  | cons field fields ih =>
      rw [List.mapM_cons, List.mapM_cons, h field (by simp), ih fun f hf => h f (by simp [hf])]

/-- An object is read for the names it is read for. -/
theorem decode_object_congr
    (hkind : kindOf (Json.lastWith? entries kindField) = kindOf (Json.lastWith? others kindField))
    (hparts : ∀ field ∈ namesRead entries, field ≠ kindField →
      partOf (decodeEntries entries) field = partOf (decodeEntries others) field) :
    decode (.object entries) = decode (.object others) := by
  rw [decode, decode, ← hkind]
  cases h : kindOf (Json.lastWith? entries kindField) with
  | error fault => rfl
  | ok kind =>
      have hfields : ∀ field ∈ kind.fields, partOf (decodeEntries entries) field =
          partOf (decodeEntries others) field := by
        intro field hfield
        refine hparts field ?_ ?_
        · rw [namesRead, h]
          exact List.mem_cons_of_mem _ hfield
        · rintro rfl
          exact (List.nodup_cons.mp (nodup_fields kind)).1 hfield
      simp only [assemble, bind, Except.bind, mapM_partOf_congr hfields]

/-- Entries that are found alike are read alike. -/
theorem decode_object_of_lastWith?
    (h : ∀ name ∈ namesRead entries, Json.lastWith? entries name = Json.lastWith? others name) :
    decode (.object entries) = decode (.object others) := by
  have hkind : kindField ∈ namesRead entries := by
    rw [namesRead]
    split <;> exact List.mem_cons_self
  refine decode_object_congr (by rw [h _ hkind]) fun field hfield _ => ?_
  rw [partOf_decodeEntries, partOf_decodeEntries, h field hfield]

/-- An entry that is null is read like an entry that is missing. -/
theorem decode_object_null (h : name ∉ (front ++ back).map (·.1)) :
    decode (.object (front ++ back)) = decode (.object (front ++ (name, .null) :: back)) := by
  have hmissing := Json.lastWith?_eq_none h
  rw [List.map_append, List.mem_append, not_or] at h
  have hnull : Json.lastWith? (front ++ (name, Json.null) :: back) name = some .null :=
    Json.lastWith?_eq_some h.2
  refine decode_object_congr ?_ fun field _ _ => ?_
  · by_cases hname : kindField = name
    · rw [hname, hmissing, hnull]
      rfl
    · rw [Json.lastWith?_insert hname]
  · rw [partOf_decodeEntries, partOf_decodeEntries]
    by_cases hname : field = name
    · rw [hname, hmissing, hnull]
      rfl
    · rw [Json.lastWith?_insert hname]

end Parts

namespace Edited

variable {value other : Json}

/-- Edits of an item are edits of the list. -/
theorem item (h : Edited value other) (front back : List Json) :
    Edited (.list (front ++ value :: back)) (.list (front ++ other :: back)) := by
  induction h with
  | rel _ _ hedit => exact .rel _ _ (.item hedit)
  | refl => exact .refl _
  | symm _ _ _ ih => exact .symm _ _ ih
  | trans _ _ _ _ _ ih ih' => exact .trans _ _ _ ih ih'

/-- What an entry holds does not count if the object is not read for its name. -/
theorem passedOver {front back : List (String × Json)} {name : String}
    (h : name ∉ namesRead (front ++ back)) (value other : Json) :
    Edited (.object (front ++ (name, value) :: back)) (.object (front ++ (name, other) :: back)) :=
  .trans _ _ _ (.symm _ _ (.rel _ _ (.passedOver value h))) (.rel _ _ (.passedOver other h))

end Edited

/-- Documents that cannot be told apart by reading them: as a tree, as the kind of a node, and as a
program. -/
structure ReadsAlike (value other : Json) : Prop where
  decode_eq : decode value = decode other
  kindOf_eq : kindOf (some value) = kindOf (some other)
  decodeProgram_eq : decodeProgram value = decodeProgram other

namespace ReadsAlike

variable {value other : Json}

theorem of_objects {entries others : List (String × Json)}
    (h : decode (.object entries) = decode (.object others)) :
    ReadsAlike (.object entries) (.object others) := ⟨h, rfl, rfl⟩

theorem decodeAll_eq (h : ReadsAlike value other) (front back : List Json) :
    decodeAll (front ++ value :: back) = decodeAll (front ++ other :: back) := by
  induction front with
  | nil => rw [List.nil_append, List.nil_append, decodeAll, decodeAll, h.decode_eq]
  | cons first front ih => rw [List.cons_append, List.cons_append, decodeAll, decodeAll, ih]

theorem item (h : ReadsAlike value other) (front back : List Json) :
    ReadsAlike (.list (front ++ value :: back)) (.list (front ++ other :: back)) where
  decode_eq := by rw [decode, decode, h.decodeAll_eq]
  kindOf_eq := rfl
  decodeProgram_eq := h.decodeAll_eq front back

theorem lastWith?_map {β : Type} (f : Json → β) (hf : f value = f other)
    (front back : List (String × Json)) (name field : String) :
    (Json.lastWith? (front ++ (name, value) :: back) field).map f =
      (Json.lastWith? (front ++ (name, other) :: back) field).map f := by
  rw [← Json.lastWith?_map, ← Json.lastWith?_map, List.map_append, List.map_append, List.map_cons,
    List.map_cons, hf]

theorem entry (h : ReadsAlike value other) (front back : List (String × Json)) (name : String) :
    ReadsAlike (.object (front ++ (name, value) :: back))
      (.object (front ++ (name, other) :: back)) := by
  have hkind (stored : Option Json) :
      kindOf stored = (stored.map fun v => kindOf (some v)).getD (kindOf .none) := by
    cases stored <;> rfl
  refine of_objects (decode_object_congr ?_ fun field _ _ => ?_)
  · rw [hkind, lastWith?_map _ h.kindOf_eq, ← hkind]
  · rw [partOf_decodeEntries, partOf_decodeEntries, lastWith?_map _ h.decode_eq]

end ReadsAlike

/-- An edit does not show. -/
theorem Edit.readsAlike {value other : Json} (h : Edit value other) : ReadsAlike value other := by
  induction h with
  | item _ ih => exact ih.item _ _
  | entry _ ih => exact ih.entry _ _ _
  | reorder nodup perm =>
      exact .of_objects (decode_object_of_lastWith? fun name _ =>
        Json.lastWith?_perm nodup perm name)
  | passedOver value hname =>
      refine .of_objects (decode_object_of_lastWith? fun field hfield => ?_)
      rw [Json.lastWith?_insert]
      rintro rfl
      exact hname hfield
  | null hname => exact .of_objects (decode_object_null hname)

/-- Whatever edits are made in a document, it stands for the same program, or the same fault is told
of it. -/
theorem decodeProgram_eq_of_edited {value other : Json} (h : Edited value other) :
    decodeProgram value = decodeProgram other := by
  induction h with
  | rel _ _ hedit => exact hedit.readsAlike.decodeProgram_eq
  | refl => rfl
  | symm _ _ _ ih => exact ih.symm
  | trans _ _ _ _ _ ih ih' => exact ih.trans ih'

/-- Both operands are malformed, and in the other order the same one of them is told of. A note
that was a text is an object that cannot be read, and an operator that was null is left out. -/
theorem decodeProgram_eq_of_edited_operands :
    let left : Json := .object [(kindField, .text "Left")]
    let right : Json := .object [(kindField, .text "Right")]
    let value : Json := .list [.object [("note", .text "sum"), ("operator", .null), ("left", left),
      ("right", right), (kindField, .text "BinaryExpression")]]
    let other : Json := .list [.object [(kindField, .text "BinaryExpression"), ("right", right),
      ("left", left), ("note", right)]]
    Edited value other ∧ decodeProgram value = decodeProgram other ∧
      decodeProgram other = .error (.unknownKind (.text "Left")) := by
  intro left right value other
  have hnote : Edited (.object [("note", .text "sum"), ("operator", .null), ("left", left),
      ("right", right), (kindField, .text "BinaryExpression")])
      (.object [("note", right), ("operator", .null), ("left", left), ("right", right),
        (kindField, .text "BinaryExpression")]) :=
    @Edited.passedOver [] _ _ (by decide +kernel) _ _
  have hnull : Edited (.object [("note", right), ("operator", .null), ("left", left),
      ("right", right), (kindField, .text "BinaryExpression")])
      (.object [("note", right), ("left", left), ("right", right),
        (kindField, .text "BinaryExpression")]) :=
    .symm _ _ (.rel _ _ (@Edit.null [("note", right)] _ _ (by decide)))
  have horder : Edited (.object [("note", right), ("left", left), ("right", right),
      (kindField, .text "BinaryExpression")])
      (.object [(kindField, .text "BinaryExpression"), ("right", right), ("left", left),
        ("note", right)]) :=
    .rel _ _ (.reorder (by decide) (List.reverse_perm _).symm)
  have hedited : Edited value other :=
    .item (.trans _ _ _ hnote (.trans _ _ _ hnull horder)) [] []
  exact ⟨hedited, decodeProgram_eq_of_edited hedited, rfl⟩

end Tree

end Sprig
