import Sprig.Proofs.Tree.RoundTrip

/-!
# Documents with an integer that is too large

The value of a Number node may be an integer of any size, and an integer far from zero has no
Number near it. That is the one fault of a document that is not about its form, and only a Number
node can cause it: elsewhere an integer is stored as it is.
-/

namespace Sprig

namespace Json

/-- Somewhere in a document there is a Number node whose value is an integer without a Number near
it. -/
inductive HoldsOversized : Json → Prop
  | node {entries k}
      (kind : lastWith? entries Tree.kindField = some (.text NodeKind.number.label))
      (value : lastWith? entries "value" = some (.integer k))
      (large : Numeric.ofInteger? k = none) : HoldsOversized (.object entries)
  | item {items value} (mem : value ∈ items) (inner : HoldsOversized value) :
      HoldsOversized (.list items)
  | entry {entries name value} (mem : (name, value) ∈ entries) (inner : HoldsOversized value) :
      HoldsOversized (.object entries)

/-- The last entry of a name stays the last one when every entry is changed. -/
theorem lastWith?_map {α β : Type} (entries : List (String × α)) (f : α → β) (name : String) :
    lastWith? (entries.map fun entry => (entry.1, f entry.2)) name =
      (lastWith? entries name).map f := by
  simp only [lastWith?, ← List.map_reverse, List.find?_map, Option.map_map]
  rfl

end Json

namespace Tree

/-- No kind is named by a fault of its own that tells of an integer. -/
theorem kindOf_ne_integerTooLarge (stored : Option Json) :
    kindOf stored ≠ .error .integerTooLarge := by
  intro h
  unfold kindOf at h
  split at h <;> first | cases h | (split at h <;> cases h)

/-- A kind is named by its label alone. -/
theorem label_of_kindOf {stored : Option Json} {kind : NodeKind} (h : kindOf stored = .ok kind) :
    stored = some (.text kind.label) := by
  unfold kindOf at h
  split at h
  · next s =>
    cases hkind : NodeKind.ofLabel? s with
    | none =>
        rw [hkind] at h
        cases h
    | some found =>
        rw [hkind] at h
        obtain rfl := Except.ok.inj h
        have hlabel := List.find?_some hkind
        rw [decide_eq_true_eq] at hlabel
        rw [hlabel]
  all_goals cases h

/-- Whatever the conversions to a Number are, only an integer is too large for them. They are
parameters, since unfolding a conversion of an integer that is not known does not end. -/
theorem integer_of_conversion (round : Int → Option Float) (count : Nat → Float)
    (read : String → Option Float) {tree : Tree}
    (h : (match tree with
      | .scalar (.number x) => .ok x
      | .scalar (.boolean b) => .ok (count (if b then 1 else 0))
      | .scalar (.integer k) =>
        match round k with
        | some x => .ok x
        | Option.none => .error .integerTooLarge
      | .scalar (.text s) =>
        match read s with
        | some x => .ok x
        | Option.none => .error (.notNumeral s)
      | tree => .error (.notScalar tree.label)) =
      (.error .integerTooLarge : Except DocumentFault Float)) :
    ∃ k, tree = .scalar (.integer k) ∧ round k = Option.none := by
  split at h
  · cases h
  · cases h
  · next k =>
    cases hk : round k with
    | some x =>
        rw [hk] at h
        cases h
    | none => exact ⟨k, rfl, hk⟩
  · next s => cases hs : read s <;> rw [hs] at h <;> cases h
  · cases h

/-- Only an integer is too large to be made a Number. -/
theorem integer_of_numberOf {tree : Tree} (h : numberOf tree = .error .integerTooLarge) :
    ∃ k, tree = .scalar (.integer k) ∧ Numeric.ofInteger? k = Option.none :=
  integer_of_conversion Numeric.ofInteger? Numeric.ofCount Numeric.readReal? h

/-- A node is put together once its parts are read; only a Number node needs more than them. -/
theorem assemble_of_parts {kind : NodeKind} {entries : List (String × Except DocumentFault Tree)}
    {parts : List Tree} (h : kind.fields.mapM (partOf entries) = .ok parts) :
    assemble (.ok kind) entries = match ofParts kind parts with
      | .number value => (numberOf value).map fun x => .number (.scalar (.number x))
      | tree => .ok tree := by
  simp only [assemble, h, bind, Except.bind, pure, Except.pure]
  cases ofParts kind parts with
  | number value => cases numberOf value <;> rfl
  | _ => rfl

theorem kind_of_ofParts {kind : NodeKind} {parts : List Tree} {value : Tree}
    (h : ofParts kind parts = .number value) : kind = .number := by
  cases kind with
  | number => rfl
  | _ => simp [ofParts] at h

/-- A node whose parts cannot be read cannot be read. -/
theorem assemble_of_fault {kind : NodeKind} {entries : List (String × Except DocumentFault Tree)}
    {fault : DocumentFault} (h : kind.fields.mapM (partOf entries) = .error fault) :
    assemble (.ok kind) entries = .error fault := by
  simp only [assemble, h, bind, Except.bind]

/-- A document that is read as an integer is that integer. -/
theorem integer_of_decode {value : Json} {k : Int} (h : decode value = .ok (.scalar (.integer k))) :
    value = .integer k := by
  cases value with
  | null => cases h
  | boolean b => simp [decode] at h
  | integer j => simpa [decode] using h
  | number x => simp [decode] at h
  | text s => simp [decode, text] at h
  | list items =>
      rw [decode] at h
      cases hitems : decodeAll items <;> rw [hitems] at h <;> cases h
  | object entries =>
      rw [decode] at h
      cases hkind : kindOf (Json.lastWith? entries kindField) with
      | error fault =>
          rw [hkind] at h
          cases h
      | ok kind =>
          rw [hkind] at h
          cases hparts : kind.fields.mapM (partOf (decodeEntries entries)) with
          | error fault =>
              rw [assemble_of_fault hparts] at h
              cases h
          | ok parts =>
              rw [assemble_of_parts hparts] at h
              split at h
              · next v _ => cases hv : numberOf v <;> rw [hv] at h <;> cases h
              · cases kind <;> cases h

section Faults

variable {entries : List (String × Json)}

/-- A part that cannot be read is an entry that cannot be read. -/
theorem entry_of_partOf {field : String} {fault : DocumentFault}
    (h : partOf (decodeEntries entries) field = .error fault) :
    ∃ value, (field, value) ∈ entries ∧ decode value = .error fault := by
  rw [partOf, decodeEntries_eq_map, Json.lastWith?_map] at h
  cases hfound : Json.lastWith? entries field with
  | none =>
      rw [hfound] at h
      cases h
  | some value =>
      rw [hfound] at h
      exact ⟨value, Json.mem_of_lastWith? hfound, h⟩

/-- When the parts of a node cannot be read, one of them cannot. -/
theorem entry_of_mapM_partOf {fields : List String} {fault : DocumentFault}
    (h : fields.mapM (partOf (decodeEntries entries)) = .error fault) :
    ∃ field value, (field, value) ∈ entries ∧ decode value = .error fault := by
  induction fields with
  | nil => cases h
  | cons field fields ih =>
      rw [List.mapM_cons] at h
      cases hfirst : partOf (decodeEntries entries) field with
      | error first =>
          rw [hfirst] at h
          obtain rfl : first = fault := by injection h
          exact ⟨field, entry_of_partOf hfirst⟩
      | ok part =>
          cases hrest : fields.mapM (partOf (decodeEntries entries)) with
          | error rest =>
              rw [hfirst, hrest] at h
              obtain rfl : rest = fault := by injection h
              exact ih hrest
          | ok rest =>
              rw [hfirst, hrest] at h
              cases h

/-- An entry that was read as an integer is that integer. -/
theorem value_of_partOf {k : Int}
    (h : partOf (decodeEntries entries) "value" = .ok (.scalar (.integer k))) :
    Json.lastWith? entries "value" = some (.integer k) := by
  rw [partOf, decodeEntries_eq_map, Json.lastWith?_map] at h
  cases hfound : Json.lastWith? entries "value" with
  | none =>
      rw [hfound] at h
      cases h
  | some value =>
      rw [hfound, Option.map_some, Option.getD_some] at h
      rw [integer_of_decode h]

/-- The one part of a Number node that was read as an integer was the integer of its entry. -/
theorem value_of_number {parts : List Tree} {k : Int}
    (hparts : NodeKind.number.fields.mapM (partOf (decodeEntries entries)) = .ok parts)
    (hnode : ofParts .number parts = .number (.scalar (.integer k))) :
    Json.lastWith? entries "value" = some (.integer k) := by
  simp only [NodeKind.fields, List.mapM_cons, List.mapM_nil] at hparts
  cases hpart : partOf (decodeEntries entries) "value" with
  | error fault =>
      rw [hpart] at hparts
      cases hparts
  | ok part =>
      rw [hpart] at hparts
      obtain rfl := Except.ok.inj hparts
      have hvalue : part = .scalar (.integer k) := by simpa [ofParts] using hnode
      rw [hvalue] at hpart
      exact value_of_partOf hpart

/-- An object whose integer is too large has it in an entry or is the Number node itself. -/
theorem holdsOversized_of_assemble
    (hentries : ∀ name value, (name, value) ∈ entries → decode value = .error .integerTooLarge →
      value.HoldsOversized)
    (h : assemble (kindOf (Json.lastWith? entries kindField)) (decodeEntries entries) =
      .error .integerTooLarge) : (Json.object entries).HoldsOversized := by
  cases hkind : kindOf (Json.lastWith? entries kindField) with
  | error fault =>
      rw [hkind] at h
      obtain rfl : fault = .integerTooLarge := by injection h
      exact absurd hkind (kindOf_ne_integerTooLarge _)
  | ok kind =>
      rw [hkind] at h
      cases hparts : kind.fields.mapM (partOf (decodeEntries entries)) with
      | error fault =>
          rw [assemble_of_fault hparts] at h
          obtain rfl : fault = .integerTooLarge := by injection h
          obtain ⟨name, value, hmem, hvalue⟩ := entry_of_mapM_partOf hparts
          exact .entry hmem (hentries name value hmem hvalue)
      | ok parts =>
          rw [assemble_of_parts hparts] at h
          split at h
          · next value hnode =>
            cases hnumber : numberOf value with
            | ok x =>
                rw [hnumber] at h
                cases h
            | error fault =>
                rw [hnumber] at h
                obtain rfl : fault = .integerTooLarge := by injection h
                obtain ⟨k, rfl, hlarge⟩ := integer_of_numberOf hnumber
                obtain rfl : kind = .number := kind_of_ofParts hnode
                have hvalue := value_of_number hparts hnode
                exact .node (label_of_kindOf hkind) hvalue hlarge
          · cases h

mutual

/-- Only an oversized integer in a Number node makes reading end by a fault that tells of it. -/
theorem holdsOversized_of_decode : ∀ {value : Json}, decode value = .error .integerTooLarge →
    value.HoldsOversized
  | .null, h => by cases h
  | .boolean b, h => by simp [decode] at h
  | .integer k, h => by simp [decode] at h
  | .number x, h => by simp [decode] at h
  | .text s, h => by simp [decode] at h
  | .list items, h => by
      rw [decode] at h
      cases hitems : decodeAll items with
      | error fault =>
          rw [hitems] at h
          obtain rfl : fault = .integerTooLarge := by injection h
          obtain ⟨value, hmem, hvalue⟩ := holdsOversized_of_decodeAll hitems
          exact .item hmem hvalue
      | ok trees =>
          rw [hitems] at h
          cases h
  | .object entries, h => by
      rw [decode] at h
      exact holdsOversized_of_assemble (holdsOversized_of_entries entries) h

theorem holdsOversized_of_decodeAll : ∀ {values : List Json},
    decodeAll values = .error .integerTooLarge → ∃ value ∈ values, value.HoldsOversized
  | [], h => by cases h
  | value :: values, h => by
      rw [decodeAll] at h
      cases hfirst : decode value with
      | error fault =>
          rw [hfirst] at h
          obtain rfl : fault = .integerTooLarge := by injection h
          exact ⟨value, by simp, holdsOversized_of_decode hfirst⟩
      | ok first =>
          cases hrest : decodeAll values with
          | error fault =>
              rw [hfirst, hrest] at h
              obtain rfl : fault = .integerTooLarge := by injection h
              obtain ⟨later, hmem, hlater⟩ := holdsOversized_of_decodeAll hrest
              exact ⟨later, by simp [hmem], hlater⟩
          | ok rest =>
              rw [hfirst, hrest] at h
              cases h

theorem holdsOversized_of_entries : ∀ (entries : List (String × Json)) (name : String)
    (value : Json), (name, value) ∈ entries → decode value = .error .integerTooLarge →
    value.HoldsOversized
  | [], name, value, hmem, h => by simp at hmem
  | (first, head) :: entries, name, value, hmem, h => by
      rcases List.mem_cons.mp hmem with heq | hmem
      · obtain ⟨rfl, rfl⟩ := Prod.mk.inj heq
        exact holdsOversized_of_decode h
      · exact holdsOversized_of_entries entries name value hmem h

end

/-- Only an oversized integer makes the reading of a program end by a fault that tells of it. -/
theorem holdsOversized_of_decodeProgram {document : Json}
    (h : decodeProgram document = .error .integerTooLarge) : document.HoldsOversized := by
  cases document with
  | list values =>
      obtain ⟨value, hmem, hvalue⟩ := holdsOversized_of_decodeAll h
      exact .item hmem hvalue
  | _ => cases h

end Faults

end Tree

end Sprig
