import Sprig.Proofs.Grammar.Shape
import Sprig.Proofs.Parse.Invariant
import Sprig.Run.Program
import Sprig.Tree.Document

/-!
# Trees survive their documents

A document is made from the parts of a node by their names, and the node is put together from these
parts again. The one thing that reading changes is the value of a Number node, which is made a
Number. So a tree survives its document when all its Number nodes hold Numbers, and every tree that
was parsed or read from a document is of this kind, however misshapen it is.
-/

namespace Sprig

namespace Json

/-- Entries of other names behind the entries decide nothing. -/
theorem lastWith?_append {α : Type} (entries : List (String × α)) {later : List (String × α)}
    {name : String} (h : ∀ entry ∈ later, entry.1 ≠ name) :
    lastWith? (entries ++ later) name = lastWith? entries name := by
  have hlater : later.reverse.find? (fun entry => entry.1 = name) = none := by
    simpa [List.find?_eq_none] using h
  simp [lastWith?, List.find?_append, hlater]

theorem mem_of_lastWith? {α : Type} {entries : List (String × α)} {name : String} {a : α}
    (h : lastWith? entries name = some a) : (name, a) ∈ entries := by
  obtain ⟨entry, hfind, rfl⟩ := Option.map_eq_some_iff.mp h
  have hname := List.find?_some hfind
  rw [decide_eq_true_eq] at hname
  rw [← hname]
  exact List.mem_reverse.mp (List.mem_of_find?_eq_some hfind)

end Json

namespace Tree

/-- All Number nodes of a tree hold Numbers. -/
inductive IsNumeric : Tree → Prop
  | scalar (value : Scalar) : IsNumeric (.scalar value)
  | list {items} (numeric : ∀ item ∈ items, IsNumeric item) : IsNumeric (.list items)
  | number (x : Float) : IsNumeric (.number (.scalar (.number x)))
  | node {tree kind parts} (split : tree.node? = some (kind, parts)) (other : kind ≠ .number)
      (numeric : ∀ part ∈ parts, IsNumeric part) : IsNumeric tree

section Documents

/-- A node is stored by its kind and its parts. -/
theorem encode_of_node? {tree : Tree} {kind : NodeKind} {parts : List Tree}
    (h : tree.node? = some (kind, parts)) : encode tree = nodeObject kind (parts.map encode) := by
  cases tree <;> simp_all [node?, encode] <;> (obtain ⟨rfl, rfl⟩ := h; rfl)

theorem length_of_node? {tree : Tree} {kind : NodeKind} {parts : List Tree}
    (h : tree.node? = some (kind, parts)) : parts.length = kind.fields.length := by
  cases tree <;> simp_all [node?] <;> (obtain ⟨rfl, rfl⟩ := h; rfl)

/-- A node that is put together has the parts it was given. -/
theorem node?_ofParts {kind : NodeKind} {parts : List Tree}
    (h : parts.length = kind.fields.length) : (ofParts kind parts).node? = some (kind, parts) := by
  cases kind <;> simp only [NodeKind.fields, List.length_cons, List.length_nil] at h <;>
    first
    | obtain ⟨a, rfl⟩ := List.length_eq_one_iff.mp h; rfl
    | obtain ⟨a, b, rfl⟩ := List.length_eq_two.mp h; rfl
    | obtain ⟨a, b, c, rfl⟩ := List.length_eq_three.mp h; rfl

/-- The entries of a node have names of their own, none of which is that of the kind. -/
theorem nodup_fields (kind : NodeKind) : (kindField :: kind.fields).Nodup := by
  cases kind <;> decide

theorem decodeEntries_eq_map (entries : List (String × Json)) :
    decodeEntries entries = entries.map fun entry => (entry.1, decode entry.2) := by
  induction entries with
  | nil => simp [decodeEntries]
  | cons entry entries ih => simp [decodeEntries, ih]

theorem decodeAll_map {trees : List Tree}
    (h : ∀ tree ∈ trees, decode (encode tree) = .ok tree) :
    decodeAll (trees.map encode) = .ok trees := by
  induction trees with
  | nil => rfl
  | cons tree trees ih =>
      rw [List.map_cons, decodeAll, h tree (by simp), ih fun t ht => h t (by simp [ht])]
      rfl

theorem mem_fields_of_mem_zip {α : Type} {fields : List String} {values : List α}
    {entry : String × α} (h : entry ∈ fields.zip values) : entry.1 ∈ fields :=
  (List.of_mem_zip h).1

/-- Each part is found by its name, whatever entries of other names stand in front. -/
theorem mapM_partOf_zip {fields : List String} {parts : List Tree}
    (hlength : parts.length = fields.length) (hfields : fields.Nodup)
    (front : List (String × Except DocumentFault Tree))
    (hfront : ∀ entry ∈ front, entry.1 ∉ fields) :
    fields.mapM (partOf (front ++ fields.zip (parts.map .ok))) = .ok parts := by
  induction fields generalizing parts front with
  | nil =>
      obtain rfl := List.length_eq_zero_iff.mp hlength
      rfl
  | cons field fields ih =>
      obtain ⟨part, parts, rfl⟩ := List.exists_cons_of_length_eq_add_one hlength
      obtain ⟨hfield, hfields⟩ := List.nodup_cons.mp hfields
      have hsplit : front ++ (field :: fields).zip ((part :: parts).map .ok) =
          front ++ [(field, .ok part)] ++ fields.zip (parts.map .ok) := by simp
      have hlater : ∀ entry ∈ fields.zip (parts.map (.ok : Tree → Except DocumentFault Tree)),
          entry.1 ≠ field := by
        rintro entry hentry rfl
        exact hfield (mem_fields_of_mem_zip hentry)
      have hfirst : partOf (front ++ [(field, .ok part)] ++ fields.zip (parts.map .ok)) field =
          .ok part := by
        rw [partOf, Json.lastWith?_append _ hlater, Json.lastWith?_concat, if_pos rfl]
        rfl
      have hrest := ih (by simpa using hlength) hfields (front ++ [(field, .ok part)]) (by
        intro entry hentry hmem
        rcases List.mem_append.mp hentry with hentry | hentry
        · exact hfront entry hentry (by simp [hmem])
        · obtain rfl := List.mem_singleton.mp hentry
          exact hfield hmem)
      rw [hsplit, List.mapM_cons, hfirst, hrest]
      rfl

theorem kindOf_text (kind : NodeKind) : kindOf (some (.text kind.label)) = .ok kind := by
  simp [kindOf, NodeKind.ofLabel?_label]

/-- Reading the document of a node reads the documents of its parts. -/
theorem decode_nodeObject {kind : NodeKind} {parts : List Tree}
    (hlength : parts.length = kind.fields.length)
    (hparts : ∀ part ∈ parts, decode (encode part) = .ok part) :
    decode (nodeObject kind (parts.map encode)) = match ofParts kind parts with
      | .number value => (numberOf value).map fun x => .number (.scalar (.number x))
      | tree => .ok tree := by
  obtain ⟨hkind, hfields⟩ := List.nodup_cons.mp (nodup_fields kind)
  have hfound : Json.lastWith? ((kindField, .text kind.label) ::
      kind.fields.zip (parts.map encode)) kindField = some (.text kind.label) := by
    rw [← List.singleton_append, Json.lastWith?_append]
    · simp [Json.lastWith?]
    · rintro entry hentry heq
      exact hkind (heq ▸ mem_fields_of_mem_zip hentry)
  have hentries : decodeEntries (kind.fields.zip (parts.map encode)) =
      kind.fields.zip (parts.map .ok) := by
    rw [decodeEntries_eq_map, List.zip_map_right, List.zip_map_right, List.map_map]
    apply List.map_congr_left
    rintro ⟨field, part⟩ hmem
    simp [hparts part (List.of_mem_zip hmem).2]
  have hmapM := mapM_partOf_zip hlength hfields [(kindField, decode (.text kind.label))]
    (by simpa using hkind)
  rw [List.singleton_append] at hmapM
  rw [nodeObject, decode, hfound, kindOf_text, decodeEntries, hentries]
  simp only [assemble, hmapM, bind, Except.bind, pure, Except.pure]
  cases ofParts kind parts with
  | number value => cases numberOf value <;> rfl
  | _ => rfl

/-- A tree survives its document when its Number nodes hold Numbers. -/
theorem decode_encode {tree : Tree} (h : tree.IsNumeric) : decode (encode tree) = .ok tree := by
  induction h with
  | scalar value => cases value <;> simp [encode, encodeScalar, decode, none, text]
  | list _ ih =>
      rw [encode, encodeAll_eq_map, decode, decodeAll_map ih]
      rfl
  | number x =>
      have hnode : (number (.scalar (.number x))).node? = some (.number, [.scalar (.number x)]) :=
        rfl
      rw [encode_of_node? hnode]
      exact decode_nodeObject (length_of_node? hnode) (by simp [encode, encodeScalar, decode])
  | @node tree kind parts split other _ ih =>
      rw [encode_of_node? split, decode_nodeObject (length_of_node? split) ih,
        ofParts_of_node? split]
      cases tree with
      | number value => exact absurd (Prod.mk.inj (Option.some.inj split)).1.symm other
      | _ => rfl

end Documents

section Images

variable {tree : Tree}

theorem isNumeric_of_partOf {entries : List (String × Except DocumentFault Tree)}
    (h : ∀ entry ∈ entries, ∀ tree, entry.2 = .ok tree → tree.IsNumeric) {field : String}
    (hpart : partOf entries field = .ok tree) : tree.IsNumeric := by
  rw [partOf] at hpart
  cases hfound : Json.lastWith? entries field with
  | none =>
      rw [hfound] at hpart
      obtain rfl := Except.ok.inj hpart
      exact .scalar .none
  | some part =>
      rw [hfound, Option.getD_some] at hpart
      exact h _ (Json.mem_of_lastWith? hfound) tree hpart

theorem isNumeric_of_mapM_partOf {entries : List (String × Except DocumentFault Tree)}
    (h : ∀ entry ∈ entries, ∀ tree, entry.2 = .ok tree → tree.IsNumeric) {fields : List String}
    {parts : List Tree} (hparts : fields.mapM (partOf entries) = .ok parts) :
    parts.length = fields.length ∧ ∀ part ∈ parts, part.IsNumeric := by
  induction fields generalizing parts with
  | nil =>
      obtain rfl := Except.ok.inj hparts
      simp
  | cons field fields ih =>
      rw [List.mapM_cons] at hparts
      cases hfirst : partOf entries field with
      | error fault =>
          rw [hfirst] at hparts
          cases hparts
      | ok part =>
          cases hrest : fields.mapM (partOf entries) with
          | error fault =>
              rw [hfirst, hrest] at hparts
              cases hparts
          | ok rest =>
              rw [hfirst, hrest] at hparts
              obtain rfl := Except.ok.inj hparts
              obtain ⟨hlength, hnumeric⟩ := ih hrest
              simpa [hlength] using ⟨isNumeric_of_partOf h hfirst, hnumeric⟩

/-- A node that was put together from entries has a Number in every Number node. -/
theorem isNumeric_of_assemble {kind? : Except DocumentFault NodeKind}
    {entries : List (String × Except DocumentFault Tree)}
    (h : ∀ entry ∈ entries, ∀ tree, entry.2 = .ok tree → tree.IsNumeric)
    (htree : assemble kind? entries = .ok tree) : tree.IsNumeric := by
  cases kind? with
  | error fault => cases htree
  | ok kind =>
      cases hparts : kind.fields.mapM (partOf entries) with
      | error fault =>
          simp only [assemble, hparts, bind, Except.bind] at htree
          cases htree
      | ok parts =>
          obtain ⟨hlength, hnumeric⟩ := isNumeric_of_mapM_partOf h hparts
          have hnode := node?_ofParts hlength
          simp only [assemble, hparts, bind, Except.bind, pure, Except.pure] at htree
          split at htree
          · next value hvalue =>
            cases hnumber : numberOf value with
            | error fault =>
                rw [hnumber] at htree
                cases htree
            | ok x =>
                rw [hnumber] at htree
                obtain rfl := Except.ok.inj htree
                exact .number x
          · next hother =>
            obtain rfl := Except.ok.inj htree
            refine .node hnode ?_ hnumeric
            rintro rfl
            exact hother _ rfl

mutual

/-- Every tree that is read from a document has a Number in every Number node. -/
theorem isNumeric_of_decode : ∀ {value : Json} {tree : Tree}, decode value = .ok tree →
    tree.IsNumeric
  | .null, tree, h => by
      obtain rfl := Except.ok.inj h
      exact .scalar .none
  | .boolean b, tree, h => by
      rw [decode] at h
      obtain rfl := Except.ok.inj h
      exact .scalar _
  | .integer k, tree, h => by
      rw [decode] at h
      obtain rfl := Except.ok.inj h
      exact .scalar _
  | .number x, tree, h => by
      rw [decode] at h
      obtain rfl := Except.ok.inj h
      exact .scalar _
  | .text s, tree, h => by
      rw [decode] at h
      obtain rfl := Except.ok.inj h
      exact .scalar _
  | .list items, tree, h => by
      rw [decode] at h
      cases hitems : decodeAll items with
      | error fault =>
          rw [hitems] at h
          cases h
      | ok trees =>
          rw [hitems] at h
          obtain rfl := Except.ok.inj h
          exact .list (isNumeric_of_decodeAll hitems)
  | .object entries, tree, h => by
      rw [decode] at h
      exact isNumeric_of_assemble (isNumeric_of_decodeEntries entries) h

theorem isNumeric_of_decodeAll : ∀ {values : List Json} {trees : List Tree},
    decodeAll values = .ok trees → ∀ tree ∈ trees, tree.IsNumeric
  | [], trees, h => by
      rw [decodeAll] at h
      obtain rfl := Except.ok.inj h
      simp
  | value :: values, trees, h => by
      rw [decodeAll] at h
      cases hfirst : decode value with
      | error fault =>
          rw [hfirst] at h
          cases h
      | ok first =>
          cases hrest : decodeAll values with
          | error fault =>
              rw [hfirst, hrest] at h
              cases h
          | ok rest =>
              rw [hfirst, hrest] at h
              obtain rfl := Except.ok.inj h
              simpa using ⟨isNumeric_of_decode hfirst, isNumeric_of_decodeAll hrest⟩

theorem isNumeric_of_decodeEntries : ∀ (entries : List (String × Json)),
    ∀ entry ∈ decodeEntries entries, ∀ tree, entry.2 = .ok tree → tree.IsNumeric
  | [], entry, hentry => by simp [decodeEntries] at hentry
  | (name, value) :: entries, entry, hentry => by
      rw [decodeEntries] at hentry
      rcases List.mem_cons.mp hentry with rfl | hentry
      · exact fun tree htree => isNumeric_of_decode htree
      · exact isNumeric_of_decodeEntries entries entry hentry

end

/-- Tokens that give every Number token a Number. -/
def NumberTokens (tokens : List Token) : Prop :=
  ∀ t ∈ tokens, t.kind = .number → ∃ x, t.literal = .number x

/-- Parsing such tokens makes trees with a Number in every Number node. -/
theorem invariant_numberTokens :
    Parse.Invariant (fun c => NumberTokens c.tokens) IsNumeric where
  advance _ hc _ ht := hc _ (Cursor.mem_tokens_of_advance ht)
  scalar := .scalar
  list := .list
  number c hc hkind := by
    obtain ⟨x, hliteral⟩ := hc c.current List.mem_cons_self hkind
    rw [hliteral]
    exact .number x
  node := .node

theorem isNumeric_of_ofTokens {tokens : List Token} {trees : List Tree}
    (hnumbers : NumberTokens tokens) (h : Parse.ofTokens tokens = .ok trees) :
    ∀ tree ∈ trees, tree.IsNumeric := by
  obtain ⟨rest, hprogram⟩ := Grammar.exists_of_ofTokens h
  have hstart : NumberTokens (Cursor.ofTokens tokens).tokens := by
    intro t ht hkind
    rcases Cursor.mem_tokens_ofTokens ht with ht | rfl
    · exact hnumbers t ht hkind
    · exact absurd hkind (by decide)
  have hstep := invariant_numberTokens.program Parse.nestingLimit _ hstart
  rw [hprogram] at hstep
  exact hstep.1

theorem isNumeric_of_source {text : String} {trees : List Tree}
    (h : Parse.source text = .ok trees) : ∀ tree ∈ trees, tree.IsNumeric := by
  obtain ⟨tokens, hscan, hparse⟩ := Grammar.exists_scan_of_source h
  obtain ⟨body, closing, rfl, hclosing, hbody⟩ := Token.scan_lexical hscan
  refine isNumeric_of_ofTokens (fun t ht hkind => ?_) hparse
  rcases List.mem_append.mp ht with ht | ht
  · exact (hbody t ht).number hkind
  · obtain rfl := List.mem_singleton.mp ht
    rw [hclosing] at hkind
    cases hkind

end Images

/-- The programs that a text or its tokens spell, or a document stands for. -/
inductive Arises : List Tree → Prop
  | text {source trees} (parsed : Parse.source source = .ok trees) : Arises trees
  | tokens {tokens trees} (numbers : NumberTokens tokens)
      (parsed : Parse.ofTokens tokens = .ok trees) : Arises trees
  | document {value trees} (read : decodeProgram value = .ok trees) : Arises trees

theorem Arises.isNumeric {trees : List Tree} (h : Arises trees) :
    ∀ tree ∈ trees, tree.IsNumeric := by
  cases h with
  | text parsed => exact isNumeric_of_source parsed
  | tokens numbers parsed => exact isNumeric_of_ofTokens numbers parsed
  | @document value _ read =>
      cases value with
      | list values => exact isNumeric_of_decodeAll read
      | _ => cases read

theorem Arises.decode_encode {trees : List Tree} (h : Arises trees) :
    decodeProgram (encodeProgram trees) = .ok trees := by
  rw [encodeProgram, encodeAll_eq_map, decodeProgram]
  exact decodeAll_map fun tree htree => Tree.decode_encode (h.isNumeric tree htree)

/-- The document of the program that a document stands for. -/
def normalForm (value : Json) : Except DocumentFault Json :=
  (decodeProgram value).map encodeProgram

end Tree

/-- Runs the program that a document stands for. -/
def Run.document (fuel : Nat) (value : Json) (limits : Limits) (s : State) :
    Except Tree.DocumentFault (Outcome Value) :=
  (Tree.decodeProgram value).map fun trees => program fuel trees limits s

namespace Tree

/-- Every program survives its document. So the normal form of a document is its own normal form,
and running it is running the document. -/
theorem arises_survives_document :
    (∀ trees, Arises trees → decodeProgram (encodeProgram trees) = .ok trees) ∧
      ∀ value, (normalForm value).bind normalForm = normalForm value ∧
        ∀ normal, normalForm value = .ok normal → ∀ fuel limits s,
          Run.document fuel normal limits s = Run.document fuel value limits s := by
  refine ⟨fun trees h => h.decode_encode, fun value => ?_⟩
  cases hread : decodeProgram value with
  | error fault => simp [normalForm, hread, Except.map, Except.bind]
  | ok trees =>
      have hagain := (Arises.document hread).decode_encode
      constructor
      · simp [normalForm, hread, hagain, Except.map, Except.bind]
      · intro normal hnormal fuel limits s
        obtain rfl : encodeProgram trees = normal := by
          simpa [normalForm, hread, Except.map] using hnormal
        rw [Run.document, Run.document, hagain, hread]

theorem arises_survives_document_of_misshapen :
    let value : Json := .list [.object [("value", .number (0.0 / 0.0)), ("type", .text "Number")],
      .object [("type", .text "IfStatement"), ("if_block", .list [.null, .integer 3])], .text "x"]
    let trees : List Tree := [.number (.scalar (.number (0.0 / 0.0))),
      .ifStatement .none (.list [.none, .scalar (.integer 3)]) .none, .text "x"]
    decodeProgram value = .ok trees ∧ decodeProgram (encodeProgram trees) = .ok trees ∧
      normalForm value = .ok (encodeProgram trees) ∧
      ∀ fuel limits s,
        Run.document fuel (encodeProgram trees) limits s = Run.document fuel value limits s := by
  intro value trees
  have hread : decodeProgram value = .ok trees := by rfl
  have hnormal : normalForm value = .ok (encodeProgram trees) := by rw [normalForm, hread]; rfl
  obtain ⟨hsurvives, hforms⟩ := arises_survives_document
  exact ⟨hread, hsurvives trees (.document hread), hnormal, (hforms value).2 _ hnormal⟩

end Tree

end Sprig
