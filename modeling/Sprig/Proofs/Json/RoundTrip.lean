import Sprig.Proofs.Json.Number
import Sprig.Proofs.Json.Text

/-!
# Documents are read back from their texts

A document may be spelled with white space around its parts. `Spells` says which texts spell a
value: writing a value gives such a text, and reading such a text gives the value. So a document
survives being written and read, when its integers have no more digits than a reader takes.
-/

namespace Sprig.Json

/-- White space as it is written between the parts of a document. -/
def IsSpace (cs : List Char) : Prop := ∀ c ∈ cs, c = ' ' ∨ c = '\n'

/-- An integer has no more digits than a reader takes. -/
def IsShort (k : Int) : Prop := (Nat.toDigits 10 k.natAbs).length ≤ Numeric.maxIntegerDigits

mutual

/-- A text spells a value. -/
inductive Spells : Json → List Char → Prop
  | null : Spells .null "null".toList
  | boolean (b : Bool) : Spells (.boolean b) (if b then "true" else "false").toList
  | integer {k} (short : IsShort k) : Spells (.integer k) (Numeric.integerText k).toList
  | number (x : Float) : Spells (.number x) (numberText x).toList
  | text (s : String) : Spells (.text s) (quotedChars s.toList)
  | noItems : Spells (.list []) ['[', ']']
  | list {items space cs} (blank : IsSpace space) (rest : SpellsItems items cs) :
      Spells (.list items) ('[' :: (space ++ cs))
  | noEntries : Spells (.object []) ['\x7b', '\x7d']
  | object {entries space cs} (blank : IsSpace space) (rest : SpellsEntries entries cs) :
      Spells (.object entries) ('\x7b' :: (space ++ cs))

/-- A text spells the items of a list and closes it. -/
inductive SpellsItems : List Json → List Char → Prop
  | last {item cs space} (first : Spells item cs) (blank : IsSpace space) :
      SpellsItems [item] (cs ++ (space ++ [']']))
  | cons {item items cs space space' cs'} (first : Spells item cs) (blank : IsSpace space)
      (blank' : IsSpace space') (rest : SpellsItems items cs') :
      SpellsItems (item :: items) (cs ++ (space ++ ',' :: (space' ++ cs')))

/-- A text spells the entries of an object and closes it. -/
inductive SpellsEntries : List (String × Json) → List Char → Prop
  | last {name value space cs space'} (blank : IsSpace space) (first : Spells value cs)
      (blank' : IsSpace space') : SpellsEntries [(name, value)]
        (quotedChars name.toList ++ ':' :: (space ++ (cs ++ (space' ++ ['\x7d']))))
  | cons {name value entries space cs space' space'' cs'} (blank : IsSpace space)
      (first : Spells value cs) (blank' : IsSpace space') (blank'' : IsSpace space'')
      (rest : SpellsEntries entries cs') : SpellsEntries ((name, value) :: entries)
        (quotedChars name.toList ++
          ':' :: (space ++ (cs ++ (space' ++ ',' :: (space'' ++ cs')))))

end

section Reading

/-- A character that starts a value: it is no white space, closes nothing and marks no byte order.
-/
def Opens (c : Char) : Prop :=
  c ∉ [' ', '\t', '\n', '\r', ']', '\x7d', '\uFEFF']

instance (c : Char) : Decidable (Opens c) := inferInstanceAs (Decidable (c ∉ _))

theorem skipSpace_append {space : List Char} (h : IsSpace space) (rest : List Char) :
    skipSpace (space ++ rest) = skipSpace rest :=
  List.dropWhile_append_of_pos fun c hc => by rcases h c hc with rfl | rfl <;> decide

theorem skipSpace_cons {c : Char} (h : c ∉ [' ', '\t', '\n', '\r']) (rest : List Char) :
    skipSpace (c :: rest) = c :: rest := by
  simp only [List.mem_cons, List.not_mem_nil, or_false] at h
  rw [skipSpace, List.dropWhile_cons_of_neg]
  simpa using h

theorem Opens.skipSpace {c : Char} (h : Opens c) (rest : List Char) :
    skipSpace (c :: rest) = c :: rest :=
  skipSpace_cons (fun hc => h (by simp only [List.mem_cons] at hc ⊢; tauto)) rest

/-- White space and separators do not go on with a number. -/
theorem stops_space {space : List Char} (h : IsSpace space) {c : Char}
    (hc : c ∈ [',', ']', '\x7d']) (rest : List Char) : Stops (space ++ c :: rest) := by
  intro d hd
  cases space with
  | nil =>
      obtain rfl : c = d := by simpa using hd
      simp only [List.mem_cons, List.not_mem_nil, or_false] at hc
      rcases hc with rfl | rfl | rfl <;> decide
  | cons e space =>
      obtain rfl : e = d := by simpa using hd
      rcases h e List.mem_cons_self with rfl | rfl <;> decide

/-- What is read as a scalar is read as a value. -/
theorem readValue_of_readScalar {cs rest : List Char} {value : Json}
    (h : readScalar cs = .ok (value, rest)) (fuel : Nat) :
    readValue (fuel + 1) cs = .ok (value, rest) := by
  unfold readValue
  split
  · next rest => exact absurd (h.symm.trans (rfl : readScalar ('"' :: rest) = _)) nofun
  · next rest => exact absurd (h.symm.trans (rfl : readScalar ('[' :: rest) = _)) nofun
  · next rest => exact absurd (h.symm.trans (rfl : readScalar ('\x7b' :: rest) = _)) nofun
  · exact h

/-- What is read as a scalar starts a value. -/
theorem opens_of_readScalar {cs rest : List Char} {value : Json}
    (h : readScalar cs = .ok (value, rest)) : ∃ c cs', cs = c :: cs' ∧ Opens c := by
  cases cs with
  | nil => exact absurd h nofun
  | cons c cs =>
      refine ⟨c, cs, rfl, fun hc => ?_⟩
      simp only [List.mem_cons, List.not_mem_nil, or_false] at hc
      rcases hc with rfl | rfl | rfl | rfl | rfl | rfl | rfl <;> exact absurd h nofun

theorem length_le_flatMap_escapeChar (cs : List Char) :
    cs.length ≤ (cs.flatMap fun c => (escapeChar c).toList).length := by
  induction cs with
  | nil => simp
  | cons c cs ih =>
      have hpos : 0 < (escapeChar c).toList.length := by
        unfold escapeChar
        split_ifs <;> simp
      rw [List.flatMap_cons, List.length_append, List.length_cons]
      omega

/-- A string is read as a value. -/
theorem readValue_text (s : String) {fuel : Nat} {rest : List Char}
    (hfuel : (quotedChars s.toList).length ≤ fuel) :
    readValue (fuel + 1) (quotedChars s.toList ++ rest) = .ok (.text s, rest) := by
  have hlength := length_le_flatMap_escapeChar s.toList
  simp only [quotedChars, List.length_append, List.length_cons, List.length_nil] at hfuel
  have htext := readText_quotedChars (quotedChars s.toList ++ rest) [] s.toList rest
    (by omega : s.toList.length < fuel)
  simp only [quotedChars, List.cons_append, List.append_assoc, List.nil_append] at htext ⊢
  simp only [readValue, htext, List.reverse_nil, List.nil_append, String.ofList_toList]

theorem opens_of_spells {value : Json} {cs : List Char} (h : Spells value cs) :
    ∃ c cs', cs = c :: cs' ∧ Opens c := by
  cases h with
  | null => exact opens_of_readScalar (rfl : readScalar "null".toList = .ok (.null, []))
  | boolean b =>
      cases b with
      | false => exact opens_of_readScalar (rfl : readScalar "false".toList = .ok (_, []))
      | true => exact opens_of_readScalar (rfl : readScalar "true".toList = .ok (_, []))
  | integer short =>
      have h := readScalar_integerText _ short (nofun : Stops [])
      rw [List.append_nil] at h
      exact opens_of_readScalar h
  | number x =>
      have h := readScalar_numberText x (nofun : Stops [])
      rw [List.append_nil] at h
      exact opens_of_readScalar h
  | text s => exact ⟨_, _, rfl, by decide⟩
  | noItems => exact ⟨_, _, rfl, by decide⟩
  | list blank rest => exact ⟨_, _, rfl, by decide⟩
  | noEntries => exact ⟨_, _, rfl, by decide⟩
  | object blank rest => exact ⟨_, _, rfl, by decide⟩

theorem opens_of_spellsItems {items : List Json} {cs : List Char} (h : SpellsItems items cs) :
    ∃ c cs', cs = c :: cs' ∧ Opens c := by
  cases h with
  | last first blank =>
      obtain ⟨c, cs, rfl, hc⟩ := opens_of_spells first
      exact ⟨c, _, rfl, hc⟩
  | cons first blank blank' rest =>
      obtain ⟨c, cs, rfl, hc⟩ := opens_of_spells first
      exact ⟨c, _, rfl, hc⟩

theorem opens_of_spellsEntries {entries : List (String × Json)} {cs : List Char}
    (h : SpellsEntries entries cs) : ∃ cs', cs = '"' :: cs' := by
  cases h with
  | last => exact ⟨_, rfl⟩
  | cons => exact ⟨_, rfl⟩

/-- The name of an entry is read up to its value. -/
theorem readEntries_name (before : List (String × Json)) (name : String) {fuel : Nat}
    {rest : List Char} (hfuel : (quotedChars name.toList).length ≤ fuel) :
    readEntries (fuel + 1) before (quotedChars name.toList ++ ':' :: rest) =
      match readValue fuel (skipSpace rest) with
      | .error e => .error e
      | .ok (value, rest) =>
        match skipSpace rest with
        | '\x7d' :: rest => .ok (.object ((name, value) :: before).reverse, rest)
        | ',' :: rest => readEntries fuel ((name, value) :: before) (skipSpace rest)
        | rest => flaw .commaExpected rest := by
  have hlength := length_le_flatMap_escapeChar name.toList
  simp only [quotedChars, List.length_append, List.length_cons, List.length_nil] at hfuel
  have htext := readText_quotedChars (quotedChars name.toList ++ ':' :: rest) [] name.toList
    (':' :: rest) (by omega : name.toList.length < fuel)
  have hread := readEntries.eq_def (fuel + 1) before (quotedChars name.toList ++ ':' :: rest)
  simp only [quotedChars, List.cons_append, List.append_assoc, List.nil_append] at htext hread ⊢
  simp only [htext, skipSpace_cons (by decide : ':' ∉ _), List.reverse_nil, List.nil_append,
    String.ofList_toList] at hread
  exact hread

mutual

/-- A text that spells a value is read as that value, whatever stands behind it. -/
theorem readValue_of_spells : ∀ {value : Json} {cs : List Char}, Spells value cs →
    ∀ {fuel : Nat} {rest : List Char}, cs.length < fuel → Stops rest →
      readValue fuel (cs ++ rest) = .ok (value, rest)
  | _, _, _, 0, _, hfuel, _ => absurd hfuel (Nat.not_lt_zero _)
  | _, _, .null, fuel + 1, _, _, _ => readValue_of_readScalar rfl fuel
  | _, _, .boolean true, fuel + 1, _, _, _ => readValue_of_readScalar rfl fuel
  | _, _, .boolean false, fuel + 1, _, _, _ => readValue_of_readScalar rfl fuel
  | _, _, .integer short, fuel + 1, _, _, hrest =>
      readValue_of_readScalar (readScalar_integerText _ short hrest) fuel
  | _, _, .number x, fuel + 1, _, _, hrest =>
      readValue_of_readScalar (readScalar_numberText x hrest) fuel
  | _, _, .text s, fuel + 1, _, hfuel, _ => readValue_text s (Nat.le_of_lt_succ hfuel)
  | _, _, .noItems, fuel + 1, _, _, _ => rfl
  | _, _, .noEntries, fuel + 1, _, _, _ => rfl
  | _, _, @Spells.list items space cs blank spelt, fuel + 1, rest, hfuel, hrest => by
      simp only [List.length_cons, List.length_append] at hfuel
      obtain ⟨c, cs', hcs, hc⟩ := opens_of_spellsItems spelt
      have hskip : skipSpace (space ++ (cs ++ rest)) = cs ++ rest := by
        rw [skipSpace_append blank, hcs, List.cons_append, hc.skipSpace]
      have hne : ∀ rest', ¬ cs ++ rest = ']' :: rest' := by
        rintro rest' heq
        rw [hcs, List.cons_append] at heq
        exact hc (by simp [(List.cons.inj heq).1])
      have hitems := readItems_of_spells spelt [] rest (by omega : cs.length < fuel)
      rw [List.cons_append, List.append_assoc]
      simp only [readValue, hskip, hitems, List.reverse_nil, List.nil_append]
  | _, _, @Spells.object entries space cs blank spelt, fuel + 1, rest, hfuel, hrest => by
      simp only [List.length_cons, List.length_append] at hfuel
      obtain ⟨cs', hcs⟩ := opens_of_spellsEntries spelt
      have hskip : skipSpace (space ++ (cs ++ rest)) = cs ++ rest := by
        rw [skipSpace_append blank, hcs, List.cons_append, skipSpace_cons (by decide)]
      have hne : ∀ rest', ¬ cs ++ rest = '\x7d' :: rest' := by
        rintro rest' heq
        rw [hcs, List.cons_append] at heq
        exact absurd (List.cons.inj heq).1 (by decide)
      have hentries := readEntries_of_spells spelt [] rest (by omega : cs.length < fuel)
      rw [List.cons_append, List.append_assoc]
      simp only [readValue, hskip, hentries, List.reverse_nil, List.nil_append]

theorem readItems_of_spells : ∀ {items : List Json} {cs : List Char}, SpellsItems items cs →
    ∀ {fuel : Nat} (before : List Json) (rest : List Char), cs.length < fuel →
      readItems fuel before (cs ++ rest) = .ok (.list (before.reverse ++ items), rest)
  | _, _, _, 0, _, _, hfuel => absurd hfuel (Nat.not_lt_zero _)
  | _, _, @SpellsItems.last item cs space first blank, fuel + 1, before, rest, hfuel => by
      simp only [List.length_append, List.length_cons, List.length_nil] at hfuel
      have hitem := readValue_of_spells first (by omega : cs.length < fuel)
        (stops_space blank (by decide : ']' ∈ _) rest)
      simp only [readItems, List.append_assoc, List.cons_append, List.nil_append, hitem,
        skipSpace_append blank, skipSpace_cons (by decide : ']' ∉ _), List.reverse_cons]
  | _, _, @SpellsItems.cons item items cs space space' cs' first blank blank' spelt, fuel + 1,
      before, rest, hfuel => by
      simp only [List.length_append, List.length_cons] at hfuel
      obtain ⟨c, cs'', hcs, hc⟩ := opens_of_spellsItems spelt
      have hitem := readValue_of_spells first (by omega : cs.length < fuel)
        (stops_space blank (by decide : ',' ∈ _) (space' ++ (cs' ++ rest)))
      have hitems := readItems_of_spells spelt (item :: before) rest
        (by omega : cs'.length < fuel)
      have hskip : skipSpace (cs' ++ rest) = cs' ++ rest := by
        rw [hcs, List.cons_append, hc.skipSpace]
      simp only [readItems, List.append_assoc, List.cons_append, hitem, skipSpace_append blank,
        skipSpace_append blank', skipSpace_cons (by decide : ',' ∉ _), hskip, hitems,
        List.reverse_cons, List.nil_append]

theorem readEntries_of_spells : ∀ {entries : List (String × Json)} {cs : List Char},
    SpellsEntries entries cs → ∀ {fuel : Nat} (before : List (String × Json)) (rest : List Char),
      cs.length < fuel →
      readEntries fuel before (cs ++ rest) = .ok (.object (before.reverse ++ entries), rest)
  | _, _, _, 0, _, _, hfuel => absurd hfuel (Nat.not_lt_zero _)
  | _, _, @SpellsEntries.last name value space cs space' blank first blank', fuel + 1, before, rest,
      hfuel => by
      simp only [List.length_append, List.length_cons, List.length_nil] at hfuel
      obtain ⟨c, cs', hcs, hc⟩ := opens_of_spells first
      have hvalue := readValue_of_spells first (by omega : cs.length < fuel)
        (stops_space blank' (by decide : '\x7d' ∈ _) rest)
      have hskip : skipSpace (cs ++ (space' ++ '\x7d' :: rest)) =
          cs ++ (space' ++ '\x7d' :: rest) := by
        rw [hcs, List.cons_append, hc.skipSpace]
      rw [List.append_assoc, List.cons_append, readEntries_name before name (by omega)]
      simp only [List.append_assoc, List.cons_append, List.nil_append, skipSpace_append blank,
        hskip, hvalue, skipSpace_append blank', skipSpace_cons (by decide : '\x7d' ∉ _),
        List.reverse_cons]
  | _, _, @SpellsEntries.cons name value entries space cs space' space'' cs' blank first blank'
      blank'' spelt, fuel + 1, before, rest, hfuel => by
      simp only [List.length_append, List.length_cons] at hfuel
      obtain ⟨c, cs'', hcs, hc⟩ := opens_of_spells first
      obtain ⟨ds, hcs'⟩ := opens_of_spellsEntries spelt
      have hvalue := readValue_of_spells first (by omega : cs.length < fuel)
        (stops_space blank' (by decide : ',' ∈ _) (space'' ++ (cs' ++ rest)))
      have hentries := readEntries_of_spells spelt ((name, value) :: before) rest
        (by omega : cs'.length < fuel)
      have hskip (rest : List Char) : skipSpace (cs ++ rest) = cs ++ rest := by
        rw [hcs, List.cons_append, hc.skipSpace]
      have hskip' : skipSpace (cs' ++ rest) = cs' ++ rest := by
        rw [hcs', List.cons_append, skipSpace_cons (by decide)]
      rw [List.append_assoc, List.cons_append, readEntries_name before name (by omega)]
      simp only [List.append_assoc, List.cons_append, List.nil_append, skipSpace_append blank,
        hskip, hvalue, skipSpace_append blank', skipSpace_cons (by decide : ',' ∉ _),
        skipSpace_append blank'', hskip', hentries, List.reverse_cons]

end

end Reading

section Writing

/-- Only white space stands between the parts of what is written, apart from the signs. -/
structure Spacing.Blank (spacing : Spacing) : Prop where
  /-- A part starts after white space. -/
  lineStart (level : Nat) : IsSpace (spacing.lineStart level).toList
  /-- A value starts after a colon and white space. -/
  afterName : ∃ space, spacing.afterName.toList = ':' :: space ∧ IsSpace space

theorem blank_indented : Spacing.indented.Blank where
  lineStart level := by
    intro c hc
    rw [Spacing.indented, String.toList_ofList] at hc
    rcases List.mem_cons.mp hc with rfl | hc
    · exact .inr rfl
    · exact .inl (List.eq_of_mem_replicate hc)
  afterName := ⟨[' '], rfl, by simp [IsSpace]⟩

/-- All integers of a value are short. -/
inductive Short : Json → Prop
  | null : Short .null
  | boolean (b : Bool) : Short (.boolean b)
  | integer {k} (short : IsShort k) : Short (.integer k)
  | number (x : Float) : Short (.number x)
  | text (s : String) : Short (.text s)
  | list {items} (short : ∀ item ∈ items, Short item) : Short (.list items)
  | object {entries} (short : ∀ entry ∈ entries, Short entry.2) : Short (.object entries)

variable {spacing : Spacing}

/-- Behind any text, a value is written as a text that spells it. -/
def WritesSpelt (spacing : Spacing) (value : Json) : Prop :=
  ∀ level out, ∃ cs,
    (write spacing level out value).toList = out.toList ++ cs ∧ Spells value cs

/-- The items behind the first one are written as a text that goes on with the first one's. -/
theorem writeItems_spelt (hspacing : spacing.Blank) (level below : Nat) {item : Json}
    {cs : List Char} (hitem : Spells item cs) {items : List Json}
    (hitems : ∀ item ∈ items, WritesSpelt spacing item) (out : String) :
    ∃ cs', (writeItems spacing level out items ++ spacing.lineStart below ++ "]").toList =
      out.toList ++ cs' ∧ SpellsItems (item :: items) (cs ++ cs') := by
  induction items generalizing item cs out with
  | nil =>
      refine ⟨(spacing.lineStart below).toList ++ [']'], ?_, .last hitem (hspacing.lineStart below)⟩
      simp [writeItems]
  | cons next items ih =>
      obtain ⟨cs₁, hcs₁, hnext⟩ :=
        hitems next List.mem_cons_self level (out ++ "," ++ spacing.lineStart level)
      obtain ⟨cs₂, hcs₂, hrest⟩ := ih hnext (fun item h => hitems item (List.mem_cons_of_mem _ h))
        (write spacing level (out ++ "," ++ spacing.lineStart level) next)
      refine ⟨[] ++ ',' :: ((spacing.lineStart level).toList ++ (cs₁ ++ cs₂)), ?_,
        .cons hitem (List.forall_mem_nil _) (hspacing.lineStart level) hrest⟩
      rw [writeItems, hcs₂, hcs₁]
      simp

/-- The entries behind the first one are written as a text that goes on with the first one's. -/
theorem writeEntries_spelt (hspacing : spacing.Blank) (level below : Nat) (name : String)
    {value : Json} {space cs : List Char} (hspace : IsSpace space) (hvalue : Spells value cs)
    {entries : List (String × Json)}
    (hentries : ∀ entry ∈ entries, WritesSpelt spacing entry.2) (out : String) :
    ∃ cs', (writeEntries spacing level out entries ++ spacing.lineStart below ++ "\x7d").toList =
      out.toList ++ cs' ∧ SpellsEntries ((name, value) :: entries)
        (quotedChars name.toList ++ ':' :: (space ++ (cs ++ cs'))) := by
  induction entries generalizing name value space cs out with
  | nil =>
      refine ⟨(spacing.lineStart below).toList ++ ['\x7d'], ?_,
        .last hspace hvalue (hspacing.lineStart below)⟩
      simp [writeEntries]
  | cons next entries ih =>
      obtain ⟨space', hafter, hspace'⟩ := hspacing.afterName
      obtain ⟨name', value'⟩ := next
      obtain ⟨cs₁, hcs₁, hnext⟩ := hentries _ List.mem_cons_self level
        (out ++ "," ++ spacing.lineStart level ++ quote name' ++ spacing.afterName)
      obtain ⟨cs₂, hcs₂, hrest⟩ := ih name' hspace' hnext
        (fun entry h => hentries entry (List.mem_cons_of_mem _ h)) (write spacing level
          (out ++ "," ++ spacing.lineStart level ++ quote name' ++ spacing.afterName) value')
      refine ⟨[] ++ ',' :: ((spacing.lineStart level).toList ++ (quotedChars name'.toList ++
        ':' :: (space' ++ (cs₁ ++ cs₂)))), ?_,
        .cons hspace hvalue (List.forall_mem_nil _) (hspacing.lineStart level) hrest⟩
      rw [writeEntries, hcs₂, hcs₁]
      simp [toList_quote, hafter]

/-- A value with short integers is written as a text that spells it. -/
theorem write_spelt (hspacing : spacing.Blank) {value : Json} (h : value.Short) :
    WritesSpelt spacing value := by
  induction h with
  | null => exact fun level out => ⟨_, by rw [write, String.toList_append], .null⟩
  | boolean b => exact fun level out => ⟨_, by rw [write, String.toList_append], .boolean b⟩
  | integer short =>
      exact fun level out => ⟨_, by rw [write, String.toList_append], .integer short⟩
  | number x => exact fun level out => ⟨_, by rw [write, String.toList_append], .number x⟩
  | text s =>
      exact fun level out => ⟨_, by rw [write, String.toList_append, toList_quote], .text s⟩
  | @list items _ ih =>
      intro level out
      cases items with
      | nil => exact ⟨_, by rw [write, String.toList_append]; rfl, .noItems⟩
      | cons item items =>
          obtain ⟨cs, hcs, hitem⟩ := ih item List.mem_cons_self (level + 1)
            (out ++ "[" ++ spacing.lineStart (level + 1))
          obtain ⟨cs', hcs', hitems⟩ := writeItems_spelt hspacing (level + 1) level hitem
            (fun item h => ih item (List.mem_cons_of_mem _ h)) (write spacing (level + 1)
              (out ++ "[" ++ spacing.lineStart (level + 1)) item)
          refine ⟨_, ?_, .list (hspacing.lineStart (level + 1)) hitems⟩
          rw [write, hcs', hcs]
          simp
  | @object entries _ ih =>
      intro level out
      cases entries with
      | nil => exact ⟨_, by rw [write, String.toList_append]; rfl, .noEntries⟩
      | cons entry entries =>
          obtain ⟨space, hafter, hspace⟩ := hspacing.afterName
          obtain ⟨name, value⟩ := entry
          obtain ⟨cs, hcs, hvalue⟩ := ih _ List.mem_cons_self (level + 1)
            (out ++ "\x7b" ++ spacing.lineStart (level + 1) ++ quote name ++ spacing.afterName)
          obtain ⟨cs', hcs', hentries⟩ := writeEntries_spelt hspacing (level + 1) level
            name hspace hvalue (fun entry h => ih entry (List.mem_cons_of_mem _ h))
            (write spacing (level + 1) (out ++ "\x7b" ++ spacing.lineStart (level + 1) ++
              quote name ++ spacing.afterName) value)
          refine ⟨_, ?_, .object (hspacing.lineStart (level + 1)) hentries⟩
          rw [write, hcs', hcs]
          simp [toList_quote, hafter]

end Writing

section Lines

theorem return_notMem_numberText (x : Float) : '\r' ∉ (numberText x).toList := by
  intro h
  have hdigit : ¬ Numeric.isPlainDigit '\r' = true := by decide
  rw [numberText] at h
  split_ifs at h
  · revert h
    decide
  · revert h
    decide
  · revert h
    decide
  · rcases Numeric.mem_exactText h with h | h
    · exact hdigit h
    · simp at h

theorem return_notMem_integerText (k : Int) : '\r' ∉ (Numeric.integerText k).toList := by
  intro h
  rw [Numeric.integerText, String.toList_append, String.toList_ofList, List.mem_append] at h
  rcases h with h | h
  · split at h <;> simp at h
  · exact absurd (Numeric.isPlainDigit_of_mem_toDigits h) (by decide)

theorem return_notMem_escapeChar (c : Char) : '\r' ∉ (escapeChar c).toList := by
  have hcontrol : ∀ n < 0x20, '\r' ∉ Text.hexadecimal 4 n := by decide
  unfold escapeChar
  iterate 7
    split
    · decide
  split
  · next hlow =>
    rw [String.toList_append, String.toList_ofList, String.toList_ofList, List.mem_append]
    rintro (h | h)
    · revert h
      decide
    · exact hcontrol c.toNat hlow h
  · next hreturn _ _ _ _ =>
    simpa using Ne.symm hreturn

theorem return_notMem_quotedChars (cs : List Char) : '\r' ∉ quotedChars cs := by
  intro h
  rw [quotedChars, List.mem_append, List.mem_cons, List.mem_flatMap] at h
  rcases h with (h | ⟨c, -, h⟩) | h
  · cases h
  · exact return_notMem_escapeChar c h
  · simp at h

theorem IsSpace.return_notMem {space : List Char} (h : IsSpace space) : '\r' ∉ space := by
  intro hmem
  rcases h _ hmem with heq | heq <;> cases heq

mutual

/-- A text that spells a value has no carriage return. -/
theorem return_notMem_of_spells : ∀ {value : Json} {cs : List Char}, Spells value cs → '\r' ∉ cs
  | _, _, .null => by decide
  | _, _, .boolean b => by cases b <;> decide
  | _, _, .integer _ => return_notMem_integerText _
  | _, _, .number x => return_notMem_numberText x
  | _, _, .text s => return_notMem_quotedChars s.toList
  | _, _, .noItems => by decide
  | _, _, .noEntries => by decide
  | _, _, .list blank items => by
      simp [blank.return_notMem, return_notMem_of_spellsItems items]
  | _, _, .object blank entries => by
      simp [blank.return_notMem, return_notMem_of_spellsEntries entries]

theorem return_notMem_of_spellsItems : ∀ {items : List Json} {cs : List Char},
    SpellsItems items cs → '\r' ∉ cs
  | _, _, .last first blank => by simp [return_notMem_of_spells first, blank.return_notMem]
  | _, _, .cons first blank blank' items => by
      simp [return_notMem_of_spells first, blank.return_notMem, blank'.return_notMem,
        return_notMem_of_spellsItems items]

theorem return_notMem_of_spellsEntries : ∀ {entries : List (String × Json)} {cs : List Char},
    SpellsEntries entries cs → '\r' ∉ cs
  | _, _, .last blank first blank' => by
      simp [return_notMem_quotedChars, return_notMem_of_spells first, blank.return_notMem,
        blank'.return_notMem]
  | _, _, .cons blank first blank' blank'' entries => by
      simp [return_notMem_quotedChars, return_notMem_of_spells first, blank.return_notMem,
        blank'.return_notMem, blank''.return_notMem, return_notMem_of_spellsEntries entries]

end

end Lines

/-- A text that spells a value is read as that value. -/
theorem parse_of_spells {value : Json} {s : String} (h : Spells value s.toList) :
    parse s = .ok value := by
  have hread := readValue_of_spells h (by omega : s.toList.length < 2 * s.toList.length + 2)
    (nofun : Stops [])
  rw [List.append_nil] at hread
  obtain ⟨c, cs, hcs, hc⟩ := opens_of_spells h
  have hmark : ∀ rest, ¬ s.toList = '\uFEFF' :: rest := by
    intro rest heq
    rw [hcs] at heq
    exact hc (by simp [(List.cons.inj heq).1])
  have hskip : skipSpace s.toList = s.toList := by rw [hcs, hc.skipSpace]
  have hwhole : readWhole s.toList = .ok value := by
    simp only [readWhole, hskip, hread]
    rfl
  simp only [parse, hwhole]

section Documents

variable {spacing : Spacing} {value : Json}

/-- A value with short integers is read back from its text. -/
theorem parse_write (hspacing : spacing.Blank) (h : value.Short) :
    parse (write spacing 0 "" value) = .ok value := by
  obtain ⟨cs, hcs, hspelt⟩ := write_spelt hspacing h 0 ""
  rw [String.toList_empty, List.nil_append] at hcs
  exact parse_of_spells (hcs ▸ hspelt)

/-- The text of a value has the ends of lines that a text file has. -/
theorem return_notMem_write (hspacing : spacing.Blank) (h : value.Short) :
    '\r' ∉ (write spacing 0 "" value).toList := by
  obtain ⟨cs, hcs, hspelt⟩ := write_spelt hspacing h 0 ""
  rw [hcs, String.toList_empty, List.nil_append]
  exact return_notMem_of_spells hspelt

end Documents

end Sprig.Json
