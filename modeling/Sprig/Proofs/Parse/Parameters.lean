import Sprig.Proofs.Parse.Step

/-!
# Lists of parameters

Parameters are read in two ways. Behind the keyword `function` they have to be there, and what does
not belong to a list of parameters is refused. Behind a name they may be there, and what does not
belong to a list of parameters gives none. From every place of every list of tokens both readings go
the same way: they come to the same parameters, or they stop at the same token.

## Implementation notes

The two loops over the names have rounds of their own, and they differ when these run out. A round
takes a name and a comma, and behind two different tokens there are fewer tokens ahead than before,
also where no token closes the list. So rounds for the tokens ahead are enough for both loops.
-/

namespace Sprig.Parse

/-- A reading that may find nothing goes the way of one that has to find something: both find the
same and stop at the same cursor, or the first one finds nothing where the second one is refused. -/
inductive Lenient {α : Type} : Step (Option α) → Step α → Prop
  | found {value rest} : Lenient (.done (some value) rest) (.done value rest)
  | nothing {what rest} : Lenient (.done none rest) (.refused (.expected what) rest)

section Lenient

variable {α β : Type} {s : Step (Option α)} {t : Step α} {c rest : Cursor}

theorem Lenient.exists_done (h : Lenient s t) : ∃ value? rest, s = .done value? rest := by
  cases h <;> exact ⟨_, _, rfl⟩

theorem Lenient.some_iff (h : Lenient s t) (value : α) (rest : Cursor) :
    s = .done (some value) rest ↔ t = .done value rest := by
  cases h <;> simp

theorem Lenient.none_iff (h : Lenient s t) (rest : Cursor) :
    s = .done none rest ↔ ∃ what, t = .refused (.expected what) rest := by
  cases h <;> simp

/-- Readings that go the same way go on the same way, where nothing found stays nothing. -/
theorem Lenient.bind {first? : Parse (Option α)} {first : Parse α}
    {next? : Option α → Parse (Option β)} {next : α → Parse β}
    (h : Lenient (first? c) (first c)) (hnone : ∀ rest, next? none rest = .done none rest)
    (hnext : ∀ value rest, Lenient (next? (some value) rest) (next value rest)) :
    Lenient ((first? >>= next?) c) ((first >>= next) c) := by
  rw [bind_apply, bind_apply]
  generalize first? c = s at h
  generalize first c = t at h
  cases h with
  | @found value rest => exact hnext value rest
  | @nothing what rest =>
      change Lenient (next? none rest) _
      rw [hnone]
      exact .nothing

end Lenient

section Rounds

variable {c : Cursor} (t : Token) (budget : List Token)

theorem names_of_not_name (hname : c.current.kind ≠ .identifier) :
    names (t :: budget) c = .refused (.expected (.phrase "parameter name")) c := by
  rw [names, bind_apply, expectAs_of_ne hname]

theorem names_of_last (hname : c.current.kind = .identifier)
    (hcomma : c.advance.current.kind ≠ .comma) :
    names (t :: budget) c = .done [c.current.literal.tree] c.advance := by
  rw [names, bind_of_done (expectAs_of_kind hname _), bind_of_done (isAt_apply _ _),
    decide_eq_false hcomma, if_neg (by simp)]
  rfl

theorem names_of_more (hname : c.current.kind = .identifier)
    (hcomma : c.advance.current.kind = .comma) :
    names (t :: budget) c = (do
      let rest ← names budget
      return c.current.literal.tree :: rest : Parse (List Tree)) c.advance.advance := by
  rw [names, bind_of_done (expectAs_of_kind hname _), bind_of_done (isAt_apply _ _),
    decide_eq_true hcomma, if_pos rfl, bind_of_done (advance_apply _)]

theorem namesIfPresent_of_not_name (hname : c.current.kind ≠ .identifier) :
    namesIfPresent (t :: budget) c = .done none c := by
  rw [namesIfPresent, bind_of_done (isAt_apply _ c), decide_eq_false hname, if_neg (by simp)]
  rfl

theorem namesIfPresent_of_last (hname : c.current.kind = .identifier)
    (hcomma : c.advance.current.kind ≠ .comma) :
    namesIfPresent (t :: budget) c = .done (some [c.current.literal.tree]) c.advance := by
  rw [namesIfPresent, bind_of_done (isAt_apply _ c), decide_eq_true hname, if_pos rfl,
    bind_of_done (advance_apply c), bind_of_done (isAt_apply _ _), decide_eq_false hcomma,
    if_neg (by simp)]
  rfl

theorem namesIfPresent_of_more (hname : c.current.kind = .identifier)
    (hcomma : c.advance.current.kind = .comma) :
    namesIfPresent (t :: budget) c = (do
      let rest ← namesIfPresent budget
      return rest.map (c.current.literal.tree :: ·) : Parse (Option (List Tree)))
        c.advance.advance := by
  rw [namesIfPresent, bind_of_done (isAt_apply _ c), decide_eq_true hname, if_pos rfl,
    bind_of_done (advance_apply c), bind_of_done (isAt_apply _ _), decide_eq_true hcomma,
    if_pos rfl, bind_of_done (advance_apply _)]

end Rounds

section Agreement

variable {c : Cursor}

/-- With rounds for all tokens ahead, both loops over the names go the same way. -/
theorem lenient_names (budget : List Token) (hbudget : c.tokens.length ≤ budget.length) :
    Lenient (namesIfPresent budget c) (names budget c) := by
  induction budget generalizing c with
  | nil => simp [Cursor.tokens] at hbudget
  | cons t budget ih =>
      by_cases hname : c.current.kind = .identifier
      · by_cases hcomma : c.advance.current.kind = .comma
        · rw [namesIfPresent_of_more t budget hname hcomma, names_of_more t budget hname hcomma]
          -- The name and the comma are of two kinds, so the step over the name was a step ahead.
          have htaken := c.length_tokens_advance_lt (by simp [hname, hcomma])
          have hround := c.advance.length_tokens_advance_le
          rw [List.length_cons] at hbudget
          exact (ih (by omega)).bind (fun _ => rfl) fun _ _ => .found
        · rw [namesIfPresent_of_last t budget hname hcomma, names_of_last t budget hname hcomma]
          exact .found
      · rw [namesIfPresent_of_not_name t budget hname, names_of_not_name t budget hname]
        exact .nothing

/-- What is read behind the names of parameters that have to be there. -/
def closeParameters (params : List Tree) : Parse (List Tree) := do
  let _ ← expectAs .rightParen "')' after parameters"
  return params

theorem lenient_closeParameters (params : List Tree) (c : Cursor) :
    Lenient (closedParameters (some params) c) (closeParameters params c) := by
  rw [closedParameters, closeParameters, bind_of_done (isAt_apply _ c)]
  by_cases hright : c.current.kind = .rightParen
  · rw [decide_eq_true hright, if_pos rfl, bind_of_done (advance_apply c),
      bind_of_done (expectAs_of_kind hright _)]
    exact .found
  · rw [decide_eq_false hright, if_neg (by simp), bind_apply, expectAs_of_ne hright]
    exact .nothing

theorem parametersIfPresent_of_ne (hleft : c.current.kind ≠ .leftParen) :
    parametersIfPresent c = .refused (.expected (.kind .leftParen)) c := by
  rw [parametersIfPresent, bind_apply, expectKind_of_ne hleft]

theorem parameterList_of_ne (hleft : c.current.kind ≠ .leftParen) :
    parameterList c = .refused (.expected (.phrase "'(' after function name")) c := by
  rw [parameterList, bind_apply, expectAs_of_ne hleft]

/-- Behind the opening parenthesis, parameters that have to be there are names up to a closing one,
and there may be no names. -/
theorem parameterList_eq (hleft : c.current.kind = .leftParen) :
    parameterList c =
      if c.advance.current.kind = .rightParen then closeParameters [] c.advance
      else (names c.advance.tokens >>= closeParameters) c.advance := by
  rw [parameterList, bind_of_done (expectAs_of_kind hleft _), bind_of_done (isAt_apply _ _)]
  by_cases hright : c.advance.current.kind = .rightParen
  · rw [decide_eq_true hright, if_pos rfl, if_pos hright, closeParameters,
      bind_of_done (expectAs_of_kind hright _), bind_of_done (advance_apply _)]
  · rw [decide_eq_false hright, if_neg (by simp), if_neg hright, bind_of_done (cursor_apply _)]
    rfl

/-- In front of an opening parenthesis, the two readings of parameters go the same way. -/
theorem lenient_parameters (hleft : c.current.kind = .leftParen) :
    Lenient (parametersIfPresent c) (parameterList c) := by
  rw [parameterList_eq hleft, parametersIfPresent_eq, bind_of_done (expectKind_of_kind hleft),
    bind_of_done (cursor_apply _), bind_of_done (isAt_apply _ _)]
  by_cases hright : c.advance.current.kind = .rightParen
  · rw [decide_eq_true hright, if_pos rfl, if_pos hright]
    exact lenient_closeParameters [] c.advance
  · rw [decide_eq_false hright, if_neg (by simp), if_neg hright]
    exact (lenient_names _ (Nat.le_refl _)).bind (fun _ => rfl) lenient_closeParameters

end Agreement

/-- The tokens are names with a comma between every two, and the parameters are what the names say,
in their order and each as often as it is there. -/
structure Enumerates (ts : List Token) (params : List Tree) : Prop where
  kinds : ts.map (·.kind) = (List.replicate params.length .identifier).intersperse .comma
  params_eq : params = (ts.filter (·.kind = .identifier)).map (·.literal.tree)

section Enumerates

variable {t comma : Token} {ts : List Token} {e f : Tree} {params : List Tree}

theorem Enumerates.nil : Enumerates [] [] := ⟨rfl, rfl⟩

theorem Enumerates.last (ht : t.kind = .identifier) : Enumerates [t] [t.literal.tree] where
  kinds := by simp [ht]
  params_eq := by simp [ht]

theorem Enumerates.more (ht : t.kind = .identifier) (hcomma : comma.kind = .comma)
    (h : Enumerates ts params) (hne : params ≠ []) :
    Enumerates (t :: comma :: ts) (t.literal.tree :: params) := by
  obtain ⟨e, params, rfl⟩ := List.exists_cons_of_ne_nil hne
  obtain ⟨hkinds, hparams⟩ := h
  constructor
  · simp only [List.map_cons, ht, hcomma, hkinds, List.length_cons, List.replicate_succ,
      List.intersperse_cons_cons]
  · simp [ht, hcomma, ← hparams]

theorem Enumerates.eq_nil (h : Enumerates ts []) : ts = [] := List.map_eq_nil_iff.mp h.kinds

theorem Enumerates.exists_last (h : Enumerates ts [e]) :
    ∃ t, ts = [t] ∧ t.kind = .identifier ∧ t.literal.tree = e := by
  obtain ⟨hkinds, hparams⟩ := h
  obtain ⟨t, rfl, ht⟩ := List.map_eq_singleton_iff.mp hkinds
  exact ⟨t, rfl, ht, by simpa [ht] using hparams.symm⟩

theorem Enumerates.exists_more (h : Enumerates ts (e :: f :: params)) :
    ∃ t comma us, ts = t :: comma :: us ∧ t.kind = .identifier ∧ t.literal.tree = e ∧
      comma.kind = .comma ∧ Enumerates us (f :: params) := by
  obtain ⟨hkinds, hparams⟩ := h
  simp only [List.length_cons, List.replicate_succ, List.intersperse_cons_cons] at hkinds
  obtain ⟨t, us, rfl, ht, hkinds⟩ := List.map_eq_cons_iff.mp hkinds
  obtain ⟨comma, us, rfl, hcomma, hkinds⟩ := List.map_eq_cons_iff.mp hkinds
  have hparams : e :: f :: params =
      t.literal.tree :: (us.filter (·.kind = .identifier)).map (·.literal.tree) := by
    simpa [ht, hcomma] using hparams
  obtain ⟨hfirst, hrest⟩ := List.cons.inj hparams
  exact ⟨t, comma, us, rfl, ht, hfirst.symm, hcomma, hkinds, hrest⟩

theorem Enumerates.current_ne_rightParen (h : Enumerates ts (e :: params)) (c : Cursor) :
    (c.prepend ts).current.kind ≠ .rightParen := by
  cases params with
  | nil =>
      obtain ⟨t, rfl, ht, -⟩ := h.exists_last
      simp [ht]
  | cons f params =>
      obtain ⟨t, comma, us, rfl, ht, -⟩ := h.exists_more
      simp [ht]

end Enumerates

section Reading

variable {c rest : Cursor} {ts : List Token} {params : List Tree}

/-- Names in front of a token that is no comma are read. -/
theorem names_of_enumerates (h : Enumerates ts params) (hne : params ≠ [])
    (hrest : rest.current.kind ≠ .comma) (budget : List Token)
    (hbudget : ts.length ≤ budget.length) :
    names budget (rest.prepend ts) = .done params rest := by
  induction params generalizing ts budget with
  | nil => exact absurd rfl hne
  | cons e params ih =>
      cases params with
      | nil =>
          obtain ⟨t, rfl, ht, rfl⟩ := h.exists_last
          obtain ⟨u, budget, rfl⟩ := List.exists_cons_of_length_pos hbudget
          have hadvance := Cursor.advance_prepend_cons rest [] (t := t) (by simp [ht])
          rw [Cursor.prepend_nil] at hadvance
          rw [names_of_last u budget ht (by rwa [hadvance]), hadvance]
          rfl
      | cons f params =>
          obtain ⟨t, comma, us, rfl, ht, rfl, hcomma, hmore⟩ := h.exists_more
          have hrounds : 0 < budget.length := Nat.lt_of_lt_of_le (Nat.succ_pos _) hbudget
          obtain ⟨u, budget, rfl⟩ := List.exists_cons_of_length_pos hrounds
          have hname := Cursor.advance_prepend_cons rest (comma :: us) (t := t) (by simp [ht])
          have hround := Cursor.advance_prepend_cons rest us (t := comma) (by simp [hcomma])
          simp only [List.length_cons] at hbudget
          rw [names_of_more u budget ht (by rwa [hname]), hname, hround,
            bind_of_done (ih hmore (List.cons_ne_nil _ _) budget (by omega))]
          rfl

/-- What the loop over the names has taken are names with commas between them. -/
theorem exists_of_names (hc : c.IsClosed) (budget : List Token)
    (hbudget : c.tokens.length ≤ budget.length) (h : names budget c = .done params rest) :
    params ≠ [] ∧ rest.IsClosed ∧ ∃ ts, c = rest.prepend ts ∧ Enumerates ts params := by
  induction budget generalizing c params with
  | nil => simp [Cursor.tokens] at hbudget
  | cons u budget ih =>
      by_cases hname : c.current.kind = .identifier
      · have htaken := hc.tokens_eq (by simp [hname])
        by_cases hcomma : c.advance.current.kind = .comma
        · rw [names_of_more u budget hname hcomma] at h
          obtain ⟨others, last, hothers, hdone⟩ := bind_eq_done.mp h
          obtain ⟨rfl, rfl⟩ := Step.done.inj hdone
          have hseparated := hc.advance.tokens_eq (by simp [hcomma])
          have hlength := hc.length_tokens_advance (by simp [hname])
          have hround := c.advance.length_tokens_advance_le
          rw [List.length_cons] at hbudget
          obtain ⟨hne, hclosed, ts, hts, hnames⟩ := ih hc.advance.advance (by omega) hothers
          refine ⟨List.cons_ne_nil _ _, hclosed, _, Cursor.tokens_injective ?_,
            hnames.more hname hcomma hne⟩
          rw [htaken, hseparated, congrArg Cursor.tokens hts, Cursor.tokens_prepend,
            Cursor.tokens_prepend]
          rfl
        · rw [names_of_last u budget hname hcomma] at h
          obtain ⟨rfl, rfl⟩ := Step.done.inj h
          refine ⟨List.cons_ne_nil _ _, hc.advance, _, Cursor.tokens_injective ?_, .last hname⟩
          rw [htaken, Cursor.tokens_prepend]
          rfl
      · rw [names_of_not_name u budget hname] at h
        cases h

theorem closeParameters_eq_done_iff {given : List Tree} :
    closeParameters given c = .done params rest ↔
      c.current.kind = .rightParen ∧ given = params ∧ c.advance = rest := by
  rw [closeParameters]
  by_cases hright : c.current.kind = .rightParen
  · rw [bind_of_done (expectAs_of_kind hright _), pure_apply, Step.done.injEq]
    exact (and_iff_right hright).symm
  · rw [bind_apply, expectAs_of_ne hright]
    exact ⟨nofun, fun h => absurd h.1 hright⟩

/-- Names with commas between them, or no names, are read as parameters in parentheses. -/
theorem parameterList_of_enumerates {left right : Token} (hleft : left.kind = .leftParen)
    (h : Enumerates ts params) (hright : right.kind = .rightParen) :
    parameterList (rest.prepend (left :: ts ++ [right])) = .done params rest := by
  have hopened := Cursor.advance_prepend_cons rest (ts ++ [right]) (t := left) (by simp [hleft])
  have hclosed := Cursor.advance_prepend_cons rest [] (t := right) (by simp [hright])
  rw [List.cons_append, parameterList_eq hleft, hopened, Cursor.prepend_append]
  cases params with
  | nil =>
      obtain rfl := h.eq_nil
      rw [Cursor.prepend_nil, Cursor.current_prepend_cons, if_pos hright]
      exact closeParameters_eq_done_iff.mpr ⟨hright, rfl, hclosed⟩
  | cons e params =>
      have hcomma : (rest.prepend [right]).current.kind ≠ .comma := by simp [hright]
      have hnames := names_of_enumerates h (List.cons_ne_nil _ _) hcomma
        ((rest.prepend [right]).prepend ts).tokens (by simp)
      rw [if_neg (h.current_ne_rightParen _), bind_of_done hnames]
      exact closeParameters_eq_done_iff.mpr ⟨hright, rfl, hclosed⟩

/-- What is read as parameters are names with commas between them, or no names, in parentheses. -/
theorem exists_of_parameterList (hc : c.IsClosed) (h : parameterList c = .done params rest) :
    ∃ left ts right, c = rest.prepend (left :: ts ++ [right]) ∧ left.kind = .leftParen ∧
      Enumerates ts params ∧ right.kind = .rightParen := by
  by_cases hleft : c.current.kind = .leftParen
  · have hopened := hc.tokens_eq (by simp [hleft])
    rw [parameterList_eq hleft] at h
    split at h
    · obtain ⟨hright, rfl, rfl⟩ := closeParameters_eq_done_iff.mp h
      have hclosed := hc.advance.tokens_eq (by simp [hright])
      refine ⟨c.current, [], c.advance.current, Cursor.tokens_injective ?_, hleft, .nil, hright⟩
      rw [hopened, hclosed, Cursor.tokens_prepend]
      rfl
    · obtain ⟨given, mid, hnames, hclose⟩ := bind_eq_done.mp h
      obtain ⟨hright, rfl, rfl⟩ := closeParameters_eq_done_iff.mp hclose
      obtain ⟨-, hmid, ts, hts, henumerates⟩ := exists_of_names hc.advance _ (Nat.le_refl _) hnames
      have hclosed := hmid.tokens_eq (by simp [hright])
      refine ⟨c.current, ts, mid.current, Cursor.tokens_injective ?_, hleft, henumerates, hright⟩
      rw [hopened, congrArg Cursor.tokens hts, Cursor.tokens_prepend, hclosed,
        Cursor.tokens_prepend]
      simp
  · rw [parameterList_of_ne hleft] at h
    cases h

end Reading

/-- From every place of every list of tokens the two readings of parameters agree. In front of
anything but an opening parenthesis both are refused. In front of one, the reading that may find
nothing always comes to an end; it finds parameters just where the other one does, the same ones up
to the same cursor, and it finds nothing just where the other one is refused, at the same cursor.
The parameters are what the names between the parentheses say, in their order and each as often as
it is there. -/
theorem parameter_readings_agree {tokens : List Token} {place : Nat} {c : Cursor}
    (hplace : c.tokens = (Cursor.ofTokens tokens).tokens.drop place) :
    (c.current.kind ≠ .leftParen →
      parametersIfPresent c = .refused (.expected (.kind .leftParen)) c ∧
        parameterList c = .refused (.expected (.phrase "'(' after function name")) c) ∧
    (c.current.kind = .leftParen →
      (∃ params? rest, parametersIfPresent c = .done params? rest) ∧
      (∀ params rest, parametersIfPresent c = .done (some params) rest ↔
        parameterList c = .done params rest) ∧
      (∀ rest, parametersIfPresent c = .done none rest ↔
        ∃ what, parameterList c = .refused (.expected what) rest) ∧
      ∀ params rest, parameterList c = .done params rest ↔
        ∃ left ts right, c = rest.prepend (left :: ts ++ [right]) ∧ left.kind = .leftParen ∧
          Enumerates ts params ∧ right.kind = .rightParen) := by
  have hclosed : c.IsClosed := Cursor.isClosed_of_drop hplace
  refine ⟨fun hleft => ⟨parametersIfPresent_of_ne hleft, parameterList_of_ne hleft⟩,
    fun hleft => ?_⟩
  have hlenient := lenient_parameters hleft
  refine ⟨hlenient.exists_done, hlenient.some_iff, hlenient.none_iff, fun params rest => ?_⟩
  constructor
  · exact exists_of_parameterList hclosed
  · rintro ⟨left, ts, right, rfl, hleft, hnames, hright⟩
    exact parameterList_of_enumerates hleft hnames hright

/-- A name that is there twice is a parameter twice. Behind a comma at the end of the names, one
reading finds nothing and the other one is refused, both on the parenthesis; on a name both are
refused. -/
theorem parameter_readings_agree_behind_name :
    let left : Token := ⟨.leftParen, .text "(", ⟨1, 2⟩⟩
    let name : Token := ⟨.identifier, .text "x", ⟨1, 3⟩⟩
    let comma : Token := ⟨.comma, .text ",", ⟨1, 4⟩⟩
    let right : Token := ⟨.rightParen, .text ")", ⟨1, 5⟩⟩
    let twice : Cursor := ⟨left, [name, comma, name, right, Cursor.closing]⟩
    let broken : Cursor := ⟨left, [name, comma, right, Cursor.closing]⟩
    let inside : Cursor := ⟨name, [comma, right, Cursor.closing]⟩
    (twice.tokens = (Cursor.ofTokens [name, left, name, comma, name, right]).tokens.drop 1 ∧
      parametersIfPresent twice = .done (some [.text "x", .text "x"]) ⟨Cursor.closing, []⟩ ∧
      parameterList twice = .done [.text "x", .text "x"] ⟨Cursor.closing, []⟩) ∧
    (broken.tokens = (Cursor.ofTokens [name, left, name, comma, right]).tokens.drop 1 ∧
      parametersIfPresent broken = .done none ⟨right, [Cursor.closing]⟩ ∧
      ∃ what, parameterList broken = .refused (.expected what) ⟨right, [Cursor.closing]⟩) ∧
    inside.tokens = (Cursor.ofTokens [name, left, name, comma, right]).tokens.drop 2 ∧
      parametersIfPresent inside = .refused (.expected (.kind .leftParen)) inside ∧
      parameterList inside =
        .refused (.expected (.phrase "'(' after function name")) inside := by
  intro left name comma right twice broken inside
  have htwice : twice.tokens =
      (Cursor.ofTokens [name, left, name, comma, name, right]).tokens.drop 1 := rfl
  have hbroken : broken.tokens =
      (Cursor.ofTokens [name, left, name, comma, right]).tokens.drop 1 := rfl
  have hinside : inside.tokens =
      (Cursor.ofTokens [name, left, name, comma, right]).tokens.drop 2 := rfl
  have hfound : parametersIfPresent twice =
      .done (some [.text "x", .text "x"]) ⟨Cursor.closing, []⟩ := rfl
  have hnothing : parametersIfPresent broken = .done none ⟨right, [Cursor.closing]⟩ := rfl
  obtain ⟨-, hsome, -⟩ := (parameter_readings_agree htwice).2 rfl
  obtain ⟨-, -, hnone, -⟩ := (parameter_readings_agree hbroken).2 rfl
  exact ⟨⟨htwice, hfound, (hsome _ _).mp hfound⟩, ⟨hbroken, hnothing, (hnone _).mp hnothing⟩,
    hinside, (parameter_readings_agree hinside).1 (by simp [inside, name])⟩

end Sprig.Parse
