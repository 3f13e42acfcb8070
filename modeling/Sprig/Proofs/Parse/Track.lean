import Sprig.Proofs.Parse.Invariant
import Sprig.Proofs.Parse.Progress

/-!
# One parser on two cursors

A parser that reads two cursors side by side goes the same way on both for as long as the tokens it
looks at have the same kinds and literals. Where it stops going the same way it has stepped beyond
what the cursors have in common, or it has given up because of the nesting, of which the two runs
may allow different amounts.

## Implementation notes

What the two cursors have in common is a parameter. A loop has as many rounds as there are tokens
ahead where it starts, so the cursors differ in length by the same amount everywhere: on the first
one each round takes a token, and then so it does on the second.
-/

namespace Sprig

/-- How cursors on two token lists belong together, and which cursors on the first list are beyond
what the lists have in common. -/
structure Correspondence where
  /-- The cursors stand on the same place of what the lists have in common. -/
  near : Cursor → Cursor → Prop
  /-- The cursor stands behind what the lists have in common. -/
  beyond : Cursor → Prop
  /-- One of the two runs may give up because of the nesting where the other one goes on. -/
  loose : Prop
  kind_eq : ∀ {c d}, near c d → c.current.kind = d.current.kind
  literal_eq : ∀ {c d}, near c d → c.current.literal = d.current.literal
  closed : ∀ {c d}, near c d → c.IsClosed
  lexical : ∀ {b c d}, beyond b → near c d → c.IsLexical
  near_advance : ∀ {c d}, near c d → beyond c.advance ∨ near c.advance d.advance
  beyond_advance : ∀ {c}, beyond c → beyond c.advance
  loose_of_beyond : ∀ {c}, beyond c → loose
  gap : ∃ p q, ∀ {c d}, near c d → c.tokens.length + p = d.tokens.length + q

namespace Parse

variable {α β : Type}

/-- A cursor in front of a closing token, side by side with itself. -/
def sameCursor (loose : Prop) : Correspondence where
  near c d := c = d ∧ c.IsClosed
  beyond _ := False
  loose := loose
  kind_eq h := by rw [h.1]
  literal_eq h := by rw [h.1]
  closed h := h.2
  lexical h := h.elim
  near_advance {c d} h := by
    obtain ⟨rfl, hc⟩ := h
    exact .inr ⟨rfl, hc.advance⟩
  beyond_advance h := h
  loose_of_beyond h := h.elim
  gap := ⟨0, 0, fun h => by rw [h.1]⟩

/-- A parser keeps every property of cursors that a step ahead keeps. -/
def Forward (parser : Parse α) : Prop :=
  ∀ K : Cursor → Prop, (∀ c, K c → K c.advance) → Keeps K (fun _ => True) parser

theorem forward_bind {first : Parse α} {next : α → Parse β} (h : Forward first)
    (hnext : ∀ a, Forward (next a)) : Forward (first >>= next) :=
  fun K hK => keeps_bind (h K hK) fun a _ => hnext a K hK

theorem forward_pure (a : α) : Forward (pure a) := fun _ _ => keeps_pure trivial

theorem forward_isAt (kind : Token.Kind) : Forward (isAt kind) := fun _ _ => keeps_isAt kind

theorem forward_advance : Forward advance := fun _ hK c hc => ⟨trivial, hK c hc⟩

theorem forward_expect (kind : Token.Kind) (literal? : Option Token.Literal) (what : Expectation) :
    Forward (expect kind literal? what) := fun _ hK =>
  ((Invariant.of_advance hK).keeps_expect kind literal? trivial).mono fun _ _ => trivial

theorem forward_expectAs (kind : Token.Kind) (words : String) : Forward (expectAs kind words) :=
  forward_expect kind _ _

theorem forward_ite {p : Prop} [Decidable p] {yes no : Parse α} (hyes : Forward yes)
    (hno : Forward no) : Forward (if p then yes else no) := by
  split
  · exact hyes
  · exact hno

theorem Forward.of_done {parser : Parse α} (h : Forward parser) {K : Cursor → Prop}
    (hK : ∀ c, K c → K c.advance) {c rest : Cursor} (hc : K c) {a : α}
    (hdone : parser c = .done a rest) : K rest := by
  have hkeeps := h K hK c hc
  rw [hdone] at hkeeps
  exact hkeeps.rest

theorem Forward.length_le {parser : Parse α} (h : Forward parser) {c rest : Cursor} {a : α}
    (hdone : parser c = .done a rest) : rest.tokens.length ≤ c.tokens.length :=
  h.of_done (K := fun d => d.tokens.length ≤ c.tokens.length)
    (fun d hd => Nat.le_trans d.length_tokens_advance_le hd) (Nat.le_refl _) hdone

/-- The first step goes the same way as the second one, or it has left what the cursors have in
common, or one of the two gave up because of the nesting. -/
inductive Follows (T : Correspondence) (V : α → α → Prop) : Step α → Step α → Prop
  | tooDeep {rest s} (h : T.loose) : Follows T V (.refused .nestedTooDeeply rest) s
  | otherTooDeep {rest s} (h : T.loose) : Follows T V s (.refused .nestedTooDeeply rest)
  | beyond {s t} (h : T.beyond s.rest) : Follows T V s t
  | done {a b rest other} (hvalue : V a b) (hnear : T.near rest other) :
      Follows T V (.done a rest) (.done b other)
  | refused {why rest other} (hnear : T.near rest other) :
      Follows T V (.refused why rest) (.refused why other)

/-- The first parser goes the same way as the second one. -/
structure Tracks (T : Correspondence) (V : α → α → Prop) (parser other : Parse α) : Prop where
  follows : ∀ {c d}, T.near c d → Follows T V (parser c) (other d)
  forward : Forward parser

/-- A loop goes the same way as another one if both have rounds enough. -/
structure TracksWithin (T : Correspondence) (V : α → α → Prop)
    (loop other : List Token → Parse α) : Prop where
  follows : ∀ {c d} {budget rounds : List Token}, T.near c d →
    c.tokens.length ≤ budget.length → d.tokens.length ≤ rounds.length →
    Follows T V (loop budget c) (other rounds d)
  forward : ∀ budget, Forward (loop budget)

/-- Tokens that differ at most in their places. -/
def Alike (s t : Token) : Prop := s.kind = t.kind ∧ s.literal = t.literal

theorem Alike.refl (t : Token) : Alike t t := ⟨rfl, rfl⟩

variable {T : Correspondence} {V : α → α → Prop} {W : β → β → Prop}

/-- Two runs that follow one another go on alike. -/
theorem Follows.bind {first other : Parse α} {next after : α → Parse β} {c d : Cursor}
    (h : Follows T V (first c) (other d)) (hforward : ∀ a, Forward (next a))
    (hnext : ∀ {a b rest mid}, first c = .done a rest → other d = .done b mid → V a b →
      T.near rest mid → Follows T W (next a rest) (after b mid)) :
    Follows T W ((first >>= next) c) ((other >>= after) d) := by
  rw [bind_apply, bind_apply]
  generalize hs : first c = s at *
  generalize ht : other d = t at *
  cases h with
  | tooDeep h => exact .tooDeep h
  | otherTooDeep h => exact .otherTooDeep h
  | beyond hbeyond =>
      refine .beyond ?_
      cases s with
      | done a rest => exact (hforward a T.beyond (fun _ h => T.beyond_advance h) rest hbeyond).rest
      | refused why rest => exact hbeyond
  | done hvalue hnear => exact hnext rfl rfl hvalue hnear
  | refused hnear => exact .refused hnear

section Steps

theorem tracks_pure {a b : α} (h : V a b) : Tracks T V (pure a) (pure b) where
  follows hnear := .done h hnear
  forward := forward_pure a

/-- Both runs give up because of the nesting at once. -/
theorem tracks_tooDeep : Tracks T V tooDeep tooDeep where
  follows hnear := .refused hnear
  forward _ _ := keeps_tooDeep trivial

theorem tracks_of_tooDeep (h : T.loose) (other : Parse α) : Tracks T V tooDeep other where
  follows _ := .tooDeep h
  forward _ _ := keeps_tooDeep trivial

theorem tracks_of_otherTooDeep (h : T.loose) {parser : Parse α} (hparser : Forward parser) :
    Tracks T V parser tooDeep where
  follows _ := .otherTooDeep h
  forward := hparser

theorem tracks_refuse (what : Expectation) : Tracks T V (refuse what) (refuse what) where
  follows hnear := .refused hnear
  forward _ _ := keeps_refuse trivial

theorem tracks_bind {first other : Parse α} {next after : α → Parse β}
    (h : Tracks T V first other) (hV : ∀ a, V a a)
    (hnext : ∀ {a b}, V a b → Tracks T W (next a) (after b)) :
    Tracks T W (first >>= next) (other >>= after) where
  follows hnear := (h.follows hnear).bind (fun a => (hnext (hV a)).forward)
    fun _ _ hvalue hrest => (hnext hvalue).follows hrest
  forward := forward_bind h.forward fun a => (hnext (hV a)).forward

/-- Parsers with the same values hand these on. -/
theorem tracks_then {first other : Parse α} {next after : α → Parse β}
    (h : Tracks T Eq first other) (hnext : ∀ a, Tracks T W (next a) (after a)) :
    Tracks T W (first >>= next) (other >>= after) :=
  tracks_bind h (fun _ => rfl) fun {a _} hvalue => hvalue ▸ hnext a

/-- What a token says is the same on both cursors. -/
theorem tracks_token {first other : Parse Token} {next after : Token → Parse β}
    (h : Tracks T Alike first other)
    (hnext : ∀ {s t}, s.kind = t.kind → s.literal = t.literal → Tracks T W (next s) (after t)) :
    Tracks T W (first >>= next) (other >>= after) :=
  tracks_bind h .refl fun hvalue => hnext hvalue.1 hvalue.2

theorem tracks_current : Tracks T Alike current current where
  follows hnear := .done ⟨T.kind_eq hnear, T.literal_eq hnear⟩ hnear
  forward _ _ := fun _ hc => ⟨trivial, hc⟩

theorem tracks_advance : Tracks T Alike advance advance where
  follows hnear := by
    rcases T.near_advance hnear with hbeyond | hnext
    · exact .beyond hbeyond
    · exact .done ⟨T.kind_eq hnear, T.literal_eq hnear⟩ hnext
  forward := forward_advance

theorem fits_eq {s t : Token} (h : Alike s t) (kind : Token.Kind)
    (literal? : Option Token.Literal) : fits kind literal? s = fits kind literal? t := by
  rw [fits, fits, h.1, h.2]

theorem tracks_expect (kind : Token.Kind) (literal? : Option Token.Literal) (what : Expectation) :
    Tracks T Alike (expect kind literal? what) (expect kind literal? what) where
  follows {c d} hnear := by
    have halike : Alike c.current d.current := ⟨T.kind_eq hnear, T.literal_eq hnear⟩
    rw [expect, expect, fits_eq halike]
    split
    · exact tracks_advance.follows hnear
    · exact .refused hnear
  forward := forward_expect kind literal? what

theorem tracks_expectAs (kind : Token.Kind) (words : String) :
    Tracks T Alike (expectAs kind words) (expectAs kind words) := tracks_expect kind _ _

theorem tracks_expectKind (kind : Token.Kind) :
    Tracks T Alike (expectKind kind) (expectKind kind) := tracks_expect kind _ _

theorem tracks_expectKeyword (word : String) :
    Tracks T Alike (expectKeyword word) (expectKeyword word) := tracks_expect _ _ _

theorem tracks_isAt (kind : Token.Kind) : Tracks T Eq (isAt kind) (isAt kind) where
  follows hnear := .done (by rw [T.kind_eq hnear]) hnear
  forward := forward_isAt kind

theorem tracks_isAtWord (kind : Token.Kind) (word : String) :
    Tracks T Eq (isAtWord kind word) (isAtWord kind word) where
  follows hnear := .done (fits_eq ⟨T.kind_eq hnear, T.literal_eq hnear⟩ _ _) hnear
  forward _ _ := keeps_isAtWord kind word

theorem tracks_ite {p : Prop} [Decidable p] {yes no other some : Parse α}
    (hyes : Tracks T V yes other) (hno : Tracks T V no some) :
    Tracks T V (if p then yes else no) (if p then other else some) := by
  split
  · exact hyes
  · exact hno

end Steps

section Loops

/-- A loop may have as many rounds as there are tokens ahead. -/
theorem tracks_cursor {loop other : List Token → Parse α} (h : TracksWithin T V loop other) :
    Tracks T V (do let c ← cursor; loop c.tokens) (do let c ← cursor; other c.tokens) where
  follows hnear := h.follows hnear (Nat.le_refl _) (Nat.le_refl _)
  forward _ hK := keeps_bind keeps_cursor fun c _ => h.forward c.tokens _ hK

theorem tracksWithin_bind {loop other : List Token → Parse α} {next after : α → Parse β}
    (h : TracksWithin T Eq loop other) (hnext : ∀ a, Tracks T W (next a) (after a)) :
    TracksWithin T W (fun budget => loop budget >>= next)
      (fun budget => other budget >>= after) where
  follows hnear hbudget hrounds := (h.follows hnear hbudget hrounds).bind
    (fun a => (hnext a).forward) fun _ _ hvalue hrest => hvalue ▸ (hnext _).follows hrest
  forward budget := forward_bind (h.forward budget) fun a => (hnext a).forward

/-- A loop that is entered unless a token of a kind is ahead. -/
theorem tracksWithin_isAt {kind : Token.Kind} {yes also : Parse α}
    {loop other : List Token → Parse α} (hyes : Tracks T V yes also)
    (hno : TracksWithin T V loop other) :
    TracksWithin T V (fun budget => do if ← isAt kind then yes else loop budget)
      (fun budget => do if ← isAt kind then also else other budget) where
  follows {c d _ _} hnear hbudget hrounds := by
    rw [bind_of_done (isAt_apply kind c), bind_of_done (isAt_apply kind d), ← T.kind_eq hnear]
    split
    · exact hyes.follows hnear
    · exact hno.follows hnear hbudget hrounds
  forward budget := forward_bind (forward_isAt kind)
    fun closes => forward_ite hyes.forward (hno.forward budget)

/-- A round that takes a token on the first cursor leaves rounds enough on both. -/
theorem rounds_left {c d rest mid : Cursor} {t u : Token} {budget rounds : List Token}
    (hnear : T.near c d) (hrest : T.near rest mid)
    (hbudget : c.tokens.length ≤ (t :: budget).length)
    (hrounds : d.tokens.length ≤ (u :: rounds).length)
    (hround : rest.tokens.length < c.tokens.length) :
    rest.tokens.length ≤ budget.length ∧ mid.tokens.length ≤ rounds.length := by
  obtain ⟨p, q, hgap⟩ := T.gap
  have hbefore := hgap hnear
  have hafter := hgap hrest
  simp only [List.length_cons] at hbudget hrounds
  omega

theorem length_advance_lt {c d : Cursor} (hnear : T.near c d) (hkind : c.current.kind ≠ .finish) :
    c.advance.tokens.length < c.tokens.length := (T.closed hnear).length_tokens_advance hkind

section Operands

variable {operand other : Parse Tree} {joins : Token → Bool} {join : Tree → Tree → Tree → Tree}

theorem forward_joinFrom (h : Forward operand) (budget : List Token) (left : Tree) :
    Forward (joinFrom operand joins join budget left) := fun K hK =>
  (Invariant.of_advance hK).keeps_joinFrom (h K hK) (fun _ _ _ _ _ _ => trivial) budget trivial

theorem tracksWithin_joinFrom (h : Tracks T Eq operand other)
    (hjoins : ∀ {s t}, Alike s t → joins s = joins t)
    (hfinish : ∀ {t}, joins t = true → t.kind ≠ .finish) (left : Tree) :
    TracksWithin T Eq (joinFrom operand joins join · left) (joinFrom other joins join · left) where
  forward budget := forward_joinFrom h.forward budget left
  follows {c d budget rounds} hnear hbudget hrounds := by
    induction budget generalizing c d rounds left with
    | nil => simp [Cursor.tokens] at hbudget
    | cons t budget ih =>
        cases rounds with
        | nil => simp [Cursor.tokens] at hrounds
        | cons u rounds =>
            rw [joinFrom, joinFrom, bind_of_done (current_apply c), bind_of_done (current_apply d),
              ← hjoins ⟨T.kind_eq hnear, T.literal_eq hnear⟩]
            split
            · next hjoined =>
              refine (tracks_advance.follows hnear).bind ?_ ?_
              · exact fun _ => forward_bind h.forward fun _ => forward_joinFrom h.forward budget _
              · intro op op' rest mid hadvance _ halike hmid
                refine (h.follows hmid).bind (fun _ => forward_joinFrom h.forward budget _) ?_
                intro right _ last _ hright _ hsame hlast
                obtain ⟨-, rfl⟩ := Step.done.inj hadvance
                obtain ⟨hbudget, hrounds⟩ := rounds_left hnear hlast hbudget hrounds
                  (Nat.lt_of_le_of_lt (h.forward.length_le hright)
                    (length_advance_lt hnear (hfinish hjoined)))
                rw [halike.2, hsame]
                exact ih _ hlast hbudget hrounds
            · exact .done rfl hnear

theorem tracks_leftGrouped (h : Tracks T Eq operand other)
    (hjoins : ∀ {s t}, Alike s t → joins s = joins t)
    (hfinish : ∀ {t}, joins t = true → t.kind ≠ .finish) :
    Tracks T Eq (leftGrouped operand joins join) (leftGrouped other joins join) :=
  tracks_then h fun left => tracks_cursor (tracksWithin_joinFrom h hjoins hfinish left)

end Operands

section Items

variable {item other : Parse Tree}

theorem forward_moreItems (h : Forward item) (budget : List Token) :
    Forward (moreItems item budget) := fun K hK =>
  ((Invariant.of_advance hK).keeps_moreItems (h K hK) budget).mono fun _ _ => trivial

theorem tracksWithin_moreItems (h : Tracks T Eq item other) :
    TracksWithin T Eq (moreItems item) (moreItems other) where
  forward := forward_moreItems h.forward
  follows {c d budget rounds} hnear hbudget hrounds := by
    induction budget generalizing c d rounds with
    | nil => simp [Cursor.tokens] at hbudget
    | cons t budget ih =>
        cases rounds with
        | nil => simp [Cursor.tokens] at hrounds
        | cons u rounds =>
            have hrest : ∀ first, Forward (moreItems item budget >>= fun rest =>
                pure (first :: rest)) := fun first =>
              forward_bind (forward_moreItems h.forward budget) fun _ => forward_pure _
            rw [moreItems, moreItems, bind_of_done (isAt_apply _ c), bind_of_done (isAt_apply _ d),
              ← T.kind_eq hnear]
            split
            · next hcomma =>
              refine (tracks_advance.follows hnear).bind
                (fun _ => forward_bind h.forward hrest) ?_
              intro _ _ mid _ hadvance _ _ hmid
              refine (h.follows hmid).bind hrest ?_
              intro first _ last _ hfirst _ hsame hlast
              obtain ⟨-, rfl⟩ := Step.done.inj hadvance
              have hkind : c.current.kind ≠ .finish := by simp [of_decide_eq_true hcomma]
              obtain ⟨hbudget, hrounds⟩ := rounds_left hnear hlast hbudget hrounds
                (Nat.lt_of_le_of_lt (h.forward.length_le hfirst) (length_advance_lt hnear hkind))
              refine (ih hlast hbudget hrounds).bind (fun _ => forward_pure _) ?_
              intro _ _ _ _ _ _ hothers hend
              exact .done (by rw [hsame, hothers]) hend
            · exact .done rfl hnear

theorem tracks_itemsUntil (h : Tracks T Eq item other) (close : Token.Kind) :
    Tracks T Eq (itemsUntil close item) (itemsUntil close other) := by
  refine tracks_then (tracks_isAt close) fun closed => tracks_ite (tracks_pure rfl) ?_
  refine tracks_then h fun first => ?_
  exact tracks_cursor (tracksWithin_bind (tracksWithin_moreItems h) fun _ => tracks_pure rfl)

end Items

section Parameters

theorem forward_names (budget : List Token) : Forward (names budget) := fun _ hK =>
  ((Invariant.of_advance hK).keeps_names budget).mono fun _ _ => trivial

theorem forward_namesIfPresent (budget : List Token) : Forward (namesIfPresent budget) :=
  fun _ hK => ((Invariant.of_advance hK).keeps_namesIfPresent budget).mono fun _ _ => trivial

theorem forward_parametersIfPresent : Forward parametersIfPresent := fun _ hK =>
  (Invariant.of_advance hK).keeps_parametersIfPresent.mono fun _ _ => trivial

theorem tracksWithin_names : TracksWithin T Eq names names where
  forward := forward_names
  follows {c d budget rounds} hnear hbudget hrounds := by
    induction budget generalizing c d rounds with
    | nil => simp [Cursor.tokens] at hbudget
    | cons t budget ih =>
        cases rounds with
        | nil => simp [Cursor.tokens] at hrounds
        | cons u rounds =>
            have hmore : ∀ name : Token, Forward (do
                if ← isAt .comma then
                  let _ ← advance
                  let rest ← names budget
                  return name.literal.tree :: rest
                else
                  return [name.literal.tree]) := by
              intro name
              refine forward_bind (forward_isAt _) fun comma => forward_ite ?_ (forward_pure _)
              refine forward_bind forward_advance fun _ => ?_
              exact forward_bind (forward_names budget) fun _ => forward_pure _
            rw [names, names]
            refine ((tracks_expectAs _ _).follows hnear).bind hmore ?_
            intro name name' mid mid' hname _ halike hmid
            have htaken := shortens_expectAs (by simp) _ (T.closed hnear) hname
            rw [bind_of_done (isAt_apply _ mid), bind_of_done (isAt_apply _ mid'),
              ← T.kind_eq hmid, halike.2]
            split
            · refine (tracks_advance.follows hmid).bind ?_ ?_
              · exact fun _ => forward_bind (forward_names budget) fun _ => forward_pure _
              · intro _ _ last _ hadvance _ _ hlast
                obtain ⟨-, rfl⟩ := Step.done.inj hadvance
                have hlength := mid.length_tokens_advance_le
                obtain ⟨hbudget, hrounds⟩ := rounds_left hnear hlast hbudget hrounds (by omega)
                refine (ih hlast hbudget hrounds).bind (fun _ => forward_pure _) ?_
                intro _ _ _ _ _ _ hothers hend
                exact .done (by rw [hothers]) hend
            · exact .done rfl hmid

theorem tracks_parameterList : Tracks T Eq parameterList parameterList := by
  refine tracks_token (tracks_expectAs _ _) fun _ _ => ?_
  refine tracks_then (tracks_isAt _) fun closed => tracks_ite ?_ ?_
  · exact tracks_token tracks_advance fun _ _ => tracks_pure rfl
  · refine tracks_cursor (tracksWithin_bind tracksWithin_names fun params => ?_)
    exact tracks_token (tracks_expectAs _ _) fun _ _ => tracks_pure rfl

theorem tracksWithin_namesIfPresent : TracksWithin T Eq namesIfPresent namesIfPresent where
  forward := forward_namesIfPresent
  follows {c d budget rounds} hnear hbudget hrounds := by
    induction budget generalizing c d rounds with
    | nil => simp [Cursor.tokens] at hbudget
    | cons t budget ih =>
        cases rounds with
        | nil => simp [Cursor.tokens] at hrounds
        | cons u rounds =>
            have hmore : ∀ name : Token, Forward (do
                if ← isAt .comma then
                  let _ ← advance
                  let rest ← namesIfPresent budget
                  return rest.map (name.literal.tree :: ·)
                else
                  return some [name.literal.tree]) := by
              intro name
              refine forward_bind (forward_isAt _) fun comma => forward_ite ?_ (forward_pure _)
              refine forward_bind forward_advance fun _ => ?_
              exact forward_bind (forward_namesIfPresent budget) fun _ => forward_pure _
            rw [namesIfPresent, namesIfPresent, bind_of_done (isAt_apply _ c),
              bind_of_done (isAt_apply _ d), ← T.kind_eq hnear]
            split
            · next hnamed =>
              have hkind : c.current.kind ≠ .finish := by simp [of_decide_eq_true hnamed]
              have htaken := length_advance_lt hnear hkind
              refine (tracks_advance.follows hnear).bind hmore ?_
              intro name name' mid mid' hname _ halike hmid
              obtain ⟨-, rfl⟩ := Step.done.inj hname
              rw [bind_of_done (isAt_apply _ _), bind_of_done (isAt_apply _ mid'),
                ← T.kind_eq hmid, halike.2]
              split
              · refine (tracks_advance.follows hmid).bind ?_ ?_
                · exact fun _ => forward_bind (forward_namesIfPresent budget)
                    fun _ => forward_pure _
                · intro _ _ last _ hadvance _ _ hlast
                  obtain ⟨-, rfl⟩ := Step.done.inj hadvance
                  have hlength := c.advance.length_tokens_advance_le
                  obtain ⟨hbudget, hrounds⟩ := rounds_left hnear hlast hbudget hrounds (by omega)
                  refine (ih hlast hbudget hrounds).bind (fun _ => forward_pure _) ?_
                  intro _ _ _ _ _ _ hothers hend
                  exact .done (by rw [hothers]) hend
              · exact .done rfl hmid
            · exact .done rfl hnear

theorem tracks_closedParameters (params? : Option (List Tree)) :
    Tracks T Eq (closedParameters params?) (closedParameters params?) := by
  cases params? with
  | none => exact tracks_pure rfl
  | some params =>
      refine tracks_then (tracks_isAt _) fun closes => tracks_ite ?_ (tracks_pure rfl)
      exact tracks_token tracks_advance fun _ _ => tracks_pure rfl

theorem tracks_parametersIfPresent : Tracks T Eq parametersIfPresent parametersIfPresent := by
  rw [parametersIfPresent_eq]
  refine tracks_token (tracks_expectKind _) fun _ _ => ?_
  exact tracks_cursor (tracksWithin_isAt (tracks_closedParameters (some []))
    (tracksWithin_bind tracksWithin_namesIfPresent tracks_closedParameters))

end Parameters

section Statements

variable {statement other : Parse Tree}

theorem forward_blockStatements (h : Forward statement) (budget : List Token) :
    Forward (blockStatements statement budget) := fun K hK =>
  ((Invariant.of_advance hK).keeps_blockStatements (h K hK) budget).mono fun _ _ => trivial

theorem forward_programStatements (h : Forward statement) (budget : List Token) :
    Forward (programStatements statement budget) := fun K hK =>
  ((Invariant.of_advance hK).keeps_programStatements (h K hK) budget).mono fun _ _ => trivial

section Rounds

variable {loop after : List Token → Parse (List Tree)} {c d : Cursor} {t u : Token}
  {budget rounds : List Token}

/-- A loop goes on alike behind a semicolon. -/
theorem follows_semicolon (hforward : Forward (loop budget)) (hnear : T.near c d)
    (hbudget : c.tokens.length ≤ (t :: budget).length)
    (hrounds : d.tokens.length ≤ (u :: rounds).length) (hfinish : c.current.kind ≠ .finish)
    (hrest : ∀ {c d}, T.near c d → c.tokens.length ≤ budget.length →
      d.tokens.length ≤ rounds.length → Follows T Eq (loop budget c) (after rounds d)) :
    Follows T Eq ((do let _ ← advance; loop budget) c) ((do let _ ← advance; after rounds) d) := by
  refine (tracks_advance.follows hnear).bind (fun _ => hforward) ?_
  intro _ _ mid _ hadvance _ _ hmid
  obtain ⟨-, rfl⟩ := Step.done.inj hadvance
  obtain ⟨hbudget, hrounds⟩ := rounds_left hnear hmid hbudget hrounds
    (length_advance_lt hnear hfinish)
  exact hrest hmid hbudget hrounds

/-- A loop goes on alike behind a statement. -/
theorem follows_statement (h : Tracks T Eq statement other) (hshortens : Shortens statement)
    (hforward : Forward (loop budget)) (hnear : T.near c d)
    (hbudget : c.tokens.length ≤ (t :: budget).length)
    (hrounds : d.tokens.length ≤ (u :: rounds).length)
    (hrest : ∀ {c d}, T.near c d → c.tokens.length ≤ budget.length →
      d.tokens.length ≤ rounds.length → Follows T Eq (loop budget c) (after rounds d)) :
    Follows T Eq
      ((do
        let first ← statement
        let rest ← loop budget
        return first :: rest) c)
      ((do
        let first ← other
        let rest ← after rounds
        return first :: rest) d) := by
  refine (h.follows hnear).bind
    (fun _ => forward_bind hforward fun _ => forward_pure _) ?_
  intro first _ mid _ hfirst _ hsame hmid
  obtain ⟨hbudget, hrounds⟩ := rounds_left hnear hmid hbudget hrounds
    (hshortens (T.closed hnear) hfirst)
  refine (hrest hmid hbudget hrounds).bind (fun _ => forward_pure _) ?_
  intro _ _ _ _ _ _ hothers hend
  exact .done (by rw [hsame, hothers]) hend

end Rounds

theorem tracksWithin_blockStatements (h : Tracks T Eq statement other)
    (hshortens : Shortens statement) :
    TracksWithin T Eq (blockStatements statement) (blockStatements other) where
  forward := forward_blockStatements h.forward
  follows {c d budget rounds} hnear hbudget hrounds := by
    induction budget generalizing c d rounds with
    | nil => simp [Cursor.tokens] at hbudget
    | cons t budget ih =>
        cases rounds with
        | nil => simp [Cursor.tokens] at hrounds
        | cons u rounds =>
            have hforward := forward_blockStatements h.forward budget
            rw [blockStatements, blockStatements, bind_of_done (current_apply c),
              bind_of_done (current_apply d), ← T.kind_eq hnear]
            split
            · exact .done rfl hnear
            split
            · exact .refused hnear
            split
            · next hfinish _ => exact follows_semicolon hforward hnear hbudget hrounds hfinish ih
            · exact follows_statement h hshortens hforward hnear hbudget hrounds ih

theorem tracksWithin_programStatements (h : Tracks T Eq statement other)
    (hshortens : Shortens statement) :
    TracksWithin T Eq (programStatements statement) (programStatements other) where
  forward := forward_programStatements h.forward
  follows {c d budget rounds} hnear hbudget hrounds := by
    induction budget generalizing c d rounds with
    | nil => simp [Cursor.tokens] at hbudget
    | cons t budget ih =>
        cases rounds with
        | nil => simp [Cursor.tokens] at hrounds
        | cons u rounds =>
            have hforward := forward_programStatements h.forward budget
            rw [programStatements, programStatements, bind_of_done (current_apply c),
              bind_of_done (current_apply d), ← T.kind_eq hnear]
            split
            · exact .done rfl hnear
            split
            · next hfinish _ => exact follows_semicolon hforward hnear hbudget hrounds hfinish ih
            · exact follows_statement h hshortens hforward hnear hbudget hrounds ih

end Statements

end Loops

end Parse

end Sprig
