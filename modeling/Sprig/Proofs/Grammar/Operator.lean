import Sprig.Proofs.Parse.Step
import Sprig.Proofs.Grammar.Expression

/-!
# Forms of expressions and their parsers

Each form of expression has a parser. Those of comparisons, sums and products are one loop with
different operands, operators and nodes. A token that is an operator of one of these forms is one of
no other, so it ends every tighter expression in front of it.
-/

namespace Sprig.Grammar

open Parse

namespace Form

/-- The parser of a form of expression. -/
def parser : Form → (frames : Nat) → Parse Tree
  | expression => Parse.expression
  | comparison => Parse.comparison
  | sum => Parse.additive
  | product => Parse.multiplicative
  | negation => Parse.unary
  | power => Parse.exponent
  | primary => Parse.primary
  | items => fun _ => tooDeep

/-- Without frames every parser gives up. -/
theorem parser_zero (form : Form) : form.parser 0 = tooDeep := by
  cases form <;> simp [parser]

/-- Whether a token is taken for an operator that groups to the left. -/
def joins : Form → Token → Bool
  | comparison => comparesValues
  | sum => addsValues
  | product => multipliesValues
  | _ => fun _ => false

/-- The node that joins two operands. -/
def join : Form → (operator left right : Tree) → Tree
  | comparison => .comparison
  | _ => .binary

theorem parser_succ {form : Form} (h : form.operators ≠ []) (n : Nat) :
    form.parser (n + 1) = leftGrouped (form.tighter.parser n) form.joins form.join := by
  cases form with
  | comparison => simp only [parser, Parse.comparison]; rfl
  | sum => simp only [parser, Parse.additive]; rfl
  | product => simp only [parser, Parse.multiplicative]; rfl
  | _ => exact absurd rfl h

theorem join_text (form : Form) (word : String) (left right : Tree) :
    form.join (.text word) left right = form.node word left right := by
  cases form <;> rfl

/-- How tight a form is. -/
def rank : Form → Nat
  | expression => 0
  | comparison => 1
  | sum => 2
  | product => 3
  | negation => 4
  | power => 5
  | primary => 6
  | items => 7

theorem rank_le_tighter (form : Form) : form.rank ≤ form.tighter.rank := by
  cases form <;> decide

theorem rank_lt_tighter {form : Form} (h : form.operators ≠ []) :
    form.rank < form.tighter.rank := by
  cases form <;> first | decide | exact absurd rfl h

/-- A token with a literal that fits its kind is taken for the operators in the table of the form,
and for no others. -/
theorem joins_iff {t : Token} (ht : t.IsLexical) (form : Form) :
    form.joins t = true ↔ ∃ entry ∈ form.operators, t.Is entry.1 entry.2 := by
  cases form with
  | comparison =>
      simp only [joins, comparesValues, operators, Token.Is, decide_eq_true_eq]
      constructor
      · rintro (hkind | ⟨hkind, hliteral | hliteral⟩)
        · obtain ⟨s, hliteral, hadmits⟩ := ht.text (by simp [hkind])
          simp only [hkind, Token.Kind.admits, decide_eq_true_eq, List.mem_cons,
            List.not_mem_nil, or_false] at hadmits
          rcases hadmits with rfl | rfl | rfl | rfl <;> simp [hkind, hliteral]
        · simp [hkind, hliteral]
        · simp [hkind, hliteral]
      · rintro ⟨entry, hentry, hkind, hliteral⟩
        simp only [List.mem_cons, List.not_mem_nil, or_false] at hentry
        rcases hentry with rfl | rfl | rfl | rfl | rfl | rfl <;> simp [hkind, hliteral]
  | sum => simp [joins, addsValues, operators, Token.Is, and_or_left]
  | product => simp [joins, multipliesValues, operators, Token.Is, and_or_left]
  | _ => simp [joins, operators]

theorem joins_of_kind {t : Token} (hoperator : t.kind ≠ .operator)
    (hcomparison : t.kind ≠ .comparison) (form : Form) : form.joins t = false := by
  cases form <;>
    simp [joins, comparesValues, addsValues, multipliesValues, hoperator, hcomparison]

/-- Every operator and every comparison that a text can spell joins the operands of some form. -/
theorem exists_joins {t : Token} (ht : t.IsLexical)
    (hkind : t.kind = .operator ∨ t.kind = .comparison) :
    ∃ form : Form, form.joins t = true := by
  rcases hkind with hkind | hkind
  · obtain ⟨s, hliteral, hadmits⟩ := ht.text (by simp [hkind])
    simp only [hkind, Token.Kind.admits, decide_eq_true_eq, List.mem_cons, List.not_mem_nil,
      or_false] at hadmits
    rcases hadmits with rfl | rfl | rfl | rfl | rfl | rfl
    · exact ⟨sum, by simp [joins, addsValues, hkind, hliteral]⟩
    · exact ⟨sum, by simp [joins, addsValues, hkind, hliteral]⟩
    · exact ⟨product, by simp [joins, multipliesValues, hkind, hliteral]⟩
    · exact ⟨product, by simp [joins, multipliesValues, hkind, hliteral]⟩
    · exact ⟨comparison, by simp [joins, comparesValues, hkind, hliteral]⟩
    · exact ⟨comparison, by simp [joins, comparesValues, hkind, hliteral]⟩
  · exact ⟨comparison, by simp [joins, comparesValues, hkind]⟩

theorem admits_of_mem_operators {form : Form} :
    ∀ entry ∈ form.operators, entry.1.admits (.text entry.2) = true := by
  cases form <;> decide

theorem kind_of_mem_operators {form : Form} :
    ∀ entry ∈ form.operators, entry.1 = .operator ∨ entry.1 = .comparison := by
  cases form <;> decide

theorem kind_of_operator {form : Form} {kind : Token.Kind} {word : String} {op : Token}
    (hmem : (kind, word) ∈ form.operators) (hop : op.Is kind word) :
    op.kind = .operator ∨ op.kind = .comparison :=
  hop.1 ▸ kind_of_mem_operators _ hmem

/-- No operator belongs to two forms. -/
theorem eq_of_mem_operators {form other : Form} {entry : Token.Kind × String}
    (h : entry ∈ form.operators) (hother : entry ∈ other.operators) : other = form := by
  revert entry
  cases form <;> cases other <;> decide

/-- An operator of a form is taken for one by the parser of that form, and by no other. -/
theorem joins_operator {form : Form} {kind : Token.Kind} {word : String} {op : Token}
    (hmem : (kind, word) ∈ form.operators) (hop : op.Is kind word) (other : Form) :
    other.joins op = true ↔ other = form := by
  have hlexical : op.IsLexical := by
    rw [Token.IsLexical, hop.1, hop.2]
    exact admits_of_mem_operators _ hmem
  rw [joins_iff hlexical]
  constructor
  · rintro ⟨⟨kind', word'⟩, hother, hkind, hliteral⟩
    obtain rfl : kind = kind' := hop.1.symm.trans hkind
    obtain rfl : word = word' := Token.Literal.text.inj (hop.2.symm.trans hliteral)
    exact eq_of_mem_operators hmem hother
  · rintro rfl
    exact ⟨(kind, word), hmem, hop⟩

end Form

/-- The kinds of tokens that end every expression in front of them. -/
def closerKinds : List Token.Kind :=
  [.rightParen, .rightBracket, .comma, .semicolon, .rightBrace, .finish]

/-- Whether a token ends every expression of a form in front of it. -/
structure Ends (form : Form) (t : Token) : Prop where
  opens : t.kind ≠ .leftParen ∧ t.kind ≠ .leftBracket ∧ t.kind ≠ .dot
  raises : form.rank ≤ Form.power.rank → t.kind ≠ .power
  joins : ∀ inner : Form, form.rank ≤ inner.rank → inner.joins t = false

namespace Ends

/-- An operator ends the operand on its left. -/
theorem of_operator {form : Form} {kind : Token.Kind} {word : String} {op : Token}
    (hmem : (kind, word) ∈ form.operators) (hop : op.Is kind word) : Ends form.tighter op := by
  have hkind := Form.kind_of_operator hmem hop
  refine ⟨?_, ?_, ?_⟩
  · rcases hkind with hkind | hkind <;> simp [hkind]
  · intro _
    rcases hkind with hkind | hkind <;> simp [hkind]
  · intro inner hrank
    apply Bool.eq_false_iff.mpr
    intro hjoins
    have heq := (Form.joins_operator hmem hop inner).mp hjoins
    have hlt := Form.rank_lt_tighter (List.ne_nil_of_mem hmem)
    rw [heq] at hrank
    omega

/-- The sign of a power ends its base. -/
theorem of_power {t : Token} (ht : t.kind = .power) : Ends .primary t where
  opens := by simp [ht]
  raises := by simp [Form.rank]
  joins inner _ := inner.joins_of_kind (by simp [ht]) (by simp [ht])

theorem of_closer {t : Token} (ht : t.kind ∈ closerKinds) (form : Form) : Ends form t := by
  simp only [closerKinds, List.mem_cons, List.not_mem_nil, or_false] at ht
  refine ⟨?_, ?_, ?_⟩
  · rcases ht with ht | ht | ht | ht | ht | ht <;> simp [ht]
  · intro _
    rcases ht with ht | ht | ht | ht | ht | ht <;> simp [ht]
  · intro inner _
    apply Form.joins_of_kind <;> rcases ht with ht | ht | ht | ht | ht | ht <;> simp [ht]

end Ends

/-- Whether a token behind an expression of a form does not carry it on, where the expression ends
in another token. -/
structure Stops (form : Form) (last next : Token) : Prop where
  raises : form.rank ≤ Form.power.rank → next.kind ≠ .power
  joins : ∀ inner : Form, form.rank ≤ inner.rank → inner.joins next = false
  opens : last.kind = .identifier →
    next.kind ≠ .leftParen ∧ next.kind ≠ .leftBracket ∧ next.kind ≠ .dot
  calls : last.Is .keyword "length" → next.kind ≠ .leftParen

namespace Stops

variable {form : Form} {last next : Token}

/-- A token that ends every expression of a form carries on none. -/
theorem of_ends (h : Ends form next) (last : Token) : Stops form last next where
  raises := h.raises
  joins := h.joins
  opens _ := h.opens
  calls _ := h.opens.1

/-- What does not carry on an expression does not carry on its operands. -/
theorem tighter (h : Stops form last next) : Stops form.tighter last next where
  raises hpower := h.raises (Nat.le_trans form.rank_le_tighter hpower)
  joins inner hrank := h.joins inner (Nat.le_trans form.rank_le_tighter hrank)
  opens := h.opens
  calls := h.calls

/-- An operand is carried on at most by the operators of its chain. -/
theorem of_tighter (h : Stops form.tighter last next) (hraises : form ≠ .power)
    (hjoins : form.joins next = false) : Stops form last next where
  raises hrank := by
    apply h.raises
    cases form <;> simp_all [Form.rank, Form.tighter]
  joins inner hrank := by
    by_cases htighter : form.tighter.rank ≤ inner.rank
    · exact h.joins inner htighter
    · obtain rfl : inner = form := by
        cases form <;> cases inner <;> simp_all [Form.rank, Form.tighter]
      exact hjoins
  opens := h.opens
  calls := h.calls

/-- A primary expression is carried on only by what may stand behind its last token. -/
theorem primary (hopens : last.kind = .identifier →
      next.kind ≠ .leftParen ∧ next.kind ≠ .leftBracket ∧ next.kind ≠ .dot)
    (hcalls : last.Is .keyword "length" → next.kind ≠ .leftParen) : Stops .primary last next where
  raises hrank := absurd hrank (by decide)
  joins inner hrank := by
    cases inner <;> first | rfl | exact absurd hrank (by decide)
  opens := hopens
  calls := hcalls

theorem primary_of_kind (hidentifier : last.kind ≠ .identifier) (hkeyword : last.kind ≠ .keyword) :
    Stops .primary last next :=
  primary (fun h => absurd h hidentifier) (fun h => absurd h.1 hkeyword)

theorem power (h : Stops .primary last next) (hpower : next.kind ≠ .power) :
    Stops .power last next where
  raises _ := hpower
  joins inner _ := by
    cases inner with
    | comparison | sum | product => exact absurd ‹_› (by decide)
    | _ => rfl
  opens := h.opens
  calls := h.calls

/-- What does not carry on a power does not carry on its exponent. -/
theorem negation (h : Stops .power last next) : Stops .negation last next where
  raises _ := h.raises (Nat.le_refl _)
  joins inner hrank := by
    cases inner <;> first | rfl | exact absurd hrank (by decide)
  opens := h.opens
  calls := h.calls

/-- The exponent of a power stops where the power does. -/
theorem of_negation (h : Stops .negation last next) : Stops .power last next where
  raises _ := h.raises (by decide)
  joins inner hrank := h.joins inner (Nat.le_trans (by decide) hrank)
  opens := h.opens
  calls := h.calls

end Stops

end Sprig.Grammar
