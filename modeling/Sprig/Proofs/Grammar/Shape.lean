import Sprig.Proofs.Grammar.StatementSound
import Sprig.Proofs.Tree.Shape

/-!
# What the grammar derives

Whatever some tokens spell has the shape of an expression or a statement. So every text that is
parsed gives statements of that shape.
-/

namespace Sprig.Grammar

open Sprig.Tree

/-- The tree of a form: an expression, or a list of expressions. -/
def Form.Shapes : Form → Tree → Prop
  | .items, e => ∃ es, e = .list es ∧ ∀ inner ∈ es, inner.IsExpression
  | _, e => e.IsExpression

theorem Form.shapes_iff {form : Form} (h : form ≠ .items) {e : Tree} :
    form.Shapes e ↔ e.IsExpression := by
  cases form <;> first | exact Iff.rfl | exact absurd rfl h

theorem Form.isExpression_node {form : Form} {kind : Token.Kind} {word : String} {left right : Tree}
    (hmem : (kind, word) ∈ form.operators) (hleft : left.IsExpression)
    (hright : right.IsExpression) : (form.node word left right).IsExpression := by
  cases form with
  | comparison =>
      refine .comparison ?_ hleft hright
      simp only [operators, List.mem_cons, Prod.mk.injEq, List.not_mem_nil, or_false] at hmem
      rcases hmem with h | h | h | h | h | h <;> simp [comparisonWords, h.2]
  | sum =>
      refine .binary ?_ hleft hright
      simp only [operators, List.mem_cons, Prod.mk.injEq, List.not_mem_nil, or_false] at hmem
      rcases hmem with h | h <;> simp [arithmeticWords, h.2]
  | product =>
      refine .binary ?_ hleft hright
      simp only [operators, List.mem_cons, Prod.mk.injEq, List.not_mem_nil, or_false] at hmem
      rcases hmem with h | h <;> simp [arithmeticWords, h.2]
  | _ => cases hmem

/-- What some tokens spell has the shape of its form. -/
theorem Spells.shapes {n : Nat} {form : Form} {ts : List Token} {e : Tree}
    (h : Spells n form ts e) : form.Shapes e := by
  induction h with
  | @loosen n form ts e hprimary hitems _ ih =>
      rw [Form.shapes_iff (Form.tighter_ne_items hitems)] at ih
      rwa [Form.shapes_iff hitems]
  | @join n form ls op rs kind word left right _ hmem _ _ ihfront ihback =>
      have hitems := Form.ne_items_of_operators (List.ne_nil_of_mem hmem)
      rw [Form.shapes_iff hitems] at ihfront ⊢
      rw [Form.shapes_iff (Form.tighter_ne_items hitems)] at ihback
      exact Form.isExpression_node hmem ihfront ihback
  | negate _ _ ih => exact .unary ih
  | raise _ _ _ ihfront ihback => exact .binary (by simp [arithmeticWords]) ihfront ihback
  | parens _ _ _ ih => exact ih
  | number => exact .number _
  | string => exact .string _
  | yes => exact .boolean true
  | no => exact .boolean false
  | array _ _ _ ih =>
      obtain ⟨es, heq, hes⟩ := ih
      obtain rfl := Tree.list.inj heq
      exact .arrayLiteral hes
  | name => exact .name _
  | element _ _ _ _ ih => exact .elementAccess ih
  | length => exact .length _
  | method _ _ _ _ _ _ ih =>
      obtain ⟨es, heq, hes⟩ := ih
      obtain rfl := Tree.list.inj heq
      exact .methodExpression hes
  | call _ _ _ _ ih =>
      obtain ⟨es, heq, hes⟩ := ih
      obtain rfl := Tree.list.inj heq
      exact .call hes
  | noItems => exact ⟨[], rfl, by simp⟩
  | lastItem _ ih => exact ⟨_, rfl, by simpa using (Form.shapes_iff (by simp)).mp ih⟩
  | moreItems _ _ _ ihitem ihrest =>
      obtain ⟨es, heq, hes⟩ := ihrest
      obtain rfl := Tree.list.inj heq
      refine ⟨_, rfl, ?_⟩
      intro inner hinner
      rcases List.mem_cons.mp hinner with rfl | hinner
      · exact ihitem
      · exact hes inner hinner

theorem Spells.isExpression {n : Nat} {ts : List Token} {e : Tree} (h : Spells n .expression ts e) :
    e.IsExpression := h.shapes

theorem Spells.areExpressions {n : Nat} {ts : List Token} {es : List Tree}
    (h : Spells n .items ts (.list es)) : ∀ e ∈ es, e.IsExpression := by
  obtain ⟨_, heq, hes⟩ := h.shapes
  obtain rfl := Tree.list.inj heq
  exact hes

theorem Names.eq_map {ts : List Token} {params : List Tree} (h : Names ts params) :
    ∃ words : List String, params = words.map Tree.text := by
  induction h with
  | @last t x ht => exact ⟨[x], rfl⟩
  | @more t x comma ts params _ _ _ ih =>
      obtain ⟨words, rfl⟩ := ih
      exact ⟨x :: words, rfl⟩

theorem Parameters.eq_map {ts : List Token} {params : List Tree} (h : Parameters ts params) :
    ∃ words : List String, params = words.map Tree.text := by
  cases h with
  | none => exact ⟨[], rfl⟩
  | some _ names => exact names.eq_map

/-- The tree of a part: a statement, or a list of statements. -/
def Part.Shapes : Part → Tree → Prop
  | .statement, tree => tree.IsStatement
  | .conditional, tree => tree.IsStatement
  | .sequence, tree => ∃ trees, tree = .list trees ∧ IsProgram trees
  | .block, tree => ∃ trees, tree = .list trees ∧ IsProgram trees

/-- What some tokens state has the shape of its part. -/
theorem States.shapes {adjoin : Tree → List Token → Token → Prop} {n : Nat} {part : Part}
    {ts : List Token} {tree : Tree} (h : States adjoin n part ts tree) : part.Shapes tree := by
  have hlist : ∀ {trees : List Tree}, (∃ inner, Tree.list trees = .list inner ∧ IsProgram inner) →
      IsProgram trees := by
    rintro trees ⟨inner, heq, hinner⟩
    obtain rfl := Tree.list.inj heq
    exact hinner
  induction h with
  | assignment _ _ value => exact .assignment value.isExpression
  | elementAssignment _ _ index _ _ value =>
      exact .elementAssignment index.isExpression value.isExpression
  | methodCall _ _ _ _ args => exact .methodCall args.areExpressions
  | declaration _ hparams _ ih =>
      obtain ⟨words, rfl⟩ := hparams.eq_map
      exact .declaration words (hlist ih)
  | keywordDeclaration _ _ hparams _ ih =>
      obtain ⟨words, rfl⟩ := hparams.eq_map
      exact .declaration words (hlist ih)
  | emptyReturn => exact .emptyReturn
  | valueReturn _ value => exact .valueReturn value.isExpression
  | print _ _ value => exact .print value.isExpression
  | «while» _ _ condition _ _ ih => exact .while condition.isExpression (hlist ih)
  | conditional _ ih => exact ih
  | expression inner => exact .expression inner.isExpression
  | ifOnly _ _ condition _ _ ih => exact .ifOnly condition.isExpression (hlist ih)
  | ifElse _ _ condition _ _ _ _ ih ihother =>
      exact .ifElse condition.isExpression (hlist ih) (hlist ihother)
  | elseIf _ _ condition _ _ _ _ ih ihinner =>
      refine .ifElse condition.isExpression (hlist ih) ?_
      intro tree htree
      obtain rfl := List.mem_singleton.mp htree
      exact ihinner
  | empty => exact ⟨[], rfl, by simp [IsProgram]⟩
  | semicolon _ _ ih => exact ih
  | more _ _ _ ihfirst ihrest =>
      refine ⟨_, rfl, ?_⟩
      intro tree htree
      rcases List.mem_cons.mp htree with rfl | htree
      · exact ihfirst
      · exact hlist ihrest tree htree
  | block _ _ _ ih => exact ih

/-- A text that is parsed was scanned first. -/
theorem exists_scan_of_source {text : String} {trees : List Tree}
    (h : Parse.source text = .ok trees) :
    ∃ tokens, Token.scan text = .ok tokens ∧ Parse.ofTokens tokens = .ok trees := by
  unfold Parse.source Parse.tokensOf at h
  cases hscan : Token.scan text with
  | error fault =>
      rw [hscan] at h
      cases h
  | ok tokens =>
      rw [hscan] at h
      change Parse.treesOf tokens = .ok trees at h
      unfold Parse.treesOf at h
      cases hparse : Parse.ofTokens tokens with
      | error fault =>
          rw [hparse] at h
          cases h
      | ok result =>
          rw [hparse] at h
          obtain rfl := Except.ok.inj h
          exact ⟨tokens, rfl, hparse⟩

/-- A text that is parsed gives statements of their shape. -/
theorem isProgram_of_source {text : String} {trees : List Tree}
    (h : Parse.source text = .ok trees) : IsProgram trees := by
  obtain ⟨tokens, hscan, hparse⟩ := exists_scan_of_source h
  obtain ⟨body, closing, rfl, hclosing, hbody⟩ := Token.scan_lexical hscan
  obtain ⟨rest, hprogram⟩ := exists_of_ofTokens hparse
  rw [Cursor.ofTokens_concat hclosing] at hprogram
  obtain ⟨trees, heq, htrees⟩ :=
    States.shapes (derivation_of_program hbody hclosing hprogram)
  obtain rfl := Tree.list.inj heq
  exact htrees

end Sprig.Grammar
