import Sprig.Proofs.Grammar.Shape
import Sprig.Proofs.Token.Plain
import Sprig.Proofs.Tree.Words

/-!
# The words of what the grammar derives

A word inside a tree that some tokens spell is an operator of the language or is the word of one of
the tokens. The tokens of a text have words of one line, so all words of a program that was parsed
stand on one line.
-/

namespace Sprig

/-- What messages show of a scalar stands on one line. -/
def Scalar.IsPlain (a : Scalar) : Prop := Text.IsLine a.shown

instance (a : Scalar) : Decidable a.IsPlain := inferInstanceAs (Decidable (Text.IsLine a.shown))

namespace Grammar

open Sprig.Tree

theorem Form.isLine_operators (form : Form) : ∀ entry ∈ form.operators, Text.IsLine entry.2 := by
  cases form <;> decide

theorem Form.says_node (form : Form) {word : String} {left right : Tree}
    (hword : Scalar.IsPlain (.text word)) (hleft : left.Says Scalar.IsPlain)
    (hright : right.Says Scalar.IsPlain) : (form.node word left right).Says Scalar.IsPlain := by
  have hbinary : (Tree.binary (.text word) left right).Says Scalar.IsPlain :=
    Tree.says_node rfl (by simpa [words] using hword) (by simp [hleft, hright])
  have hcomparison : (Tree.comparison (.text word) left right).Says Scalar.IsPlain :=
    Tree.says_node rfl (by simpa [words] using hword) (by simp [hleft, hright])
  cases form <;> first | exact hcomparison | exact hbinary

/-- A name or word of a token that is no string stands on one line. -/
theorem isPlain_of_is {t : Token} {kind : Token.Kind} {word : String} (ht : t.Is kind word)
    (hplain : t.IsPlain) (hkind : kind ≠ .string) : Scalar.IsPlain (.text word) :=
  hplain.word (ht.1 ▸ hkind) ht.2

theorem isPlain_of_member {t : Token} {word : String} (ht : Member t word) (hplain : t.IsPlain) :
    Scalar.IsPlain (.text word) := by
  rcases ht with ht | ht
  · exact isPlain_of_is ht hplain (by decide)
  · exact isPlain_of_is ht hplain (by decide)

/-- The words of what some tokens spell stand on one line when those of the tokens do. -/
theorem Spells.says_plain {n : Nat} {form : Form} {ts : List Token} {e : Tree}
    (h : Spells n form ts e) (hts : ∀ t ∈ ts, t.IsPlain) : e.Says Scalar.IsPlain := by
  induction h with
  | loosen _ _ _ ih => exact ih hts
  | @join n form ls op rs kind word left right _ hmem _ _ ihfront ihback =>
      have hword : Scalar.IsPlain (.text word) := form.isLine_operators _ hmem
      have hleft := ihfront fun t ht => hts t (by simp [ht])
      have hright := ihback fun t ht => hts t (by simp [ht])
      exact form.says_node hword hleft hright
  | negate _ _ ih =>
      have hword : Scalar.IsPlain (.text "-") := by decide
      have hoperand := ih fun t ht => hts t (by simp [ht])
      exact says_node rfl (by simpa [words] using hword) (by simp [hoperand])
  | raise _ _ _ ihfront ihback =>
      have hword : Scalar.IsPlain (.text "^") := by decide
      have hbase := ihfront fun t ht => hts t (by simp [ht])
      have hexponent := ihback fun t ht => hts t (by simp [ht])
      exact says_node rfl (by simpa [words] using hword) (by simp [hbase, hexponent])
  | parens _ _ _ ih => exact ih fun t ht => hts t (by simp [ht])
  | number => exact says_node rfl (by simp [words]) (by simp)
  | string => exact says_node rfl (by simp [words]) (by simp)
  | yes => exact says_node rfl (by simp [words]) (by simp)
  | no => exact says_node rfl (by simp [words]) (by simp)
  | array _ _ _ ih =>
      have hitems := ih fun t ht => hts t (by simp [ht])
      exact says_node rfl (by simp [words]) (by simpa using hitems)
  | name ht =>
      have hname := isPlain_of_is ht (hts _ (by simp)) (by decide)
      exact says_node rfl (by simpa [words] using hname) (by simp)
  | element ht _ _ _ ih =>
      have hname := isPlain_of_is ht (hts _ (by simp)) (by decide)
      have hindex := ih fun t ht => hts t (by simp [ht])
      exact says_node rfl (by simpa [words] using hname) (by simpa using hindex)
  | length ht _ _ =>
      have hname := isPlain_of_is ht (hts _ (by simp)) (by decide)
      have hlength : Scalar.IsPlain (.text "length") := by decide
      exact says_node rfl (by simpa [words] using ⟨hname, hlength⟩) (by simp)
  | method ht _ hmember _ _ _ ih =>
      have hname := isPlain_of_is ht (hts _ (by simp)) (by decide)
      have hmethod := isPlain_of_member hmember (hts _ (by simp))
      have hargs := ih fun t ht => hts t (by simp [ht])
      exact says_node rfl (by simpa [words] using ⟨hname, hmethod⟩) (by simpa using hargs)
  | call ht _ _ _ ih =>
      have hname := isPlain_of_is ht (hts _ (by simp)) (by decide)
      have hargs := ih fun t ht => hts t (by simp [ht])
      exact says_node rfl (by simpa [words] using hname) (by simpa using hargs)
  | noItems => exact says_list (by simp)
  | lastItem _ ih => exact says_list (by simpa using ih hts)
  | @moreItems n ts comma us e f es _ _ _ ihitem ihrest =>
      have hitem := ihitem fun t ht => hts t (by simp [ht])
      have hrest := ihrest fun t ht => hts t (by simp [ht])
      refine says_list fun inner hinner => ?_
      rcases List.mem_cons.mp hinner with rfl | hinner
      · exact hitem
      · exact hrest.items rfl inner hinner

theorem Parameters.says_plain {ts : List Token} {params : List Tree} (h : Parameters ts params) :
    (list params).Says Scalar.IsPlain := by
  obtain ⟨names, rfl⟩ := h.eq_map
  exact says_list (by simp)

/-- The words of what some tokens state stand on one line when those of the tokens do. -/
theorem States.says_plain {adjoin : Tree → List Token → Token → Prop} {n : Nat} {part : Part}
    {ts : List Token} {tree : Tree} (h : States adjoin n part ts tree)
    (hts : ∀ t ∈ ts, t.IsPlain) : tree.Says Scalar.IsPlain := by
  induction h with
  | assignment _ _ value =>
      have hvalue := value.says_plain fun t ht => hts t (by simp [ht])
      exact says_node rfl (by simp [words]) (by simp [hvalue])
  | elementAssignment ht _ index _ _ value =>
      have hname := isPlain_of_is ht (hts _ (by simp)) (by decide)
      have hindex := index.says_plain fun t ht => hts t (by simp [ht])
      have hvalue := value.says_plain fun t ht => hts t (by simp [ht])
      exact says_node rfl (by simpa [words] using hname) (by simp [hindex, hvalue])
  | methodCall ht _ hmember _ args =>
      have hname := isPlain_of_is ht (hts _ (by simp)) (by decide)
      have hmethod := isPlain_of_member hmember (hts _ (by simp))
      have hargs := args.says_plain fun t ht => hts t (by simp [ht])
      exact says_node rfl (by simpa [words] using ⟨hname, hmethod⟩) (by simpa using hargs)
  | declaration _ hparams _ ih =>
      have hbody := ih fun t ht => hts t (by simp [ht])
      exact says_node rfl (by simp [words]) (by simp [hparams.says_plain, hbody])
  | keywordDeclaration _ _ hparams _ ih =>
      have hbody := ih fun t ht => hts t (by simp [ht])
      exact says_node rfl (by simp [words]) (by simp [hparams.says_plain, hbody])
  | emptyReturn => exact says_node rfl (by simp [words]) (by simp)
  | valueReturn _ value =>
      have hvalue := value.says_plain fun t ht => hts t (by simp [ht])
      exact says_node rfl (by simp [words]) (by simpa using hvalue)
  | print _ _ value =>
      have hvalue := value.says_plain fun t ht => hts t (by simp [ht])
      exact says_node rfl (by simp [words]) (by simpa using hvalue)
  | «while» _ _ condition _ _ ih =>
      have hcondition := condition.says_plain fun t ht => hts t (by simp [ht])
      have hbody := ih fun t ht => hts t (by simp [ht])
      exact says_node rfl (by simp [words]) (by simp [hcondition, hbody])
  | conditional _ ih => exact ih hts
  | expression inner => exact says_node rfl (by simp [words]) (by simpa using inner.says_plain hts)
  | ifOnly _ _ condition _ _ ih =>
      have hcondition := condition.says_plain fun t ht => hts t (by simp [ht])
      have hbody := ih fun t ht => hts t (by simp [ht])
      exact says_node rfl (by simp [words]) (by simp [hcondition, hbody])
  | ifElse _ _ condition _ _ _ _ ih ihother =>
      have hcondition := condition.says_plain fun t ht => hts t (by simp [ht])
      have hbody := ih fun t ht => hts t (by simp [ht])
      have hother := ihother fun t ht => hts t (by simp [ht])
      exact says_node rfl (by simp [words]) (by simp [hcondition, hbody, hother])
  | @elseIf n word left cs right bs other es c body inner _ _ condition _ _ _ _ ih ihinner =>
      have hcondition := condition.says_plain fun t ht => hts t (by simp [ht])
      have hbody := ih fun t ht => hts t (by simp [ht])
      have hinner := ihinner fun t ht => hts t (by simp [ht])
      have hother : (list [inner]).Says Scalar.IsPlain := says_list (by simpa using hinner)
      exact says_node rfl (by simp [words]) (by simp [hcondition, hbody, hother])
  | empty => exact says_list (by simp)
  | semicolon _ _ ih => exact ih fun t ht => hts t (by simp [ht])
  | more _ _ _ ihfirst ihrest =>
      have hfirst := ihfirst fun t ht => hts t (by simp [ht])
      have hrest := ihrest fun t ht => hts t (by simp [ht])
      refine says_list fun inner hinner => ?_
      rcases List.mem_cons.mp hinner with rfl | hinner
      · exact hfirst
      · exact hrest.items rfl inner hinner
  | block _ _ _ ih => exact ih fun t ht => hts t (by simp [ht])

/-- All words of a program that was parsed stand on one line. -/
theorem says_of_source {text : String} {trees : List Tree} (h : Parse.source text = .ok trees) :
    ∀ tree ∈ trees, tree.Says Scalar.IsPlain := by
  obtain ⟨tokens, hscan, hparse⟩ := exists_scan_of_source h
  have hplain := Token.isPlain_of_scan hscan
  obtain ⟨body, closing, rfl, hclosing, hbody⟩ := Token.scan_lexical hscan
  obtain ⟨rest, hprogram⟩ := exists_of_ofTokens hparse
  rw [Cursor.ofTokens_concat hclosing] at hprogram
  have hsays := (derivation_of_program hbody hclosing hprogram).says_plain
    fun t ht => hplain t (List.mem_append_left _ ht)
  exact hsays.items rfl

end Grammar

end Sprig
