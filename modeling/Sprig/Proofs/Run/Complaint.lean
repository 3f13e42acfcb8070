import Sprig.Proofs.Grammar.Words
import Sprig.Proofs.Run.Mention

/-!
# What is said about runs that fail

A program that was parsed fails with a fault of the language, and the fault is told on one line. The
rest of the message is made of fixed words, kinds and numbers; the names in it are words of the
program.
-/

namespace Sprig

namespace Fault

theorem isLine_word (category : Category) : Text.IsLine category.word := by
  cases category <;> decide

@[simp] theorem isLine_kindName (kind : Value.Kind) : Text.IsLine kind.name := by
  cases kind <;> decide

@[simp] theorem isLine_nodeLabel (kind : NodeKind) : Text.IsLine kind.label := by
  cases kind <;> decide

/-- What went wrong is told on one line when the names that are told stand on one. -/
theorem isLine_description {fault : Fault} {category : Category}
    (hcategory : fault.category? = some category) (h : ∀ name ∈ fault.names, name.IsPlain) :
    Text.IsLine fault.description := by
  have hname {name : Scalar} (hmem : name ∈ fault.names) : Text.IsLine name.shown := h name hmem
  unfold description
  cases fault with
  | undefinedVariable name | undefinedFunction name | unknownMethod name | unknownProperty name =>
      exact Text.isLine_append.mpr ⟨by decide, hname (by simp [names])⟩
  | notAnArray name => exact Text.isLine_append.mpr ⟨hname (by simp [names]), by decide⟩
  | negationOf kind | indexOf kind => exact Text.isLine_append.mpr ⟨by decide, isLine_kindName kind⟩
  | operandsOf operator left right | comparisonOf operator left right =>
      have hoperator : Text.IsLine operator.shown := hname (by simp [names])
      simp only [Text.isLine_append, hoperator, isLine_kindName, and_true]
      decide
  | indexOutOfBounds index => exact Text.isLine_append.mpr ⟨by decide, Numeric.isLine_displayText _⟩
  | unknownOperator use operator =>
      have hoperator : Text.IsLine operator.shown := hname (by simp [names])
      simp only [Text.isLine_append, hoperator, and_true]
      cases use <;> decide
  | depthExceeded limit kind =>
      simp only [Text.isLine_append, Numeric.isLine_integerText, isLine_nodeLabel, and_true]
      decide
  | divisionByZero | textTooDeep => decide
  | unexpectedTree | misshapen | limitTooLarge => cases hcategory

theorem isLine_message {fault : Fault} {category : Category}
    (hcategory : fault.category? = some category) (h : ∀ name ∈ fault.names, name.IsPlain) :
    Text.IsLine fault.message := by
  unfold message
  rw [hcategory]
  simp only [Text.isLine_append, isLine_word, isLine_description hcategory h, and_true, true_and]
  decide

end Fault

namespace Run

/-- A program that was parsed only fails with a fault of the language, told on one line. -/
theorem complaint_of_source {text : String} {trees : List Tree} {fuel : Nat} {limits : Limits}
    {fault : Fault} {after : State} (hsource : Parse.source text = .ok trees)
    (hlimit : limits.depth ≤ greatestDepth)
    (hfailed : program fuel trees limits .start = .failed fault after) :
    (∃ category, fault.category? = some category) ∧ Text.IsLine fault.message := by
  have hrun := meets_program fuel (Grammar.isProgram_of_source hsource) hlimit
    State.wellFormed_start
  rw [hfailed] at hrun
  obtain ⟨⟨category, -, hcategory⟩, -⟩ := hrun
  have hnames := names_of_program (Grammar.says_of_source hsource) hfailed
  exact ⟨⟨category, hcategory⟩, Fault.isLine_message hcategory hnames⟩

end Run

end Sprig
