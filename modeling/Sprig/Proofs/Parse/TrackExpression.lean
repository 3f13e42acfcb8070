import Sprig.Proofs.Parse.Track

/-!
# Expressions on two cursors

The parsers of expressions go the same way on two cursors that correspond, whatever nesting each of
the two runs allows.
-/

namespace Sprig.Parse

variable {T : Correspondence} {n m : Nat}

section Operators

variable {s t : Token}

theorem comparesValues_eq (h : Alike s t) : comparesValues s = comparesValues t := by
  rw [comparesValues, comparesValues, h.1, h.2]

theorem addsValues_eq (h : Alike s t) : addsValues s = addsValues t := by
  rw [addsValues, addsValues, h.1, h.2]

theorem multipliesValues_eq (h : Alike s t) : multipliesValues s = multipliesValues t := by
  rw [multipliesValues, multipliesValues, h.1, h.2]

theorem kind_ne_of_compares (h : comparesValues t = true) : t.kind ≠ .finish := by
  intro hkind
  simp [comparesValues, hkind] at h

theorem kind_ne_of_adds (h : addsValues t = true) : t.kind ≠ .finish := by
  intro hkind
  simp [addsValues, hkind] at h

theorem kind_ne_of_multiplies (h : multipliesValues t = true) : t.kind ≠ .finish := by
  intro hkind
  simp [multipliesValues, hkind] at h

end Operators

/-- The parsers of expressions go the same way with some frames as with some others. -/
structure TracksExpressions (T : Correspondence) (n m : Nat) : Prop where
  expression : Tracks T Eq (expression n) (expression m)
  comparison : Tracks T Eq (comparison n) (comparison m)
  additive : Tracks T Eq (additive n) (additive m)
  multiplicative : Tracks T Eq (multiplicative n) (multiplicative m)
  unary : Tracks T Eq (unary n) (unary m)
  exponent : Tracks T Eq (exponent n) (exponent m)
  primary : Tracks T Eq (primary n) (primary m)
  arrayLiteral : Tracks T Eq (arrayLiteral n) (arrayLiteral m)
  identifierExpression : Tracks T Eq (identifierExpression n) (identifierExpression m)
  arguments : ∀ words, Tracks T Eq (arguments n words) (arguments m words)

namespace TracksExpressions

theorem primary_succ (h : TracksExpressions T n m) :
    Tracks T Eq (Parse.primary (n + 1)) (Parse.primary (m + 1)) := by
  simp only [Parse.primary]
  refine tracks_token tracks_current fun {s t} hkind hliteral => ?_
  rw [← hkind, ← hliteral]
  split
  · refine tracks_token tracks_advance fun _ _ => tracks_then h.expression fun inner => ?_
    exact tracks_token (tracks_expectAs _ _) fun _ _ => tracks_pure rfl
  · exact tracks_token tracks_advance fun _ _ => tracks_pure rfl
  · exact tracks_token tracks_advance fun _ _ => tracks_pure rfl
  · refine tracks_ite ?_ (tracks_ite ?_ (tracks_refuse _))
    · exact tracks_token tracks_advance fun _ _ => tracks_pure rfl
    · exact tracks_token tracks_advance fun _ _ => tracks_pure rfl
  · exact h.arrayLiteral
  · exact h.identifierExpression
  · exact tracks_refuse _

theorem identifierExpression_succ (h : TracksExpressions T n m) :
    Tracks T Eq (Parse.identifierExpression (n + 1)) (Parse.identifierExpression (m + 1)) := by
  simp only [Parse.identifierExpression]
  refine tracks_token (tracks_expectKind _) fun {name name'} _ hname => ?_
  refine tracks_token tracks_current fun {s t} hkind _ => ?_
  rw [← hname, ← hkind]
  split
  · refine tracks_token tracks_advance fun _ _ => tracks_then h.expression fun index => ?_
    exact tracks_token (tracks_expectAs _ _) fun _ _ => tracks_pure rfl
  · refine tracks_token tracks_advance fun _ _ => ?_
    refine tracks_token tracks_current fun {member member'} hkind hliteral => ?_
    rw [← hkind, ← hliteral]
    refine tracks_ite ?_ (tracks_refuse _)
    refine tracks_token tracks_advance fun _ _ => tracks_then (tracks_isAt _) fun called => ?_
    refine tracks_ite (tracks_pure rfl) (tracks_then (h.arguments _) fun args => tracks_pure rfl)
  · exact tracks_then (h.arguments _) fun args => tracks_pure rfl
  · exact tracks_pure rfl

/-- With one more frame in each of the two runs they go the same way again. -/
theorem succ (h : TracksExpressions T n m) : TracksExpressions T (n + 1) (m + 1) where
  expression := by simpa only [Parse.expression] using h.comparison
  comparison := by
    simp only [Parse.comparison]
    exact tracks_leftGrouped h.additive comparesValues_eq kind_ne_of_compares
  additive := by
    simp only [Parse.additive]
    exact tracks_leftGrouped h.multiplicative addsValues_eq kind_ne_of_adds
  multiplicative := by
    simp only [Parse.multiplicative]
    exact tracks_leftGrouped h.unary multipliesValues_eq kind_ne_of_multiplies
  unary := by
    simp only [Parse.unary]
    refine tracks_then (tracks_isAtWord _ _) fun minus => tracks_ite ?_ h.exponent
    refine tracks_token tracks_advance fun _ _ => ?_
    exact tracks_then h.unary fun operand => tracks_pure rfl
  exponent := by
    simp only [Parse.exponent]
    refine tracks_then h.primary fun base => ?_
    refine tracks_then (tracks_isAt _) fun raised => tracks_ite ?_ (tracks_pure rfl)
    refine tracks_token tracks_advance fun _ _ => ?_
    exact tracks_then h.unary fun right => tracks_pure rfl
  primary := h.primary_succ
  arrayLiteral := by
    simp only [Parse.arrayLiteral]
    refine tracks_token (tracks_expectKind _) fun _ _ => ?_
    refine tracks_then (tracks_itemsUntil h.expression _) fun items => ?_
    exact tracks_token (tracks_expectAs _ _) fun _ _ => tracks_pure rfl
  identifierExpression := h.identifierExpression_succ
  arguments words := by
    simp only [Parse.arguments]
    refine tracks_token (tracks_expectAs _ _) fun _ _ => ?_
    refine tracks_then (tracks_itemsUntil h.expression _) fun items => ?_
    exact tracks_token (tracks_expectAs _ _) fun _ _ => tracks_pure rfl

end TracksExpressions

/-- The parsers of expressions step ahead only. -/
theorem forward_expression (n : Nat) : Forward (expression n) :=
  fun _ hK => ((Invariant.of_advance hK).expressions n).expression

theorem forward_additive (n : Nat) : Forward (additive n) :=
  fun _ hK => ((Invariant.of_advance hK).expressions n).additive

theorem forward_multiplicative (n : Nat) : Forward (multiplicative n) :=
  fun _ hK => ((Invariant.of_advance hK).expressions n).multiplicative

theorem forward_unary (n : Nat) : Forward (unary n) :=
  fun _ hK => ((Invariant.of_advance hK).expressions n).unary

theorem forward_arguments (n : Nat) (words : String) : Forward (arguments n words) := by
  intro K hK
  have harguments := ((Invariant.of_advance hK).expressions n).arguments words trivial
  exact harguments.mono fun _ _ => trivial

theorem tracks_expressions_refl (n : Nat) : TracksExpressions T n n := by
  induction n with
  | zero => constructor <;> simp [tracks_tooDeep]
  | succ n ih => exact ih.succ

/-- The parsers of expressions go the same way with the same frames, and with any frames if the runs
may differ in where they give up. -/
theorem tracks_expressions (h : n = m ∨ T.loose) : TracksExpressions T n m := by
  rcases h with rfl | hloose
  · exact tracks_expressions_refl n
  induction n generalizing m with
  | zero => constructor <;> simp [tracks_of_tooDeep hloose]
  | succ n ih =>
      cases m with
      | succ m => exact ih.succ
      | zero =>
          have hrefl := tracks_expressions_refl (T := T) (n + 1)
          refine ⟨?_, ?_, ?_, ?_, ?_, ?_, ?_, ?_, ?_, fun words => ?_⟩
          · rw [expression_zero]
            exact tracks_of_otherTooDeep hloose hrefl.expression.forward
          · rw [comparison_zero]
            exact tracks_of_otherTooDeep hloose hrefl.comparison.forward
          · rw [additive_zero]
            exact tracks_of_otherTooDeep hloose hrefl.additive.forward
          · rw [multiplicative_zero]
            exact tracks_of_otherTooDeep hloose hrefl.multiplicative.forward
          · rw [unary_zero]
            exact tracks_of_otherTooDeep hloose hrefl.unary.forward
          · rw [exponent_zero]
            exact tracks_of_otherTooDeep hloose hrefl.exponent.forward
          · rw [primary_zero]
            exact tracks_of_otherTooDeep hloose hrefl.primary.forward
          · rw [arrayLiteral_zero]
            exact tracks_of_otherTooDeep hloose hrefl.arrayLiteral.forward
          · rw [identifierExpression_zero]
            exact tracks_of_otherTooDeep hloose hrefl.identifierExpression.forward
          · rw [arguments_zero]
            exact tracks_of_otherTooDeep hloose (hrefl.arguments words).forward

end Sprig.Parse
