import Sprig.Run.Basic

/-!
# Sequences of statements and values

The forms in which a run repeats itself: the statements of a block, the rounds of a loop, the
arguments of a call and the parameters that are bound to them. What is repeated is given as a step,
so these forms do not depend on how a single tree is worked on.

A statement ends with a value and tells whether a `return` is under way. While one is, blocks and
loops end at once, and hand it on.

## Implementation notes

Names, operators, methods, properties and the values of literals are scalars. Only a tree made by
hand can have a list or a node in the place of one, and the step that takes the scalar then fails as
misshapen. Where names and values may be anything that can be compared, such a run goes on with the
compound itself: it finds no variable, operator, method or property that is called so, or has the
compound as the value of the literal. These runs are left out.
-/

namespace Sprig

/-- How a statement ends. -/
structure Completion where
  /-- The value of the statement. -/
  value : Value
  /-- Whether a `return` is under way. -/
  returning : Bool
deriving DecidableEq, Repr, Inhabited

namespace Run

/-- The end of a statement that does not return. -/
def plain (v : Value) : Completion := ⟨v, false⟩

/-- Runs statements one after the other up to the first that returns. The end of the last one is the
end of the block; an empty block ends as given. -/
def block (statement : Tree → Run Completion) : Completion → List Tree → Run Completion
  | last, [] => pure last
  | _, tree :: trees => do
    let completion ← statement tree
    if completion.returning then return completion
    else block statement completion trees

/-- Runs a body as long as a test holds and the body does not return. -/
def repeatWhile (test : Run Bool) (body : Run Completion) :
    (fuel : Nat) → Completion → Run Completion
  | 0, _ => spent
  | fuel + 1, last => do
    if ← test then
      let completion ← body
      if completion.returning then return completion
      else repeatWhile test body fuel completion
    else return last

/-- The values of some trees, from left to right. -/
def values (value : Tree → Run Value) : List Tree → Run (List Value)
  | [] => pure []
  | tree :: trees => do
    let first ← value tree
    let rest ← values value trees
    return first :: rest

/-- The scalar that a part of a node is. -/
def scalarPart : Tree → Run Scalar
  | .scalar value => pure value
  | _ => fail .misshapen

/-- The trees that a part of a node holds. -/
def listPart (tree : Tree) : Run (List Tree) :=
  match tree.items? with
  | some items => pure items
  | none => fail .misshapen

/-- The texts that some trees are. -/
def textParts : List Tree → Run (List String)
  | [] => pure []
  | .scalar (.text s) :: trees => do return s :: (← textParts trees)
  | _ :: _ => fail .misshapen

/-- Binds parameters to arguments; a parameter without an argument is bound to nothing. -/
def bindAll : List Tree → List Value → Run Unit
  | [], _ => pure ()
  | param :: params, args => do
    let name ← scalarPart param
    let v := args.headD .none
    assign name v
    note 2 (do return .bound name (← display v))
    bindAll params args.tail

/-- An empty block ends as given. -/
@[simp] theorem block_nil (statement : Tree → Run Completion) (last : Completion) :
    block statement last [] = pure last := rfl

/-- The trees of a list are those it holds. -/
@[simp] theorem listPart_list (items : List Tree) : listPart (.list items) = pure items := rfl

/-- The texts of some trees are there if all of them are texts, and otherwise asking for them
fails. -/
theorem textParts_cases (trees : List Tree) :
    (∃ names : List String, trees = names.map .text ∧ textParts trees = pure names) ∨
      (∀ names : List String, trees ≠ names.map .text) ∧ textParts trees = fail .misshapen := by
  fun_induction textParts trees with
  | case1 => exact .inl ⟨[], rfl, rfl⟩
  | case2 word trees ih =>
      rcases ih with ⟨names, rfl, hnames⟩ | ⟨hne, hfail⟩
      · exact .inl ⟨word :: names, rfl, by rw [hnames]; rfl⟩
      · refine .inr ⟨fun names h => ?_, by rw [hfail]; rfl⟩
        cases names with
        | nil => cases h
        | cons name names => exact hne names (List.cons.inj h).2
  | case3 tree trees htree =>
      refine .inr ⟨fun names h => ?_, rfl⟩
      cases names with
      | nil => cases h
      | cons name names => exact htree name (List.cons.inj h).1

end Run

end Sprig
