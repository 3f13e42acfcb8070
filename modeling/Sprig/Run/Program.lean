import Sprig.Run.Interpreter

/-!
# Running programs

The statements of a program run one after the other, and the value of the last one is the value of
the program. A `return` outside of a function only ends its own statement. What ran before stays in
the state, so a program can go on where another one stopped.
-/

namespace Sprig.Run

/-- The largest depth limit that can be kept. -/
def greatestDepth : Int := (0x7FFFFFFF - 500) / 3

/-- Runs the statements of a program from the first to the last. -/
def statements (fuel : Nat) (trees : List Tree) : Run Value :=
  trees.foldlM (fun _ tree => do
    note 1 (return .executing tree.label)
    return (← execute fuel tree).value) .none

/-- Runs a program, if its depth limit can be kept. -/
def program (fuel : Nat) (trees : List Tree) : Run Value := fun limits s =>
  if greatestDepth < limits.depth then .failed .limitTooLarge s
  else statements fuel trees limits s

/-- More fuel than a machine can spend. -/
def ampleFuel : Nat := Nat.pow 2 62

/-- A program without statements ends with nothing. -/
theorem statements_nil (fuel : Nat) : statements fuel [] = pure .none := rfl

end Sprig.Run
