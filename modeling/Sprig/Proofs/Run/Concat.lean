import Mathlib
import Sprig.Proofs.Parse.Concat
import Sprig.Proofs.Run.Contract
import Sprig.Run.Program

/-!
# Two texts as one

Two texts with a semicolon between them run as the first one and then, unless that one failed, as
the second one in the state in which the first one stopped. Where the second text is no program, the
whole is none, and the fault is the same.
-/

namespace Sprig.Run

/-- Only the value is left of the statements in front of another one. -/
theorem statements_append (fuel : Nat) (trees others : List Tree) :
    statements fuel (trees ++ others) = (do
      let v ← statements fuel trees
      let w ← statements fuel others
      return if others.isEmpty then v else w) := by
  simp only [statements, List.foldlM_append]
  refine bind_congr fun v => ?_
  cases others with
  | nil => simp
  | cons tree others => simp

/-- The statements of a program run as those of two programs, the second one in the state in which
the first one stopped. -/
theorem program_append (fuel : Nat) (trees others : List Tree) :
    program fuel (trees ++ others) = (do
      let v ← program fuel trees
      let w ← program fuel others
      return if others.isEmpty then v else w) := by
  funext limits s
  by_cases hlimit : greatestDepth < limits.depth
  · rw [program, if_pos hlimit, bind_apply, program, if_pos hlimit]
  · have hprogram : ∀ trees s, program fuel trees limits s = statements fuel trees limits s :=
      fun trees s => by rw [program, if_neg hlimit]
    rw [hprogram, statements_append]
    simp only [bind_apply, hprogram]

/-- A text that is a program, a semicolon and any text behind it are the program of the first text
and then that of the other one, unless the other one is no program. Then the whole is none for the
same reason, at the same place of the other text. The whole runs as the first program and then, if
that one is done, as the other one where it stopped. -/
theorem source_concat {a : String} {trees : List Tree} (h : Parse.source a = .ok trees)
    (b : String) :
    (Parse.source (a ++ ";" ++ b) = match Parse.source b with
      | .ok others => .ok (trees ++ others)
      | .error fault => .error (fault.within (Text.Position.start.after (a ++ ";").toList))) ∧
    ∀ whole others, Parse.source (a ++ ";" ++ b) = .ok whole → Parse.source b = .ok others →
      ∀ fuel, program fuel whole = (do
        let v ← program fuel trees
        let w ← program fuel others
        return if others.isEmpty then v else w) := by
  have hparse := Parse.source_semicolon h (b := b)
  refine ⟨hparse, fun whole others hwhole hother fuel => ?_⟩
  rw [hparse, hother] at hwhole
  obtain rfl := Except.ok.inj hwhole
  exact program_append fuel trees others

theorem source_concat_of_open_return :
    let first : List Tree := [
      .functionDeclaration (.text "f") (.list [.text "x"])
        (.list [.returnStatement (.variable (.text "x"))]),
      .returnStatement .none]
    let second : List Tree := [.assignment (.text "y")
      (.call (.text "f") (.list [.boolean (.scalar (.boolean true))]))]
    Parse.source "f(x) { return x } return" = .ok first ∧
      Parse.source ("f(x) { return x } return" ++ ";" ++ "y = f(true)") = .ok (first ++ second) ∧
      (∀ fuel, program fuel (first ++ second) = (do
        let _ ← program fuel first
        program fuel second)) ∧
      Parse.source ("f(x) { return x } return" ++ ";" ++ "y = f(") = .error (.malformed
        ⟨.expected (.phrase "an expression"), ⟨.finish, .absent, ⟨1, 32⟩⟩⟩) := by
  intro first second
  have hfirst : Parse.source "f(x) { return x } return" = .ok first := by cbv
  have hsecond : Parse.source "y = f(true)" = .ok second := by cbv
  have hopen : Parse.source "y = f(" = .error (.malformed
      ⟨.expected (.phrase "an expression"), ⟨.finish, .absent, ⟨1, 7⟩⟩⟩) := by cbv
  have hfault := (source_concat hfirst "y = f(").1
  obtain ⟨hwhole, hrun⟩ := source_concat hfirst "y = f(true)"
  rw [hsecond] at hwhole
  rw [hopen] at hfault
  refine ⟨hfirst, hwhole, fun fuel => ?_, hfault⟩
  simpa [second] using hrun _ second hwhole hsecond fuel

end Sprig.Run
