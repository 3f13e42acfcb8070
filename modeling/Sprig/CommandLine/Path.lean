/-!
# Paths

A path is shown without empty parts and without parts that stand for the place itself. A part that
leads one level up stays, since where it leads depends on the files. Exactly two slashes at the
front stay two; one slash, or more than two, become one.
-/

namespace Sprig.CommandLine

/-- The slashes that a path starts with when it is shown. -/
def root (cs : List Char) : List Char :=
  match (cs.takeWhile (· = '/')).length with
  | 0 => []
  | 2 => ['/', '/']
  | _ => ['/']

/-- The parts of a path that say something. -/
def parts (path : String) : List String :=
  ((path.toList.splitOn '/').map String.ofList).filter fun part => part ≠ "" ∧ part ≠ "."

/-- A path as it is shown. -/
def shownPath (path : String) : String :=
  let text := String.ofList (root path.toList) ++ String.intercalate "/" (parts path)
  if text = "" then "." else text

/-- The path of the file that holds the tree of a program. -/
def treePath (path : String) : String := shownPath path ++ ".ast.json"

/-- The path of the file that holds the trace of a run. -/
def tracePath : String := "debug.txt"

end Sprig.CommandLine
