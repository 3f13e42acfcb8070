import Sprig.CommandLine.Report

/-!
# The program

The program looks at the files that its command line names, and then does what the report says.
-/

namespace Sprig.CommandLine

/-- What stands at a path of the file system. A directory is opened without a fault and cannot be
read; a path that leads through a file cannot even be opened. -/
def entryAt (path : String) : IO Entry := do
  try
    return .file (← IO.FS.readBinFile path).toList
  catch
    | .noFileOrDirectory _ _ _ => return .absent
    | .inappropriateType (some _) _ _ => return .absent
    | .inappropriateType none _ _ => return .directory
    | fault => throw fault

/-- The entries at some paths; nothing else is there. -/
def entriesAt (paths : List String) : IO (String → Entry) := do
  let found ← paths.mapM fun path => return (path, ← entryAt path)
  return fun path => (found.lookup path).getD .absent

/-- Does what a report says, and tells the status to exit with. -/
def perform (report : Report) : IO UInt32 := do
  for (path, text) in report.written do
    IO.FS.writeFile path text
  IO.print report.output
  IO.eprint report.complaint
  match report.ending with
  | .exit status => return status.toUInt32
  | .escaped escape =>
    IO.eprintln escape.message
    return 1
  | .outOfFuel => return 1

end Sprig.CommandLine

/-- Runs the command line. -/
def main (words : List String) : IO UInt32 := do
  let entries ← Sprig.CommandLine.entriesAt (Sprig.CommandLine.pathsOf words)
  Sprig.CommandLine.perform (Sprig.CommandLine.report Sprig.Run.ampleFuel entries words)
