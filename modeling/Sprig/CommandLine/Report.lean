import Sprig.CommandLine.Path
import Sprig.CommandLine.Settings
import Sprig.Json.Printer
import Sprig.Json.Reader
import Sprig.Parse.Program
import Sprig.Run.Program
import Sprig.Text.Utf8
import Sprig.Tree.Document

/-!
# What the command line does

`report` tells the whole effect of a command line on given files: how it ends, what it says on both
outputs, and which files it writes. A run reads its one input file before it writes any file.
-/

namespace Sprig.CommandLine

/-- What stands at a path. -/
inductive Entry
  | absent
  | directory
  | file (bytes : List UInt8)
deriving DecidableEq, Repr

/-- A fault that is not told to the user in a message of its own. -/
inductive Escape
  | directoryOpened (path : String)
  | undecodable (fault : Text.ByteFault)
  | document (fault : Tree.DocumentFault)
  | depthMissing
  | run (fault : Fault)
deriving DecidableEq, Repr

/-- A fault without a message of its own, in words. -/
def Escape.message : Escape → String
  | .directoryOpened path => "is a directory: " ++ Text.quoted path
  | .undecodable fault => fault.message
  | .document fault => fault.message
  | .depthMissing => "the depth limit has no value"
  | .run fault => fault.message

/-- How a command line ends. -/
inductive Ending
  | exit (status : Nat)
  | escaped (escape : Escape)
  | outOfFuel
deriving DecidableEq, Repr

/-- The effect of a command line. -/
structure Report where
  /-- How it ends. -/
  ending : Ending
  /-- What it says. -/
  output : String
  /-- What it complains about. -/
  complaint : String
  /-- The files it writes, with their texts. -/
  written : List (String × String)
deriving DecidableEq, Repr

/-- The end after a complaint, with nothing else said or written. -/
def refusal (status : Nat) (complaint : String) : Report := ⟨.exit status, "", complaint, []⟩

/-- The end by a fault without a message, with nothing said or written. -/
def escape (e : Escape) : Report := ⟨.escaped e, "", "", []⟩

/-- The text of the file at a path. -/
def fileText (entries : String → Entry) (path : String) : Except Report String :=
  match entries (shownPath path) with
  | .absent => .error (refusal 1 ("Error: file " ++ shownPath path ++ " not found\n"))
  | .directory => .error (escape (.directoryOpened (shownPath path)))
  | .file bytes =>
    match Text.decode bytes with
    | .ok text => .ok (Text.withLineFeeds text)
    | .error fault => .error (escape (.undecodable fault))

/-- The program that a text spells. -/
def sourceProgram (text : String) : Except Report (List Tree) :=
  (Parse.source text).mapError fun fault =>
    refusal 1 ("Syntax error: " ++ fault.message ++ "\n")

/-- The end after a file that holds no program. -/
def invalidTree (message : String) : Report :=
  refusal 1 ("Error: invalid AST file: " ++ message ++ "\n")

/-- The program that a document spells. -/
def documentProgram (text : String) : Except Report (List Tree) :=
  match Json.parse text with
  | .error fault => .error (invalidTree fault.message)
  | .ok value =>
    match Tree.decodeProgram value with
    | .ok trees => .ok trees
    | .error .integerTooLarge => .error (escape (.document .integerTooLarge))
    | .error fault => .error (invalidTree fault.message)

/-- The trace of a run as a file, if the run is traced. -/
def traceFile (traced : Bool) (events : List Event) : List (String × String) :=
  if traced then [(tracePath, Event.lines events)] else []

/-- What is told at the end of a run. -/
def runReport (traced : Bool) (outcome : Outcome Value) : Report :=
  let after := outcome.after
  let output := String.join after.printed.toList
  let written := traceFile traced after.trace.toList
  match outcome with
  | .done _ _ => ⟨.exit 0, output, "", written⟩
  | .failed fault _ =>
    match fault.category? with
    | some _ => ⟨.exit 1, output, "Runtime error: " ++ fault.message ++ "\n", written⟩
    | none => ⟨.escaped (.run fault), output, "", written⟩
  | .outOfFuel _ => ⟨.outOfFuel, output, "", written⟩

/-- Runs a program under the settings. -/
def runProgram (fuel : Nat) (entries : String → Entry) (settings : Settings) (trees : List Tree) :
    Report :=
  let traced := 0 < settings.verbosity
  if traced ∧ entries tracePath = .directory then escape (.directoryOpened tracePath)
  else
    match settings.depth? with
    | some depth => runReport traced (Run.program fuel trees ⟨depth, settings.verbosity⟩ .start)
    | none => ⟨.escaped .depthMissing, "", "", traceFile traced []⟩

/-- Writes the tree of a program into a file of its own. -/
def writeTree (entries : String → Entry) (path : String) (trees : List Tree) : Report :=
  let target := treePath path
  if entries target = .directory then escape (.directoryOpened target)
  else ⟨.exit 0, target ++ "\n", "", [(target, (Tree.encodeProgram trees).indented)]⟩

/-- What a job does. -/
def jobReport (fuel : Nat) (entries : String → Entry) (settings : Settings) :
    Job → Except Report Report
  | .emitTree path => do
    let trees ← sourceProgram (← fileText entries path)
    return writeTree entries path trees
  | .runTree path => do
    let trees ← documentProgram (← fileText entries path)
    return runProgram fuel entries settings trees
  | .runSource path => do
    let trees ← sourceProgram (← fileText entries path)
    return runProgram fuel entries settings trees

/-- What is told when no settings are made. -/
def haltReport : Halt → Report
  | .helpAsked => ⟨.exit 0, helpPage, "", []⟩
  | .misused misuse => refusal 2 (usage ++ programName ++ ": error: " ++ misuse.message ++ "\n")

/-- The effect of a command line. -/
def report (fuel : Nat) (entries : String → Entry) (words : List String) : Report :=
  match settings words with
  | .error halt => haltReport halt
  | .ok settings =>
    match settings.job with
    | .error halt => haltReport halt
    | .ok job =>
      match jobReport fuel entries settings job with
      | .ok report => report
      | .error report => report

/-- The paths that a command line may look at. -/
def pathsOf (words : List String) : List String :=
  match (settings words).bind Settings.job with
  | .error _ => []
  | .ok (.emitTree path) => [shownPath path, treePath path]
  | .ok (.runTree path) => [shownPath path, tracePath]
  | .ok (.runSource path) => [shownPath path, tracePath]

end Sprig.CommandLine
