import Sprig.Run.Basic

/-!
# The flags of the command line

Each flag has one or two spellings and may take a value. Here too are the usage line and the help
page, which lay the flags out for a terminal of eighty columns.
-/

namespace Sprig.CommandLine

/-- A flag. -/
inductive Flag
  | help
  | verbose
  | maxDepth
  | emitTree
  | runTree
deriving DecidableEq, Repr

namespace Flag

/-- The spellings of a flag. -/
def spellings : Flag → List String
  | help => ["-h", "--help"]
  | verbose => ["-v"]
  | maxDepth => ["--max-depth"]
  | emitTree => ["--emit-ast"]
  | runTree => ["--ast"]

/-- The name of a flag in messages. -/
def title (flag : Flag) : String := String.intercalate "/" flag.spellings

/-- Whether a flag takes a value. -/
def takesValue : Flag → Bool
  | help => false
  | verbose => false
  | maxDepth => true
  | emitTree => true
  | runTree => true

/-- All spellings with their flags, in the order in which they are listed. -/
def all : List (String × Flag) :=
  [help, verbose, maxDepth, emitTree, runTree].flatMap fun flag =>
    flag.spellings.map fun spelling => (spelling, flag)

/-- The flag with a spelling. -/
def ofSpelling? (spelling : String) : Option Flag := all.lookup spelling

/-- A flag that must not be given together with this one. -/
def rival? : Flag → Option Flag
  | emitTree => some runTree
  | runTree => some emitTree
  | _ => none

/-- Every spelling belongs to its flag alone. -/
theorem ofSpelling?_of_mem : ∀ entry ∈ all, ofSpelling? entry.1 = some entry.2 := by decide

end Flag

/-- The name of the program. -/
def programName : String := "sprig"

/-- How the program is called. -/
def usage : String :=
  "usage: sprig [-h] [-v] [--max-depth MAX_DEPTH]\n" ++
  "             [--emit-ast SPRIG_FILE | --ast AST_JSON_FILE]\n" ++
  "             [program]\n"

/-- What the program and its flags do. -/
def helpPage : String :=
  usage ++
  "\nSprig language interpreter\n" ++
  "\npositional arguments:\n" ++
  "  program               Sprig program file (.sprig) to execute\n" ++
  "\noptions:\n" ++
  "  -h, --help            show this help message and exit\n" ++
  "  -v                    increase debug verbosity (can be repeated)\n" ++
  "  --max-depth MAX_DEPTH\n" ++
  "                        maximum evaluation depth (default: " ++
  Numeric.integerText Limits.usualDepth ++ ")\n" ++
  "  --emit-ast SPRIG_FILE\n" ++
  "                        emit AST JSON for the given .sprig file\n" ++
  "  --ast AST_JSON_FILE   execute AST from a JSON file\n"

end Sprig.CommandLine
