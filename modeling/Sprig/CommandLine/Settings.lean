import Sprig.CommandLine.Word
import Sprig.Numeric.Reading

/-!
# Settings from the command line

The words of the command line are used from left to right. The first plain word is the program file,
and every word that finds no use is left over, which is a fault in the end. Short flags can be
written together behind one dash. A divider that is written onto a flag is no value: the flag counts
as given and stays without one.
-/

namespace Sprig.CommandLine

/-- What the command line asks for. -/
structure Settings where
  /-- How often `-v` was given. -/
  verbosity : Nat
  /-- The depth limit, unless it was given without a value. -/
  depth? : Option Int
  /-- The file whose tree is to be written. -/
  emitTree? : Option String
  /-- The file whose tree is to be run. -/
  runTree? : Option String
  /-- The program file. -/
  program? : Option String
deriving DecidableEq, Repr

/-- The settings when nothing is given. -/
def Settings.usual : Settings := ⟨0, some Limits.usualDepth, none, none, none⟩

/-- Why no settings are made. -/
inductive Halt
  | helpAsked
  | misused (misuse : Misuse)
deriving DecidableEq, Repr

/-- What is known after some of the words. -/
structure Progress where
  /-- The settings so far. -/
  settings : Settings
  /-- The flags that were given a value so far. -/
  given : List Flag
  /-- Whether the word before is the program file. -/
  atProgram : Bool
  /-- The words that found no use so far. -/
  leftOver : List String
deriving DecidableEq, Repr

/-- What is known before the first word. -/
def Progress.start : Progress := ⟨.usual, [], false, []⟩

namespace Progress

/-- Leaves a word over. -/
def leave (progress : Progress) (word : String) : Progress :=
  { progress with atProgram := false, leftOver := progress.leftOver ++ [word] }

/-- Uses a plain word. -/
def usePlain (progress : Progress) (word : String) : Progress :=
  match progress.settings.program? with
  | some _ => progress.leave word
  | none =>
    let settings := { progress.settings with program? := some word }
    { progress with settings, atProgram := true }

/-- Uses a flag that takes no value. -/
def useFlag (progress : Progress) (flag : Flag) : Except Halt Progress :=
  match flag with
  | .help => .error .helpAsked
  | .verbose =>
    let settings := { progress.settings with verbosity := progress.settings.verbosity + 1 }
    .ok { progress with settings, atProgram := false }
  | _ => .ok progress

/-- Uses flags that take no value, one after the other. -/
def useFlags (progress : Progress) (flags : List Flag) : Except Halt Progress :=
  flags.foldlM useFlag progress

/-- The settings with the value of a flag; a divider is no value. -/
def withValue (settings : Settings) (flag : Flag) (text : String) : Except Halt Settings :=
  let value? := if text = divider then none else some text
  match flag, value? with
  | .maxDepth, none => .ok { settings with depth? := none }
  | .maxDepth, some value =>
    match Numeric.readInteger? value with
    | some depth => .ok { settings with depth? := some depth }
    | none => .error (.misused (.notAnInteger flag value))
  | .emitTree, value? => .ok { settings with emitTree? := value? }
  | .runTree, value? => .ok { settings with runTree? := value? }
  | .help, _ => .ok settings
  | .verbose, _ => .ok settings

/-- Uses a flag with its value, unless a rival was given before. -/
def useValue (progress : Progress) (flag : Flag) (value : String) : Except Halt Progress := do
  let settings ← withValue progress.settings flag value
  match flag.rival?.filter (· ∈ progress.given) with
  | some other => .error (.misused (.rivals flag other))
  | none =>
    return { progress with settings, given := flag :: progress.given, atProgram := false }

end Progress

/-- The flags without a value that are written together, given the first one and the characters
behind it. -/
def together (flag : Flag) : List Char → Except Halt (List Flag)
  | [] => .ok [flag]
  | c :: cs =>
    match Flag.ofSpelling? (String.ofList ['-', c]) with
    | some next => (together next cs).map (flag :: ·)
    | none => .error (.misused (.valueIgnored flag (String.ofList (c :: cs))))

/-- The flags that a flag without a value stands for together with what is written onto it. Only
short flags can be written onto a short flag. -/
def unfoldFlag (flag : Flag) (long : Bool) (value? : Option String) : Except Halt (List Flag) :=
  match value? with
  | none => .ok [flag]
  | some value =>
    if long ∨ value = "" then .error (.misused (.valueIgnored flag value))
    else together flag value.toList

/-- Uses the words before the divider. -/
def useWords (progress : Progress) : List Word → Except Halt Progress
  | [] => .ok progress
  | .plain text :: words => useWords (progress.usePlain text) words
  | .unknown text :: words => useWords (progress.leave text) words
  | .flag flag long value? :: words =>
    if flag.takesValue then
      match value?, words with
      | some value, words => do useWords (← progress.useValue flag value) words
      | none, .plain value :: words => do useWords (← progress.useValue flag value) words
      | none, _ => .error (.misused (.valueExpected flag))
    else do
      let flags ← unfoldFlag flag long value?
      useWords (← progress.useFlags flags) words

/-- Uses the words behind the divider. The divider itself is of use next to the program file. -/
def useBehind (progress : Progress) (words : List String) : Progress :=
  match progress.settings.program?, progress.atProgram, words with
  | none, _, [] => progress
  | none, _, word :: words => words.foldl Progress.leave (progress.usePlain word)
  | some _, true, words => words.foldl Progress.leave progress
  | some _, false, words => (divider :: words).foldl Progress.leave progress

/-- The settings that a command line makes. -/
def settings (words : List String) : Except Halt Settings := do
  let (words, behind) ← (classifyAll words).mapError .misused
  let used ← useWords .start words
  let progress := (behind.map (useBehind used)).getD used
  if progress.leftOver = [] then return progress.settings
  else .error (.misused (.unrecognized progress.leftOver))

/-- An empty command line makes the usual settings. -/
theorem settings_nil : settings [] = .ok .usual := rfl

/-- What the program is to do. -/
inductive Job
  | emitTree (path : String)
  | runTree (path : String)
  | runSource (path : String)
deriving DecidableEq, Repr

/-- The job that the settings name first; an empty name names none. -/
def Settings.job (settings : Settings) : Except Halt Job :=
  let named (path? : Option String) : Option String := path?.filter (· ≠ "")
  match named settings.emitTree?, named settings.runTree?, named settings.program? with
  | some path, _, _ => .ok (.emitTree path)
  | none, some path, _ => .ok (.runTree path)
  | none, none, some path => .ok (.runSource path)
  | none, none, none => .error (.misused .programMissing)

end Sprig.CommandLine
