import Sprig.Proofs.CommandLine.Emission
import Sprig.Proofs.Parse.Complaint
import Sprig.Proofs.Run.Complaint

/-!
# What a command line can do

A command line that names a program file either is done in silence, or ends with status 1 and one
line of complaint. The line tells what is wrong about the text, and then nothing else happened; or
it tells why the run failed, and then everything that was printed before is kept. No file is written
but the trace, and the tree when it is asked for.
-/

namespace Sprig.CommandLine

/-- The end without a complaint. -/
structure Report.IsSilent (told : Report) : Prop where
  ending : told.ending = .exit 0
  complaint : told.complaint = ""

/-- The end with status 1 and one line of complaint. -/
structure Report.Complains (told : Report) (line : String) : Prop where
  ending : told.ending = .exit 1
  complaint : told.complaint = line ++ "\n"
  isLine : Text.IsLine line

/-- A complaint of one line has one end of a line. -/
theorem Report.Complains.count_lineFeed {told : Report} {line : String} (h : told.Complains line) :
    told.complaint.toList.count '\n' = 1 := by
  have hline : line.toList.count '\n' = 0 :=
    List.count_eq_zero_of_not_mem h.isLine.lineFeed_notMem
  rw [h.complaint, String.toList_append, List.count_append, hline]
  rfl

/-- The end of a run as it is told: in silence when the run is done, and with a line about the
fault when it failed. -/
def Report.TellsEnd (told : Report) : Outcome Value → Prop
  | .done _ _ => told.IsSilent
  | .failed fault _ => told.Complains ("Runtime error: " ++ fault.message)
  | .outOfFuel _ => told.ending = .outOfFuel

section Refusals

variable {text : String} {fault : SourceFault}

/-- What is told about a text that is no program. -/
def syntaxRefusal (fault : SourceFault) : Report :=
  refusal 1 ("Syntax error: " ++ fault.message ++ "\n")

theorem sourceProgram_of_error (h : Parse.source text = .error fault) :
    sourceProgram text = .error (syntaxRefusal fault) := by
  rw [sourceProgram, h]
  rfl

theorem complains_syntaxRefusal (h : Parse.source text = .error fault) :
    (syntaxRefusal fault).Complains ("Syntax error: " ++ fault.message) where
  ending := rfl
  complaint := rfl
  isLine := Text.isLine_append.mpr ⟨by decide, Parse.isLine_message_of_source h⟩

end Refusals

section Runs

variable {entries : String → Entry} {trees : List Tree} {asked : Settings} {depth : Int}

theorem of_mem_traceFile {traced : Bool} {events : List Event} {file : String × String}
    (h : file ∈ traceFile traced events) : file.1 = tracePath ∧ traced = true := by
  unfold traceFile at h
  split at h
  · next htraced =>
    obtain rfl := List.mem_singleton.mp h
    exact ⟨rfl, htraced⟩
  · cases h

theorem runReport_output (traced : Bool) (outcome : Outcome Value) :
    (runReport traced outcome).output = String.join outcome.after.printed.toList := by
  cases outcome with
  | failed fault after =>
      unfold runReport
      dsimp only
      split <;> rfl
  | _ => rfl

theorem runReport_written (traced : Bool) (outcome : Outcome Value) :
    (runReport traced outcome).written = traceFile traced outcome.after.trace.toList := by
  cases outcome with
  | failed fault after =>
      unfold runReport
      dsimp only
      split <;> rfl
  | _ => rfl

/-- A fault of the language is told in a line of its own. -/
theorem complains_runReport {fault : Fault} {category : Fault.Category} (traced : Bool)
    (after : State) (hcategory : fault.category? = some category)
    (hline : Text.IsLine fault.message) :
    (runReport traced (.failed fault after)).Complains ("Runtime error: " ++ fault.message) := by
  unfold runReport
  dsimp only
  rw [hcategory]
  exact ⟨rfl, rfl, Text.isLine_append.mpr ⟨by decide, hline⟩⟩

/-- The end of the run of a program that was parsed is told. -/
theorem tellsEnd_runReport {text : String} {limits : Limits} (fuel : Nat) (traced : Bool)
    (hsource : Parse.source text = .ok trees) (hlimit : limits.depth ≤ Run.greatestDepth) :
    (runReport traced (Run.program fuel trees limits .start)).TellsEnd
      (Run.program fuel trees limits .start) := by
  cases houtcome : Run.program fuel trees limits .start with
  | done v after => exact ⟨rfl, rfl⟩
  | failed fault after =>
      obtain ⟨⟨category, hcategory⟩, hline⟩ := Run.complaint_of_source hsource hlimit houtcome
      exact complains_runReport traced after hcategory hline
  | outOfFuel after => rfl

/-- When the file of the trace can be written, a command line that runs a program tells the end of
the run. -/
theorem runProgram_eq (fuel : Nat) (hdepth : asked.depth? = some depth)
    (htrace : entries tracePath ≠ .directory) :
    runProgram fuel entries asked trees = runReport (decide (0 < asked.verbosity))
      (Run.program fuel trees ⟨depth, asked.verbosity⟩ .start) := by
  unfold runProgram
  dsimp only
  rw [if_neg fun h => htrace h.2, hdepth]

end Runs

section Containment

variable {entries : String → Entry} {words : List String} {asked : Settings}
variable {path raw : String} {bytes : List UInt8} {depth : Int}

/-- Command lines on a program file are contained. If the text is no program, a run and a request
for the tree both tell so in one line and do nothing else. If it is one, the run says what the
program printed. It is done in silence when the program is, and else ends with one line about the
fault of the program; no other fault ends it. It writes no file but the trace, and that only when
it is traced. A request for the tree writes no file but the tree. -/
theorem runs_are_contained (fuel : Nat) (hasked : settings words = .ok asked)
    (hjob : asked.job = .ok (.runSource path)) (hdepth : asked.depth? = some depth)
    (hlimit : depth ≤ Run.greatestDepth) (hfile : entries (shownPath path) = .file bytes)
    (htext : Text.decode bytes = .ok raw) (htrace : entries tracePath ≠ .directory)
    (htree : entries (treePath path) ≠ .directory) :
    let told := report fuel entries words
    (∀ fault, Parse.source (Text.withLineFeeds raw) = .error fault →
      told.Complains ("Syntax error: " ++ fault.message) ∧ told.output = "" ∧ told.written = [] ∧
      ∀ emission other, settings emission = .ok other → other.job = .ok (.emitTree path) →
        report fuel entries emission = told) ∧
    ∀ trees, Parse.source (Text.withLineFeeds raw) = .ok trees →
      let outcome := Run.program fuel trees ⟨depth, asked.verbosity⟩ .start
      told.output = String.join outcome.after.printed.toList ∧
      told.TellsEnd outcome ∧
      (∀ file ∈ told.written, file.1 = tracePath ∧ 0 < asked.verbosity) ∧
      ∀ emission other, settings emission = .ok other → other.job = .ok (.emitTree path) →
        (report fuel entries emission).IsSilent ∧
        ∀ file ∈ (report fuel entries emission).written, file.1 = treePath path := by
  intro told
  have hread := fileText_of_file hfile htext
  have htold := report_runSource fuel hasked hjob hread
  constructor
  · intro fault hfault
    rw [sourceProgram_of_error hfault] at htold
    have hrefused : told = syntaxRefusal fault := htold
    rw [hrefused]
    refine ⟨complains_syntaxRefusal hfault, rfl, rfl, ?_⟩
    intro emission other hother hemit
    rw [report_emitTree fuel hother hemit hread, sourceProgram_of_error hfault]
  · intro trees htrees outcome
    rw [sourceProgram_of_source htrees] at htold
    have hrun : told = runReport (decide (0 < asked.verbosity)) outcome :=
      htold.trans (runProgram_eq fuel hdepth htrace)
    refine ⟨?_, ?_, ?_, ?_⟩
    · rw [hrun, runReport_output]
    · rw [hrun]
      exact tellsEnd_runReport fuel _ htrees hlimit
    · intro file hmem
      rw [hrun, runReport_written] at hmem
      obtain ⟨hpath, htraced⟩ := of_mem_traceFile hmem
      exact ⟨hpath, of_decide_eq_true htraced⟩
    · intro emission other hother hemit
      rw [report_emission fuel hother hemit hfile htext htrees htree]
      refine ⟨⟨rfl, rfl⟩, fun file hmem => ?_⟩
      obtain rfl := List.mem_singleton.mp hmem
      rfl

/-- A program that prints a text and then fails, with a trace and a depth limit. -/
theorem runs_are_contained_failing :
    let text := "print(\"a\") print(b)"
    let trees : List Tree :=
      [.print (.string (.text "a")), .print (.variable (.text "b"))]
    let words := flagWords 1 "20" ++ ["a.sprig"]
    let told := report 9 (everyFile text) words
    settings words = .ok ⟨1, some 20, none, none, some "a.sprig"⟩ ∧
    Parse.source (Text.withLineFeeds text) = .ok trees ∧
    told.output = "a\n" ∧
    told.Complains "Runtime error: UndefinedVariable: undefined variable b" ∧
    ∀ file ∈ told.written, file.1 = tracePath ∧ 0 < 1 := by
  intro text trees words told
  have hsource : Parse.source (Text.withLineFeeds text) = .ok trees := by cbv
  have hlimit : Numeric.readInteger? "20" = some 20 := by decide
  have hplain : TellsApart "a.sprig" (.plain "a.sprig") := by constructor <;> decide
  have hasked := settings_runSource 1 hlimit hplain
  have htold := runs_are_contained 9 hasked (job_runSource (by decide)) rfl (by decide)
    (rfl : everyFile text (shownPath "a.sprig") = _) (Text.decode_encode text)
    (everyFile_ne_directory text _) (everyFile_ne_directory text _)
  obtain ⟨houtput, hend, hwritten, -⟩ := htold.2 trees hsource
  refine ⟨hasked, hsource, ?_, ?_, hwritten⟩
  · rw [houtput]
    rfl
  · exact hend

end Containment

end Sprig.CommandLine
