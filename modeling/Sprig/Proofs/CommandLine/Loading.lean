import Sprig.CommandLine.Report
import Sprig.Proofs.Text.Utf8
import Sprig.Proofs.Tree.Oversized

/-!
# Running the tree of a file

A command line that names a file with a tree reads the file, reads its text as a document, and
reads the document as a program, and each of these steps may fail. A file that is there and holds
UTF-8 either gives a program or is refused with status 1 and a complaint about the file, unless a
Number node of the document holds an integer that is too large to be a Number.
-/

namespace Sprig.CommandLine

section Reading

variable {entries : String → Entry} {path raw : String} {bytes : List UInt8}

/-- A file that is there and holds UTF-8 is read with its ends of lines unified. -/
theorem fileText_of_file (hfile : entries (shownPath path) = .file bytes)
    (htext : Text.decode bytes = .ok raw) :
    fileText entries path = .ok (Text.withLineFeeds raw) := by
  simp only [fileText, hfile, htext]

/-- Every fault of a document but one is told as a fault of the file. -/
theorem documentProgram_of_fault {text : String} {document : Json} {fault : Tree.DocumentFault}
    (hdocument : Json.parse text = .ok document)
    (hfault : Tree.decodeProgram document = .error fault) (hother : fault ≠ .integerTooLarge) :
    documentProgram text = .error (invalidTree fault.message) := by
  simp only [documentProgram, hdocument, hfault]

/-- A document is a program, or it is refused, or one of its integers is too large. -/
theorem documentProgram_cases (text : String) :
    (∃ trees, documentProgram text = .ok trees) ∨
    (∃ message, documentProgram text = .error (invalidTree message)) ∨
    (documentProgram text = .error (escape (.document .integerTooLarge)) ∧
      ∃ document, Json.parse text = .ok document ∧ document.HoldsOversized) := by
  cases hdocument : Json.parse text with
  | error fault =>
      right; left
      exact ⟨fault.message, by simp only [documentProgram, hdocument]⟩
  | ok document =>
      cases htrees : Tree.decodeProgram document with
      | ok trees =>
          left
          exact ⟨trees, by simp only [documentProgram, hdocument, htrees]⟩
      | error fault =>
          right
          by_cases hfault : fault = .integerTooLarge
          · subst hfault
            right
            constructor
            · simp only [documentProgram, hdocument, htrees]
            · exact ⟨document, rfl, Tree.holdsOversized_of_decodeProgram htrees⟩
          · left
            exact ⟨fault.message, documentProgram_of_fault hdocument htrees hfault⟩

end Reading

section Reports

variable (fuel : Nat) {entries : String → Entry} {words : List String} {asked : Settings}
variable {path text : String}

/-- A command line that runs a tree does so once the text of its file is a program, and else ends
with what is wrong about the text. -/
theorem report_runTree (hasked : settings words = .ok asked)
    (hjob : asked.job = .ok (.runTree path)) (htext : fileText entries path = .ok text) :
    report fuel entries words = match documentProgram text with
      | .ok trees => runProgram fuel entries asked trees
      | .error refused => refused := by
  simp only [report, hasked, hjob, jobReport, htext, bind, Except.bind, pure, Except.pure]
  cases documentProgram text <;> rfl

/-- A tree file is run or refused: a file that is there and holds UTF-8, and has no oversized
integer in a Number node, gives a program to run, or the command line ends with status 1 and a
complaint about the file, with nothing else said and nothing written. -/
theorem tree_file_runs_or_is_refused {bytes : List UInt8} {raw : String}
    (hasked : settings words = .ok asked) (hjob : asked.job = .ok (.runTree path))
    (hfile : entries (shownPath path) = .file bytes) (htext : Text.decode bytes = .ok raw)
    (hsmall : ∀ document, Json.parse (Text.withLineFeeds raw) = .ok document →
      ¬ document.HoldsOversized) :
    (∃ trees, documentProgram (Text.withLineFeeds raw) = .ok trees ∧
      report fuel entries words = runProgram fuel entries asked trees) ∨
    ∃ message, report fuel entries words =
      ⟨.exit 1, "", "Error: invalid AST file: " ++ message ++ "\n", []⟩ := by
  have hreport := report_runTree fuel hasked hjob (fileText_of_file hfile htext)
  rcases documentProgram_cases (Text.withLineFeeds raw) with
    ⟨trees, htrees⟩ | ⟨message, hrefused⟩ | ⟨-, document, hdocument, hlarge⟩
  · refine .inl ⟨trees, htrees, ?_⟩
    rw [hreport, htrees]
  · refine .inr ⟨message, ?_⟩
    rw [hreport, hrefused]
    rfl
  · exact absurd hlarge (hsmall document hdocument)

end Reports

section Inputs

/-- Files that all hold one text. -/
def everyFile (text : String) (_ : String) : Entry := .file (Text.encode text)

theorem everyFile_ne_directory (text path : String) : everyFile text path ≠ .directory := by
  simp [everyFile]

theorem fileText_everyFile {text : String} (h : '\r' ∉ text.toList) (path : String) :
    fileText (everyFile text) path = .ok text := by
  rw [fileText_of_file rfl (Text.decode_encode text), Text.withLineFeeds_of_notMem h]

/-- What is asked for when a tree file is named and nothing else is said. -/
def Settings.forTree (path : String) : Settings := { Settings.usual with runTree? := some path }

theorem settings_tree : settings ["--ast", "tree.json"] = .ok (.forTree "tree.json") := by decide

theorem job_tree : (Settings.forTree "tree.json").job = .ok (.runTree "tree.json") := by decide

/-- A file that holds a single integer has no Number node, and is refused for not being a list. -/
theorem tree_file_runs_or_is_refused_integer :
    settings ["--ast", "tree.json"] = .ok (.forTree "tree.json") ∧
    ((∃ trees, documentProgram (Text.withLineFeeds "5") = .ok trees ∧
      report 1 (everyFile "5") ["--ast", "tree.json"] =
        runProgram 1 (everyFile "5") (.forTree "tree.json") trees) ∨
    ∃ message, report 1 (everyFile "5") ["--ast", "tree.json"] =
      ⟨.exit 1, "", "Error: invalid AST file: " ++ message ++ "\n", []⟩) := by
  refine ⟨settings_tree, tree_file_runs_or_is_refused 1 settings_tree job_tree rfl
    (Text.decode_encode "5") fun document hdocument hlarge => ?_⟩
  have hinteger : Json.parse (Text.withLineFeeds "5") = .ok (.integer 5) := rfl
  obtain rfl := Except.ok.inj (hinteger.symm.trans hdocument)
  cases hlarge

/-- A document with one Number node, whose value is a one with four hundred zeros behind it. -/
def oversizedText : String :=
  String.ofList ("[\x7b\"type\": \"Number\", \"value\": 1".toList ++ List.replicate 400 '0' ++
    "\x7d]".toList)

/-- The integer of that document is told to nobody: the command line ends by a fault that has no
message of its own. -/
theorem oversized_integer_escapes :
    report 1 (everyFile oversizedText) ["--ast", "tree.json"] =
      escape (.document .integerTooLarge) := by
  have hlines : '\r' ∉ oversizedText.toList := by
    unfold oversizedText
    rw [String.toList_ofList]
    decide +kernel
  rw [report_runTree 1 settings_tree job_tree (fileText_everyFile hlines "tree.json")]
  unfold oversizedText
  rw [documentProgram, Json.parse, String.toList_ofList]
  decide +kernel

end Inputs

end Sprig.CommandLine
