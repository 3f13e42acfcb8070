import Sprig.Proofs.CommandLine.Flags
import Sprig.Proofs.CommandLine.Loading
import Sprig.Proofs.CommandLine.Path
import Sprig.Proofs.Grammar.Shape
import Sprig.Proofs.Json.RoundTrip

/-!
# Running the tree that was written

A command line can write the tree of a program into a file, and another one can run the tree of
that file. What is written is read back as the same program, so the tree runs as the program text
does, whatever the settings of the run are.
-/

namespace Sprig

namespace Tree

section Documents

/-- The document of a node is short when those of its parts are. -/
theorem short_of_node? {tree : Tree} {kind : NodeKind} {parts : List Tree}
    (split : tree.node? = some (kind, parts)) (h : ∀ part ∈ parts, (encode part).Short) :
    (encode tree).Short := by
  rw [encode_of_node? split, nodeObject]
  refine .object fun entry hentry => ?_
  rcases List.mem_cons.mp hentry with rfl | hentry
  · exact .text kind.label
  · obtain ⟨part, hpart, heq⟩ := List.mem_map.mp (List.of_mem_zip hentry).2
    exact heq ▸ h part hpart

theorem short_list {trees : List Tree} (h : ∀ tree ∈ trees, (encode tree).Short) :
    (encode (.list trees)).Short := by
  rw [encode, encodeAll_eq_map]
  refine .list fun item hitem => ?_
  obtain ⟨tree, htree, rfl⟩ := List.mem_map.mp hitem
  exact h tree htree

theorem short_scalar {value : Scalar} (h : ∀ k, value ≠ .integer k) :
    (encode (.scalar value)).Short := by
  rw [encode]
  cases value with
  | none => exact .null
  | boolean b => exact .boolean b
  | integer k => exact absurd rfl (h k)
  | number x => exact .number x
  | text s => exact .text s

@[simp] theorem short_text (s : String) : (encode (.text s)).Short := short_scalar nofun

@[simp] theorem short_none : (encode .none).Short := short_scalar nofun

/-- An expression that was parsed holds no integer. -/
theorem short_of_isExpression {tree : Tree} (h : tree.IsExpression) : (encode tree).Short := by
  induction h with
  | number x => exact short_of_node? rfl (by simp [short_scalar])
  | string s => exact short_of_node? rfl (by simp)
  | boolean b => exact short_of_node? rfl (by simp [short_scalar])
  | name x => exact short_of_node? rfl (by simp)
  | unary _ operand => exact short_of_node? rfl (by simp [operand])
  | binary _ _ _ left right => exact short_of_node? rfl (by simp [left, right])
  | comparison _ _ _ left right => exact short_of_node? rfl (by simp [left, right])
  | arrayLiteral _ elements => exact short_of_node? rfl (by simp [short_list elements])
  | elementAccess _ index => exact short_of_node? rfl (by simp [index])
  | methodExpression _ args => exact short_of_node? rfl (by simp [short_list args])
  | length x => exact short_of_node? rfl (by simp)
  | call _ args => exact short_of_node? rfl (by simp [short_list args])

/-- A statement that was parsed holds no integer. -/
theorem short_of_isStatement {tree : Tree} (h : tree.IsStatement) : (encode tree).Short := by
  induction h with
  | assignment value => exact short_of_node? rfl (by simp [short_of_isExpression value])
  | print value => exact short_of_node? rfl (by simp [short_of_isExpression value])
  | expression inner => exact short_of_node? rfl (by simp [short_of_isExpression inner])
  | ifOnly condition _ block =>
      exact short_of_node? rfl (by simp [short_of_isExpression condition, short_list block])
  | ifElse condition _ _ block otherwise =>
      exact short_of_node? rfl
        (by simp [short_of_isExpression condition, short_list block, short_list otherwise])
  | «while» condition _ block =>
      exact short_of_node? rfl (by simp [short_of_isExpression condition, short_list block])
  | elementAssignment index value =>
      exact short_of_node? rfl
        (by simp [short_of_isExpression index, short_of_isExpression value])
  | methodCall args =>
      exact short_of_node? rfl
        (by simp [short_list fun arg harg => short_of_isExpression (args arg harg)])
  | declaration params _ block =>
      have hparams : (encode (.list (params.map .text))).Short :=
        short_list fun param hparam => by
          obtain ⟨x, -, rfl⟩ := List.mem_map.mp hparam
          exact short_text x
      exact short_of_node? rfl (by simp [hparams, short_list block])
  | emptyReturn => exact short_of_node? rfl (by simp)
  | valueReturn value => exact short_of_node? rfl (by simp [short_of_isExpression value])

/-- The document of a program that was parsed holds no integer. -/
theorem short_encodeProgram {trees : List Tree} (h : IsProgram trees) :
    (encodeProgram trees).Short := by
  have hlist := short_list fun tree htree => short_of_isStatement (h tree htree)
  rwa [encode] at hlist

end Documents

end Tree

namespace CommandLine

/-- The files after some were written. -/
def filesAfter (entries : String → Entry) (written : List (String × String)) : String → Entry :=
  written.foldl
    (fun entries file => Function.update entries file.1 (.file (Text.encode file.2))) entries

section Writing

variable {entries : String → Entry} {words : List String} {asked : Settings}
variable {path source text : String} {trees : List Tree}

/-- The text of a program's tree spells the program. -/
theorem documentProgram_indented (hsource : Parse.source text = .ok trees) :
    documentProgram (Tree.encodeProgram trees).indented = .ok trees := by
  have hshort := Tree.short_encodeProgram (Grammar.isProgram_of_source hsource)
  have hparse : Json.parse (Tree.encodeProgram trees).indented = .ok (Tree.encodeProgram trees) :=
    Json.parse_write Json.blank_indented hshort
  simp only [documentProgram, hparse, (Tree.Arises.text hsource).decode_encode]

/-- The file of a program's tree is read as it was written. -/
theorem fileText_filesAfter (hsource : Parse.source text = .ok trees) {target tree : String}
    (htree : shownPath tree = target) :
    fileText (filesAfter entries [(target, (Tree.encodeProgram trees).indented)]) tree =
      .ok (Tree.encodeProgram trees).indented := by
  have hshort := Tree.short_encodeProgram (Grammar.isProgram_of_source hsource)
  have hlines : '\r' ∉ (Tree.encodeProgram trees).indented.toList :=
    Json.return_notMem_write Json.blank_indented hshort
  have hfile : filesAfter entries [(target, (Tree.encodeProgram trees).indented)]
      (shownPath tree) = .file (Text.encode (Tree.encodeProgram trees).indented) := by
    simp [filesAfter, htree]
  rw [fileText_of_file hfile (Text.decode_encode _), Text.withLineFeeds_of_notMem hlines]

theorem sourceProgram_of_source (hsource : Parse.source text = .ok trees) :
    sourceProgram text = .ok trees := by
  rw [sourceProgram, hsource]
  rfl

variable (fuel : Nat)

/-- A command line that names a program file runs it once its text is a program, and else ends
with what is wrong about the text. -/
theorem report_runSource (hasked : settings words = .ok asked)
    (hjob : asked.job = .ok (.runSource path)) (htext : fileText entries path = .ok text) :
    report fuel entries words = match sourceProgram text with
      | .ok trees => runProgram fuel entries asked trees
      | .error refused => refused := by
  simp only [report, hasked, hjob, jobReport, htext, bind, Except.bind, pure, Except.pure]
  cases sourceProgram text <;> rfl

/-- A command line that asks for the tree of a program file writes it once the text is a program,
and else ends with what is wrong about the text. -/
theorem report_emitTree (hasked : settings words = .ok asked)
    (hjob : asked.job = .ok (.emitTree path)) (htext : fileText entries path = .ok text) :
    report fuel entries words = match sourceProgram text with
      | .ok trees => writeTree entries path trees
      | .error refused => refused := by
  simp only [report, hasked, hjob, jobReport, htext, bind, Except.bind, pure, Except.pure]
  cases sourceProgram text <;> rfl

end Writing

section Running

variable {entries entries' : String → Entry} {n : Nat} {depth? : Option Int} {path : String}

theorem ne_of_emitTree {asked : Settings} (h : asked.job = .ok (.emitTree path)) : path ≠ "" := by
  rintro rfl
  simp only [Settings.job] at h
  split at h
  · next hfound =>
    obtain rfl := Job.emitTree.inj (Except.ok.inj h)
    simp [Option.filter_eq_some_iff] at hfound
  all_goals cases h

theorem job_runSource (h : path ≠ "") :
    (⟨n, depth?, none, none, some path⟩ : Settings).job = .ok (.runSource path) := by
  simp [Settings.job, Option.filter, h]

theorem job_runTree (h : path ≠ "") :
    (⟨n, depth?, none, some path, none⟩ : Settings).job = .ok (.runTree path) := by
  simp [Settings.job, Option.filter, h]

/-- A run depends on the flags for the trace and the depth, and on what stands in the place of the
trace. -/
theorem runProgram_congr (fuel : Nat) (trees : List Tree) {asked asked' : Settings}
    (hverbosity : asked.verbosity = asked'.verbosity) (hdepth : asked.depth? = asked'.depth?)
    (htrace : entries tracePath = entries' tracePath) :
    runProgram fuel entries asked trees = runProgram fuel entries' asked' trees := by
  simp only [runProgram, hverbosity, hdepth, htrace]

end Running

section Agreement

variable {entries : String → Entry} {emission : List String} {asked : Settings}
variable {path raw : String} {bytes : List UInt8} {trees : List Tree}

theorem report_emission (fuel : Nat) (hasked : settings emission = .ok asked)
    (hjob : asked.job = .ok (.emitTree path)) (hfile : entries (shownPath path) = .file bytes)
    (htext : Text.decode bytes = .ok raw)
    (hsource : Parse.source (Text.withLineFeeds raw) = .ok trees)
    (htarget : entries (treePath path) ≠ .directory) :
    report fuel entries emission = ⟨.exit 0, treePath path ++ "\n", "",
      [(treePath path, (Tree.encodeProgram trees).indented)]⟩ := by
  rw [report_emitTree fuel hasked hjob (fileText_of_file hfile htext),
    sourceProgram_of_source hsource]
  simp only [writeTree, if_neg htarget]

/-- The tree of a program file can be written and runs as the file does. A command line that asks
for the tree ends with status 0, says where the tree is and writes that file alone. From then on
every command line that runs the file of the tree has the whole effect of the command line that
runs the program file with the same flags for the trace and the depth: what it says on both
outputs, how it ends and the trace it writes. -/
theorem written_tree_runs_as_source (fuel : Nat) (hasked : settings emission = .ok asked)
    (hjob : asked.job = .ok (.emitTree path)) (hfile : entries (shownPath path) = .file bytes)
    (htext : Text.decode bytes = .ok raw)
    (hsource : Parse.source (Text.withLineFeeds raw) = .ok trees)
    (htarget : entries (treePath path) ≠ .directory) :
    let written := [(treePath path, (Tree.encodeProgram trees).indented)]
    report fuel entries emission = ⟨.exit 0, treePath path ++ "\n", "", written⟩ ∧
    ∀ (fuel n : Nat) (depth? : Option Int) (tree : String) (words words' : List String),
      settings words = .ok ⟨n, depth?, none, none, some path⟩ →
      settings words' = .ok ⟨n, depth?, none, some tree, none⟩ →
      shownPath tree = treePath path →
      report fuel (filesAfter entries written) words' = report fuel entries words ∧
      report fuel (filesAfter entries written) words = report fuel entries words := by
  intro written
  constructor
  · exact report_emission fuel hasked hjob hfile htext hsource htarget
  intro fuel n depth? tree words words' hwords hwords' htree
  have hprogram := sourceProgram_of_source hsource
  have hpath : path ≠ "" := ne_of_emitTree hjob
  have hrun : report fuel entries words =
      runProgram fuel entries ⟨n, depth?, none, none, some path⟩ trees := by
    rw [report_runSource fuel hwords (job_runSource hpath) (fileText_of_file hfile htext),
      hprogram]
  have hfile' : filesAfter entries written (shownPath path) = .file bytes := by
    rw [filesAfter, List.foldl_cons, List.foldl_nil, Function.update_of_ne, hfile]
    exact (treePath_ne_shownPath path).symm
  have htrace : filesAfter entries written tracePath = entries tracePath := by
    rw [filesAfter, List.foldl_cons, List.foldl_nil, Function.update_of_ne]
    exact (treePath_ne_tracePath path).symm
  have htree' : tree ≠ "" := by
    rintro rfl
    exact treePath_ne_here path htree.symm
  constructor
  · rw [hrun, report_runTree fuel hwords' (job_runTree htree') (fileText_filesAfter hsource htree),
      documentProgram_indented hsource]
    exact runProgram_congr fuel trees rfl rfl htrace
  · rw [hrun, report_runSource fuel hwords (job_runSource hpath) (fileText_of_file hfile' htext),
      hprogram]
    exact runProgram_congr fuel trees rfl rfl htrace

/-- A program that calls a function of its own, with a trace and a depth limit. -/
theorem written_tree_runs_as_source_call :
    let text := "say(x) { print(x) } say(true)"
    let entries := everyFile text
    let trees : List Tree :=
      [.functionDeclaration (.text "say") (.list [.text "x"])
        (.list [.print (.variable (.text "x"))]),
      .expressionStatement (.call (.text "say") (.list [.boolean (.scalar (.boolean true))]))]
    let written := [("say.sprig.ast.json", (Tree.encodeProgram trees).indented)]
    settings (flagWords 2 "20" ++ ["say.sprig"]) =
      .ok ⟨2, some 20, none, none, some "say.sprig"⟩ ∧
    settings (flagWords 2 "20" ++ ["--ast=say.sprig.ast.json"]) =
      .ok ⟨2, some 20, none, some "say.sprig.ast.json", none⟩ ∧
    report 0 entries ["--emit-ast=say.sprig"] =
      ⟨.exit 0, "say.sprig.ast.json\n", "", written⟩ ∧
    report 9 (filesAfter entries written) (flagWords 2 "20" ++ ["--ast=say.sprig.ast.json"]) =
      report 9 entries (flagWords 2 "20" ++ ["say.sprig"]) := by
  intro text entries trees written
  have hsource : Parse.source (Text.withLineFeeds text) = .ok trees := by cbv
  have hemission := settings_emitTree (by decide : "say.sprig" ≠ divider)
  have hjob : { Settings.usual with emitTree? := some "say.sprig" }.job =
      .ok (.emitTree "say.sprig") := by decide
  have hlimit : Numeric.readInteger? "20" = some 20 := by decide
  have hplain : TellsApart "say.sprig" (.plain "say.sprig") := by constructor <;> decide
  have hrun := settings_runSource 2 hlimit hplain
  have htree := settings_runTree 2 hlimit (by decide : "say.sprig.ast.json" ≠ divider)
  obtain ⟨hwritten, hagree⟩ := written_tree_runs_as_source 0 hemission hjob
    (rfl : entries (shownPath "say.sprig") = _) (Text.decode_encode text) hsource
    (everyFile_ne_directory text _)
  exact ⟨hrun, htree, hwritten, (hagree 9 2 (some 20) _ _ _ hrun htree (by decide)).1⟩

end Agreement

end CommandLine

end Sprig
