import Mathlib.Data.List.Forall2
import Sprig.CommandLine.Settings

/-!
# Command lines with given flags

For every number of `-v` and every depth limit that is written as an integer there are command
lines that ask for just these, whether they run a program file or the file of a tree.
-/

namespace Sprig.CommandLine

section Words

/-- A word that is told apart on its own. -/
def TellsApart (text : String) (word : Word) : Prop :=
  text ≠ divider ∧ classify text = .ok word

/-- Words that are told apart one by one leave nothing for behind the divider. -/
theorem classifyAll_of_tellsApart {texts : List String} {words : List Word}
    (h : List.Forall₂ TellsApart texts words) : classifyAll texts = .ok (words, none) := by
  induction h with
  | nil => rfl
  | @cons text word texts words hfirst _ ih =>
      rw [classifyAll, if_neg hfirst.1, hfirst.2, ih]
      rfl

theorem tellsApart_verbose : TellsApart "-v" (.flag .verbose false none) := by
  constructor <;> decide

theorem cutAtEquals_append {cs : List Char} (h : '=' ∉ cs) (value : List Char) :
    cutAtEquals (cs ++ '=' :: value) = (cs, some (String.ofList value)) := by
  have hne : ∀ c ∈ cs, decide (c ≠ '=') = true := by
    intro c hc
    exact decide_eq_true fun heq => h (heq ▸ hc)
  rw [cutAtEquals, List.dropWhile_append_of_pos hne, List.takeWhile_append_of_pos hne]
  simp

theorem equals_notMem_of_mem_all : ∀ entry ∈ Flag.all, '=' ∉ entry.1.toList := by decide

theorem ofSpelling?_of_equals {text : String} (h : '=' ∈ text.toList) :
    Flag.ofSpelling? text = none := by
  rw [Flag.ofSpelling?, List.lookup_eq_none_iff]
  rintro entry hentry
  rw [bne_iff_ne]
  rintro rfl
  exact equals_notMem_of_mem_all entry hentry h

/-- A value is written onto a long flag behind an equals sign. -/
theorem tellsApart_long {spelling : String} {flag : Flag} (hmem : (spelling, flag) ∈ Flag.all)
    (hlong : isLong spelling.toList = true) (value : String) :
    TellsApart (spelling ++ "=" ++ value) (.flag flag true (some value)) := by
  have hequals := equals_notMem_of_mem_all _ hmem
  have htext : (spelling ++ "=" ++ value).toList = spelling.toList ++ '=' :: value.toList := by
    simp
  have hwhole : spelled? (spelling.toList ++ '=' :: value.toList) none = none := by
    rw [spelled?, ofSpelling?_of_equals (by simp)]
    rfl
  have hfront : spelled? spelling.toList (some value) = some (.flag flag true (some value)) := by
    rw [spelled?, String.ofList_toList, Flag.ofSpelling?_of_mem _ hmem, hlong]
    rfl
  constructor
  · intro heq
    have hmem : '=' ∈ divider.toList := by
      rw [← heq, htext]
      simp
    revert hmem
    decide
  · obtain ⟨cs, hcs⟩ : ∃ cs, spelling.toList = '-' :: '-' :: cs := by
      unfold isLong at hlong
      split at hlong
      · next cs heq => exact ⟨cs, heq⟩
      · cases hlong
    have hdashed : classify (spelling ++ "=" ++ value) =
        classifyDashed (spelling.toList ++ '=' :: value.toList) := by
      rw [classify, htext, hcs]
      rfl
    rw [hdashed, classifyDashed, cutAtEquals_append hequals, String.ofList_toList]
    simp only [hwhole, Option.bind_some, hfront]

end Words

section Flags

/-- The words that ask for a trace and a depth limit. -/
def flagWords (n : Nat) (limit : String) : List String :=
  List.replicate n "-v" ++ ["--max-depth=" ++ limit]

theorem tellsApart_flagWords (n : Nat) (limit : String) :
    List.Forall₂ TellsApart (flagWords n limit)
      (List.replicate n (.flag .verbose false none) ++ [.flag .maxDepth true (some limit)]) := by
  refine List.rel_append ?_ (.cons ?_ .nil)
  · rw [List.forall₂_iff_get]
    simp [tellsApart_verbose]
  · exact tellsApart_long (by decide : ("--max-depth", .maxDepth) ∈ Flag.all) (by decide) limit

/-- Each `-v` counts. -/
theorem useWords_verbose (n : Nat) (words : List Word) {progress : Progress}
    (h : progress.atProgram = false) :
    useWords progress (List.replicate n (.flag .verbose false none) ++ words) =
      useWords { progress with settings :=
        { progress.settings with verbosity := progress.settings.verbosity + n } } words := by
  induction n generalizing progress with
  | zero => rfl
  | succ n ih =>
      obtain ⟨asked, given, atProgram, leftOver⟩ := progress
      obtain rfl : atProgram = false := h
      rw [List.replicate_succ, List.cons_append]
      have hstep : useWords ⟨asked, given, false, leftOver⟩
          (.flag .verbose false none :: (List.replicate n (.flag .verbose false none) ++ words)) =
          useWords ⟨{ asked with verbosity := asked.verbosity + 1 }, given, false, leftOver⟩
            (List.replicate n (.flag .verbose false none) ++ words) := by
        conv_lhs => unfold useWords
        rfl
      rw [hstep, ih rfl]
      simp only [Nat.add_assoc, Nat.add_comm 1 n]

variable (n : Nat) {limit : String} {depth : Int}

/-- A depth limit that is an integer is taken. -/
theorem withValue_maxDepth (hlimit : Numeric.readInteger? limit = some depth)
    (asked : Settings) : Progress.withValue asked .maxDepth limit =
      .ok { asked with depth? := some depth } := by
  have hdivider : limit ≠ divider := by
    rintro rfl
    have hnone : Numeric.readInteger? divider = none := by decide
    rw [hnone] at hlimit
    cases hlimit
  simp only [Progress.withValue, if_neg hdivider, hlimit]

/-- Behind the flags for the trace and the depth, a last word decides what is run. -/
theorem settings_flagWords (hlimit : Numeric.readInteger? limit = some depth) {text : String}
    {word : Word} {progress : Progress} (htext : TellsApart text word)
    (hused : useWords ⟨⟨n, some depth, none, none, none⟩, [.maxDepth], false, []⟩ [word] =
      .ok progress) (hleft : progress.leftOver = []) :
    settings (flagWords n limit ++ [text]) = .ok progress.settings := by
  have hwords := classifyAll_of_tellsApart
    (List.rel_append (tellsApart_flagWords n limit) (.cons htext .nil))
  have hlimits : useWords .start
      (List.replicate n (.flag .verbose false none) ++ [.flag .maxDepth true (some limit)] ++
        [word]) = .ok progress := by
    rw [List.append_assoc, useWords_verbose n _ rfl, List.singleton_append, useWords,
      ← hused]
    simp only [Progress.useValue, withValue_maxDepth hlimit]
    rw [Progress.start, Settings.usual, Nat.zero_add]
    rfl
  rw [settings, hwords]
  simp only [Except.mapError, bind, Except.bind, hlimits, Option.map_none, Option.getD_none, hleft,
    if_true, pure, Except.pure]

/-- For every number of `-v` and every depth limit there is a command line that runs a program
file. -/
theorem settings_runSource (hlimit : Numeric.readInteger? limit = some depth) {path : String}
    (hpath : TellsApart path (.plain path)) :
    settings (flagWords n limit ++ [path]) = .ok ⟨n, some depth, none, none, some path⟩ :=
  settings_flagWords n hlimit hpath rfl rfl

/-- For every number of `-v` and every depth limit there is a command line that runs the file of a
tree. -/
theorem settings_runTree (hlimit : Numeric.readInteger? limit = some depth) {path : String}
    (hpath : path ≠ divider) :
    settings (flagWords n limit ++ ["--ast=" ++ path]) =
      .ok ⟨n, some depth, none, some path, none⟩ := by
  have htree := tellsApart_long (by decide : ("--ast", .runTree) ∈ Flag.all) (by decide) path
  have hused : useWords ⟨⟨n, some depth, none, none, none⟩, [.maxDepth], false, []⟩
      [.flag .runTree true (some path)] =
        .ok ⟨⟨n, some depth, none, some path, none⟩, [.runTree, .maxDepth], false, []⟩ := by
    unfold useWords
    simp only [Progress.useValue, Progress.withValue, if_neg hpath]
    rfl
  exact settings_flagWords n hlimit htree hused rfl

/-- There is a command line that asks for the tree of a program file. -/
theorem settings_emitTree {path : String} (hpath : path ≠ divider) :
    settings ["--emit-ast=" ++ path] = .ok { Settings.usual with emitTree? := some path } := by
  have hwords := classifyAll_of_tellsApart (.cons
    (tellsApart_long (by decide : ("--emit-ast", .emitTree) ∈ Flag.all) (by decide) path) .nil)
  have hused : useWords .start [.flag .emitTree true (some path)] =
      .ok ⟨{ Settings.usual with emitTree? := some path }, [.emitTree], false, []⟩ := by
    unfold useWords
    simp only [Progress.useValue, Progress.withValue, if_neg hpath]
    rfl
  have hwords' : classifyAll ["--emit-ast=" ++ path] =
      .ok ([.flag .emitTree true (some path)], none) := hwords
  simp only [settings, hwords', Except.mapError, bind, Except.bind, hused, Option.map_none,
    Option.getD_none, if_true, pure, Except.pure]

end Flags

end Sprig.CommandLine
