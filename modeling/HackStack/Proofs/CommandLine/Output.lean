import HackStack.Proofs.CommandLine.Printing
import HackStack.Proofs.Session.StartUp

/-!
# All or nothing, but for the summary

A run of the command line that fails leaves the tree as it was, and one that succeeds writes one
file. The file lies where the arguments say, or next to the file of commands, or in the directory
that it is named after (`HackStack.FileTree.OutputAt`); this is one place
(`HackStack.FileTree.OutputAt.unique`).

There is one exception. The summary is put together and printed when the output has been written, so
a run whose summary cannot be printed (`HackStack.FileTree.Unprintable`) fails and has written its
output all the same; `HackStack.CommandLine.exists_late_failure` is such a run. The main result is
`HackStack.CommandLine.perform_all_or_nothing`. Either way the tree looks like a disk afterwards if
it did before (`HackStack.CommandLine.perform_proper`).
-/

namespace HackStack

open CommandLine Stage

/-! ### Naming the output -/

namespace CommandLine

variable {tree : FileTree} {path : RawText} {place : Place}

/-- The name of a directory is the last of the place where it lies. -/
theorem exists_of_directoryName {name : RawText} (htree : tree.Proper)
    (hpath : tree.resolve path = .ok (place, .directory))
    (h : (directoryName path : Stage (StateM FileTree) RawText).answer tree = .ok name) :
    ∃ above, place = above ++ [name] ∧ Path.IsFileName name := by
  have hcanonical : (ask .unresolved (Disk.canonical path) :
      Stage (StateM FileTree) RawText).on tree =
        (.ok (Path.separator :: [Path.separator].intercalate place), tree) := by
    have hrun : StateT.run (Disk.canonical path : StateM FileTree (Except DiskError RawText))
        tree = (tree.canonical path, tree) := rfl
    rw [on_ask, hrun, FileTree.canonical, hpath]
    rfl
  rw [answer, directoryName] at h
  split at h
  next found hfound =>
    obtain rfl : found = name := Except.ok.inj h
    obtain ⟨-, -, above, -, hname, -, hplace, -⟩ := FileTree.exists_of_fileName? hfound hpath
    exact ⟨above, hplace, hname⟩
  next =>
    rw [on_bind, hcanonical] at h
    dsimp only at h
    split at h
    next found hfound =>
      obtain rfl : found = name := Except.ok.inj h
      have hnames := htree.isFileName_of_resolve hpath
      rcases List.eq_nil_or_concat' place with rfl | ⟨above, last, rfl⟩
      · cases hfound
      · have hlast := hnames last (List.mem_append_right _ List.mem_cons_self)
        have hpieces := Path.pieces_canonical
          (fun name hname => (hnames name hname).separator_not_mem)
          (by simp : above ++ [last] ≠ [])
        rw [@Path.fileName?_eq _ _ ([] :: above) hpieces hlast, Option.some.injEq] at hfound
        exact ⟨above, by rw [hfound], hfound ▸ hlast⟩
    next => cases h

theorem separator_not_mem_outputName {name : RawText} (h : Path.separator ∉ name) :
    Path.separator ∉ outputName name :=
  Path.separator_not_mem_extended (fun hmem => h (RawText.mem_of_mem_display (by decide) hmem))
    (by decide)

end CommandLine

/-- **Where the output goes by default**: next to the file of commands, or into the directory and
named like it. -/
inductive FileTree.DefaultOutput (tree : FileTree) (path : RawText) : Place → Prop
  | file {directory : Place} {stem : RawText} {bytes : ByteArray}
      (hpath : tree.resolve path = .ok (directory ++ [sourceName stem], .file bytes)) :
      DefaultOutput tree path (directory ++ [Path.extended stem outputExtension])
  | directory {above : Place} {name : RawText}
      (hpath : tree.resolve path = .ok (above ++ [name], .directory)) :
      DefaultOutput tree path (above ++ [name] ++ [outputName name])

/-- There is one default place. -/
theorem FileTree.DefaultOutput.unique {tree : FileTree} {path : RawText} {place place' : Place}
    (h : tree.DefaultOutput path place) (h' : tree.DefaultOutput path place') :
    place = place' := by
  cases h with
  | file hpath =>
    cases h' with
    | file hpath' =>
      obtain ⟨hplace, -⟩ := Prod.mk.inj (Except.ok.inj (hpath.symm.trans hpath'))
      obtain ⟨rfl, hname⟩ := List.append_inj' hplace rfl
      rw [sourceName_inj.mp (List.singleton_inj.mp hname)]
    | directory hpath' =>
      exact nomatch (Prod.mk.inj (Except.ok.inj (hpath.symm.trans hpath'))).2
  | directory hpath =>
    cases h' with
    | file hpath' =>
      exact nomatch (Prod.mk.inj (Except.ok.inj (hpath.symm.trans hpath'))).2
    | directory hpath' =>
      obtain ⟨hplace, -⟩ := Prod.mk.inj (Except.ok.inj (hpath.symm.trans hpath'))
      obtain ⟨rfl, hname⟩ := List.append_inj' hplace rfl
      rw [List.singleton_inj.mp hname]

namespace CommandLine

variable {tree : FileTree} {path : RawText} {place : Place}

/-- **The output has its default place**, whether one file or a directory was found. -/
theorem defaultOutput_of_resolveTarget {output : RawText} {files : List SourceFile}
    (htree : tree.Proper)
    (hfiles : (discover path : Stage (StateM FileTree) (List SourceFile)).answer tree = .ok files)
    (houtput : (defaultOutput path : Stage (StateM FileTree) RawText).answer tree = .ok output)
    (htarget : tree.resolveTarget output = .ok place) : tree.DefaultOutput path place := by
  obtain ⟨paths, hpaths, -⟩ := answer_discover_eq_ok.mp hfiles
  rcases exists_of_findSources hpaths with ⟨directory, hpath, -⟩ | ⟨hsource, -⟩
  · have hkind : tree.kind? path = some .directory :=
      FileTree.kind?_eq_some.mpr ⟨_, _, hpath, rfl⟩
    obtain ⟨-, name, hname, rfl⟩ :=
      (answer_defaultOutput_eq_ok.mp houtput).resolve_right fun h => h.1 hkind
    obtain ⟨above, rfl, hfile⟩ := exists_of_directoryName htree hpath hname
    obtain rfl := FileTree.resolveTarget_join hpath
      (separator_not_mem_outputName hfile.separator_not_mem) htarget
    exact .directory hpath
  · obtain ⟨directory, stem, bytes, hstem, hname, hpath⟩ := isSourceOn_iff.mp hsource
    have hkind : tree.kind? path = some .file := FileTree.kind?_eq_some.mpr ⟨_, _, hpath, rfl⟩
    obtain ⟨-, rfl⟩ := (answer_defaultOutput_eq_ok.mp houtput).resolve_left fun h =>
      nomatch hkind.symm.trans h.1
    obtain rfl := FileTree.resolveTarget_withExtension hstem (by decide) (by decide) hpath hname
      htarget
    exact .file hpath

end CommandLine

/-! ### One run -/

/-- **One file is written**: it holds the text, and nothing else is created or changed. -/
structure FileTree.Written (tree tree' : FileTree) (place : Place) (text : String) : Prop where
  find?_eq : tree'.find? place = some (.file text.toUTF8)
  find?_of_ne : ∀ other, other ≠ place → tree'.find? other = tree.find? other
  workingDirectory_eq : tree'.workingDirectory = tree.workingDirectory
  refusal_eq : tree'.refusal = tree.refusal

/-- **Where the output goes**: to where the arguments say, or to its default place. -/
inductive FileTree.OutputAt (tree : FileTree) (arguments : Arguments) : Place → Prop
  | told {path : RawText} {place : Place} (houtput : arguments.output = some path)
      (hplace : tree.resolveTarget path = .ok place) : OutputAt tree arguments place
  | byDefault {place : Place} (houtput : arguments.output = none)
      (hplace : tree.DefaultOutput arguments.source place) : OutputAt tree arguments place

/-- **The output goes to one place.** -/
theorem FileTree.OutputAt.unique {tree : FileTree} {arguments : Arguments} {place place' : Place}
    (h : tree.OutputAt arguments place) (h' : tree.OutputAt arguments place') :
    place = place' := by
  cases h with
  | told houtput hplace =>
    cases h' with
    | told houtput' hplace' =>
      obtain rfl := Option.some.inj (houtput.symm.trans houtput')
      exact Except.ok.inj (hplace.symm.trans hplace')
    | byDefault houtput' => exact nomatch houtput.symm.trans houtput'
  | byDefault houtput hplace =>
    cases h' with
    | told houtput' => exact nomatch houtput.symm.trans houtput'
    | byDefault _ hplace' => exact hplace.unique hplace'

/-- **A run has translated what its arguments ask for.** It has found the sources that the path asks
for – there are no others, in whatever order a directory is listed –, has translated them, and has
written the text to the one file where the output goes. The program is started up if that is asked
for, or if nothing is said and there are several sources. -/
def FileTree.Translated (tree : FileTree) (arguments : Arguments) (tree' : FileTree) : Prop :=
  ∃ sources startUp t place,
    (tree.Asked arguments.source sources ∧
      ∀ others, tree.Asked arguments.source others → others = sources) ∧
    (startUp = true ↔ arguments.startUp = some true ∨
      arguments.startUp = none ∧ 1 < sources.length) ∧
    translate sources ⟨startUp, arguments.entry, arguments.stackBase, arguments.annotate⟩ = .ok t ∧
    tree.OutputAt arguments place ∧ tree.find? place ≠ some .directory ∧
    tree.Written tree' place t.text ∧
    ∀ path, arguments.output = some path → tree'.read path = .ok t.text.toUTF8

/-- **The summary of a run cannot be printed**: it is asked for, but one of the paths that were
given is no text, or the standard output takes none. -/
def FileTree.Unprintable (tree : FileTree) (arguments : Arguments) : Prop :=
  arguments.summary = true ∧
    (RawText.text? arguments.source = none ∨
      (∃ path, arguments.output = some path ∧ RawText.text? path = none) ∨ tree.refusal ≠ none)

namespace CommandLine

/-- What a run has done that has written. -/
theorem translated_of_on_run {arguments : Arguments} {tree tree' : FileTree} {summary : Summary}
    (htree : tree.Proper)
    (h : (run arguments : Stage (StateM FileTree) Summary).on tree = (.ok summary, tree')) :
    tree.Translated arguments tree' := by
  obtain ⟨files, output, sources, t, place, hfiles, houtput, hsources, ht, hplace, -, rfl⟩ :=
    on_run_eq_ok.mp h
  obtain ⟨hasked, hlength⟩ := asked_of_readSources htree hfiles hsources
  obtain ⟨-, -, -, -, -, -, -, -, -, hfree⟩ := FileTree.exists_of_resolveTarget hplace
  have hne : place ≠ [] := fun he => hfree (he ▸ rfl)
  refine ⟨sources, _, t, place, ⟨hasked, fun others hothers => hothers.unique hasked⟩, ?_, ht,
    ?_, hfree, ⟨FileTree.find?_put_self hne, fun other => FileTree.find?_put_of_ne, rfl, rfl⟩,
    fun path hpath => ?_⟩
  · rw [hlength]
    rcases arguments.startUp with _ | _ | _ <;> simp
  · cases htold : arguments.output with
    | some path =>
      rw [answer, outputPath, htold] at houtput
      exact .told htold (Except.ok.inj houtput ▸ hplace)
    | none =>
      rw [answer, outputPath, htold] at houtput
      exact .byDefault htold (defaultOutput_of_resolveTarget htree hfiles houtput hplace)
  · rw [answer, outputPath, hpath] at houtput
    exact Except.ok.inj houtput ▸ FileTree.read_put hplace

/-- **Whether the summary can be printed** is seen before the run. -/
theorem printable_iff {arguments : Arguments} {tree tree' : FileTree} {summary : Summary}
    (htree : tree.Proper)
    (h : (run arguments : Stage (StateM FileTree) Summary).on tree = (.ok summary, tree')) :
    (arguments.summary = true → summary.render? ≠ none ∧ tree'.refusal = none) ↔
      ¬ tree.Unprintable arguments := by
  obtain ⟨files, output, sources, t, place, hfiles, houtput, -, -, -, rfl, rfl⟩ :=
    on_run_eq_ok.mp h
  have hrefusal : (tree.put place (.file t.text.toUTF8)).refusal = tree.refusal := rfl
  rw [render?_ne_none_iff htree hfiles houtput, hrefusal, FileTree.Unprintable, not_and]
  refine imp_congr_right fun _ => ?_
  rw [not_or, not_or, not_exists, not_not, and_assoc, ← RawText.text?_ne_none_iff]
  refine and_congr_right fun _ => and_congr_left fun _ => forall_congr' fun path => ?_
  rw [not_and, ← RawText.text?_ne_none_iff]

/-- **All or nothing, but for the summary.** A run that translates and fails changes nothing, or it
has translated what its arguments ask for and only its summary cannot be printed. A run with the
exit code 0 has translated what its arguments ask for, and its summary can be printed. -/
theorem perform_all_or_nothing {arguments : List RawText} {translation : Arguments}
    {tree tree' : FileTree} {exit : Exit} (htree : tree.Proper)
    (hread : Arguments.read arguments = .ok (.translate translation))
    (hrun : StateT.run (perform arguments : StateM FileTree Exit) tree = (exit, tree')) :
    (exit.code ≠ 0 → tree' = tree ∨
      tree.Unprintable translation ∧ tree.Translated translation tree') ∧
    (exit.code = 0 → ¬ tree.Unprintable translation ∧ tree.Translated translation tree') := by
  rcases perform_cases hread hrun with ⟨hexit, hsame⟩ | ⟨summary, hdone, hcode⟩
  · exact ⟨fun _ => Or.inl hsame, fun h => absurd h hexit⟩
  · rw [printable_iff htree hdone] at hcode
    have htranslated := translated_of_on_run htree hdone
    exact ⟨fun hexit => Or.inr ⟨not_not.mp (mt hcode.mpr hexit), htranslated⟩,
      fun hexit => ⟨hcode.mp hexit, htranslated⟩⟩

/-- **Every run leaves a tree that looks like a disk** if it was given one. -/
theorem perform_proper {arguments : List RawText} {translation : Arguments}
    {tree tree' : FileTree} {exit : Exit} (htree : tree.Proper)
    (hread : Arguments.read arguments = .ok (.translate translation))
    (hrun : StateT.run (perform arguments : StateM FileTree Exit) tree = (exit, tree')) :
    tree'.Proper := by
  rcases perform_cases hread hrun with ⟨-, rfl⟩ | ⟨summary, hdone, -⟩
  · exact htree
  · obtain ⟨-, output, -, t, place, -, -, -, -, hplace, -, rfl⟩ := on_run_eq_ok.mp hdone
    exact htree.put hplace

/-! ### Two runs -/

/-- A directory whose files are not listed in order. -/
def unordered : FileTree where
  entries := [([Text.raw "work"], .directory),
    ([Text.raw "work", Text.raw "B.vm"], .file "".toUTF8),
    ([Text.raw "work", Text.raw "A.vm"], .file "".toUTF8)]
  workingDirectory := [Text.raw "work"]

theorem unordered_proper : unordered.Proper := ⟨by decide, by decide, by decide, by decide⟩

theorem pathsIn_unordered :
    pathsIn unordered (Text.raw ".") [Text.raw "work"] =
      [Text.raw "./A.vm", Text.raw "./B.vm"] := by
  have hnames : unordered.namesAt [Text.raw "work"] = [Text.raw "B.vm", Text.raw "A.vm"] := by
    decide
  have hsort : ([Text.raw "B.vm", Text.raw "A.vm"].mergeSort fun a b => a ≤ b) =
      [Text.raw "A.vm", Text.raw "B.vm"] := by
    have hle : ¬ Text.raw "B.vm" ≤ Text.raw "A.vm" := by decide
    simp [List.mergeSort, List.MergeSort.Internal.splitInTwo, hle]
  rw [pathsIn, hnames, hsort]
  decide

/-- The sources in it. -/
def orderedSources : List Source := [⟨"./A.vm", "A", ""⟩, ⟨"./B.vm", "B", ""⟩]

/-- Where their output goes. -/
def unorderedOutput : Place := [Text.raw "work", Text.raw "work.asm"]

/-- They are found and read in order, and their output is named after the directory. -/
theorem exists_on_run_unordered :
    ∃ t summary, translate orderedSources { startUp := true } = .ok t ∧
      unordered.Asked (Text.raw ".") orderedSources ∧
      (run (.onPath (Text.raw ".")) : Stage (StateM FileTree) Summary).on unordered =
        (.ok summary, unordered.put unorderedOutput (.file t.text.toUTF8)) := by
  have hpath : unordered.resolve (Text.raw ".") = .ok ([Text.raw "work"], .directory) := rfl
  have hfiles : (discover (Text.raw ".") : Stage (StateM FileTree) (List SourceFile)).answer
      unordered = .ok [⟨Text.raw "./A.vm", "A"⟩, ⟨Text.raw "./B.vm", "B"⟩] := by
    refine answer_discover_eq_ok.mpr ⟨[Text.raw "./A.vm", Text.raw "./B.vm"],
      (answer_findSources_directory hpath).trans
        ((answer_listSources_eq_ok hpath).mpr ⟨pathsIn_unordered, by decide⟩), ?_⟩
    exact .cons rfl (.cons rfl .nil)
  have hsources : (readSources [⟨Text.raw "./A.vm", "A"⟩, ⟨Text.raw "./B.vm", "B"⟩] :
      Stage (StateM FileTree) (List Source)).answer unordered = .ok orderedSources := rfl
  have hevents : events orderedSources { startUp := true } =
      [.startUp MemoryMap.stackBase MemoryMap.defaultEntry, .file ⟨"./A.vm", "A", ""⟩,
        .file ⟨"./B.vm", "B", ""⟩] := rfl
  have htranslates : ∃ sites context, Translates {} (events orderedSources { startUp := true })
      sites context := by
    rw [hevents]
    exact ⟨_, _, .task (.startUp _ _) (@startUp_lowers { startUp := true } (by decide))
      (.file (.file (.nil _)))⟩
  obtain ⟨t, ht⟩ := exists_translate_iff.mpr htranslates
  have hoptions : options (.onPath (Text.raw "."))
      [⟨Text.raw "./A.vm", "A"⟩, ⟨Text.raw "./B.vm", "B"⟩] = { startUp := true } := rfl
  exact ⟨t, _, ht, (asked_of_readSources unordered_proper hfiles hsources).1,
    on_run_eq_ok.mpr ⟨_, _, _, t, _, hfiles, rfl, hsources, hoptions.symm ▸ ht, rfl, rfl, rfl⟩⟩

/-- The files of the directory are translated in order, and started up. -/
theorem perform_unordered :
    ∃ tree' t, StateT.run (perform [Text.raw "."] : StateM FileTree Exit) unordered =
        (⟨0, "", ""⟩, tree') ∧
      unordered.Asked (Text.raw ".") orderedSources ∧
      translate orderedSources { startUp := true } = .ok t ∧
      unordered.Written tree' [Text.raw "work", Text.raw "work.asm"] t.text := by
  obtain ⟨t, summary, ht, hasked, hdone⟩ := exists_on_run_unordered
  have hread : Arguments.read [Text.raw "."] = .ok (.translate (.onPath (Text.raw "."))) :=
    Arguments.read_singleton (by decide) (by decide)
  have hrun := run_perform hread unordered
  rw [hdone] at hrun
  obtain ⟨-, hsuccess⟩ := perform_all_or_nothing unordered_proper hread hrun
  obtain ⟨-, sources, startUp, t', place, ⟨-, hunique⟩, hstart, ht', hplace, -, hwritten, -⟩ :=
    hsuccess rfl
  obtain rfl := hunique _ hasked
  obtain rfl : startUp = true := hstart.mpr (Or.inr ⟨rfl, by decide⟩)
  have hdefault : unordered.DefaultOutput (Text.raw ".")
      ([] ++ [Text.raw "work"] ++ [outputName (Text.raw "work")]) := .directory rfl
  obtain rfl := hplace.unique (.byDefault rfl hdefault)
  rw [outputName_raw] at hwritten
  exact ⟨_, t', hrun, hasked, ht', hwritten⟩

/-- A directory whose name is no text, with one file. -/
def misnamed : FileTree where
  entries := [([Text.raw "work"], .directory),
    ([Text.raw "work", [100, 255]], .directory),
    ([Text.raw "work", [100, 255], Text.raw "X.vm"], .file "".toUTF8)]
  workingDirectory := [Text.raw "work"]

/-- The path of the file in it. -/
def misnamedPath : RawText := Path.join [100, 255] (Text.raw "X.vm")

/-- Where its output goes. -/
def misnamedOutput : Place := [Text.raw "work", [100, 255], Text.raw "X.asm"]

/-- The arguments that ask for its translation and for a summary. -/
def misnamedArguments : Arguments := { Arguments.onPath misnamedPath with summary := true }

theorem read_misnamed :
    Arguments.read [Text.raw "--summary-json", misnamedPath] =
      .ok (.translate misnamedArguments) := by
  have hflag : Arguments.readArgument {} (Text.raw "--summary-json") =
      .ok (.free { flags := [.summary] }) := rfl
  rw [Arguments.read, Arguments.readAll, hflag]
  · exact Arguments.readAll_singleton (by decide) (by decide) rfl
  · decide

/-- **A run may fail and have written its output.** The output of the file is written, and then the
summary cannot name the file. -/
theorem exists_late_failure :
    misnamed.Proper ∧
    Arguments.read [Text.raw "--summary-json", misnamedPath] =
      .ok (.translate misnamedArguments) ∧
    ∃ tree' bytes,
      StateT.run (perform [Text.raw "--summary-json", misnamedPath] : StateM FileTree Exit)
        misnamed = (⟨1, "", "Error: path contains invalid UTF-8 characters\n"⟩, tree') ∧
      misnamed.find? misnamedOutput = none ∧
      tree'.find? misnamedOutput = some (.file bytes) := by
  have hevents : events [⟨RawText.display misnamedPath, "X", ""⟩] {} =
      [.file ⟨RawText.display misnamedPath, "X", ""⟩] := rfl
  have htranslates : ∃ sites context,
      Translates {} (events [⟨RawText.display misnamedPath, "X", ""⟩] {}) sites context := by
    rw [hevents]
    exact ⟨_, _, .file (.nil _)⟩
  obtain ⟨t, ht⟩ := exists_translate_iff.mpr htranslates
  have hdone : (run misnamedArguments : Stage (StateM FileTree) Summary).on misnamed =
      (.ok ⟨[misnamedPath], Path.join [100, 255] (Text.raw "X.asm"), false, t.statistics⟩,
        misnamed.put misnamedOutput (.file t.text.toUTF8)) :=
    on_run_eq_ok.mpr ⟨[⟨misnamedPath, "X"⟩], _, _, t, _, rfl, rfl, rfl, ht, rfl, rfl, rfl⟩
  have hrun := run_perform read_misnamed misnamed
  rw [hdone] at hrun
  exact ⟨⟨by decide, by decide, by decide, by decide⟩, read_misnamed, _, t.text.toUTF8, hrun,
    rfl, FileTree.find?_put_self (by decide)⟩

end CommandLine

end HackStack
