import HackStack.Proofs.CommandLine.Sources

/-!
# Summaries that can be printed

A summary names the paths that a run has read and the path that it has written, and there is a text
for it if all of them are texts (`HackStack.Summary.render?_ne_none_iff`). The paths of the sources
are texts if the path that asks for them is one, since their names are. So whether there is a
summary is seen from the arguments alone (`HackStack.CommandLine.render?_ne_none_iff`).
-/

namespace HackStack

open RawText

/-- Raw texts can be read as texts if all of them are texts. -/
theorem mapM_text?_ne_none_iff {paths : List RawText} :
    paths.mapM text? ≠ none ↔ ∀ path ∈ paths, IsText path := by
  induction paths with
  | nil => simp
  | cons path rest ih =>
    rw [List.forall_mem_cons, ← ih, ← text?_ne_none_iff, List.mapM_cons]
    cases text? path <;> cases rest.mapM text? <;> simp

/-- **There is a text for a summary** if all its paths are texts. -/
theorem Summary.render?_ne_none_iff {summary : Summary} :
    summary.render? ≠ none ↔ (∀ path ∈ summary.inputs, IsText path) ∧ IsText summary.output := by
  rw [← mapM_text?_ne_none_iff, ← text?_ne_none_iff, Summary.render?]
  cases summary.inputs.mapM text? <;> cases text? summary.output <;> simp

namespace CommandLine

open Stage

variable {tree : FileTree} {path : RawText} {arguments : Arguments}

/-! ### Where the output goes -/

/-- The output of a directory whose name is a text is named like it. -/
theorem outputName_raw (name : String) :
    outputName (Text.raw name) = Path.extended (Text.raw name) outputExtension := by
  rw [outputName, display_raw]

theorem isText_outputExtension : IsText outputExtension := isText_raw "asm"

theorem isText_outputName (name : RawText) : IsText (outputName name) :=
  (Path.isText_extended_iff isText_outputExtension).mpr (isText_raw _)

/-- **The default output** of a text is a text. -/
theorem isText_defaultOutput {output : RawText} (h : IsText path)
    (houtput : (defaultOutput path : Stage (StateM FileTree) RawText).answer tree = .ok output) :
    IsText output := by
  rcases answer_defaultOutput_eq_ok.mp houtput with ⟨-, name, -, rfl⟩ | ⟨-, rfl⟩
  · exact (Path.isText_join_iff (isText_outputName name)).mpr h
  · exact Path.isText_withExtension h isText_outputExtension

/-! ### What the sources are called -/

/-- A file of commands that can be a source has its namespace in its name. -/
theorem fileName?_of_sourceFile {file : SourceFile} (h : isSourceOn tree path = true)
    (hfile : sourceFile path = .ok file) :
    Path.fileName? path = some (sourceName (Text.raw file.space)) := by
  obtain ⟨place, stem, bytes, hstem, hname, hpath⟩ := isSourceOn_iff.mp h
  obtain ⟨-, hspace⟩ := sourceFile_eq_ok.mp hfile
  rw [Path.stem?_eq hname hstem (by decide), Option.some.injEq] at hspace
  exact hspace ▸ hname

/-- **The sources that a path asks for** have texts as paths if the path is one. -/
theorem isText_path_iff (htree : tree.Proper) {files : List SourceFile} {file : SourceFile}
    (hfiles : (discover path : Stage (StateM FileTree) (List SourceFile)).answer tree = .ok files)
    (hfile : file ∈ files) : IsText file.path ↔ IsText path := by
  obtain ⟨paths, hpaths, hnamed⟩ := answer_discover_eq_ok.mp hfiles
  obtain ⟨found, hfound, hsource⟩ := exists_mem_of_forall₂ hnamed hfile
  obtain rfl : file.path = found := (sourceFile_eq_ok.mp hsource).1
  rcases exists_of_findSources hpaths with ⟨place, hpath, rfl, -⟩ | ⟨-, rfl⟩
  · obtain ⟨⟨name, hname, hjoin⟩, his⟩ := mem_pathsIn.mp hfound
    obtain ⟨hne, -, -⟩ := FileTree.follow_eq_ok.mp (FileTree.resolve_eq_ok.mp hpath).1
    have hlast := fileName?_of_sourceFile his hsource
    rw [← hjoin, Path.fileName?_join hne (htree.isFileName_of_mem_namesAt hname).1,
      Option.some.injEq] at hlast
    have htext : IsText name :=
      hlast ▸ (Path.isText_extended_iff (isText_raw "vm")).mpr (isText_raw _)
    rw [← hjoin, Path.isText_join_iff htext]
  · rw [List.mem_singleton.mp hfound]

/-- A directory without files of commands is not discovered at all. -/
theorem ne_nil_of_discover {files : List SourceFile}
    (hfiles : (discover path : Stage (StateM FileTree) (List SourceFile)).answer tree =
      .ok files) : files ≠ [] := by
  obtain ⟨paths, hpaths, hnamed⟩ := answer_discover_eq_ok.mp hfiles
  rintro rfl
  obtain rfl := List.forall₂_nil_right_iff.mp hnamed
  rcases exists_of_findSources hpaths with ⟨-, -, -, hne⟩ | ⟨-, hnil⟩
  · exact hne rfl
  · cases hnil

/-- **There is a summary of a run** if the paths in the arguments are texts. -/
theorem render?_ne_none_iff (htree : tree.Proper) {files : List SourceFile} {output : RawText}
    {startUp : Bool} {statistics : Statistics}
    (hfiles : (discover arguments.source : Stage (StateM FileTree) (List SourceFile)).answer tree =
      .ok files)
    (houtput : (outputPath arguments : Stage (StateM FileTree) RawText).answer tree = .ok output) :
    (Summary.mk (files.map SourceFile.path) output startUp statistics).render? ≠ none ↔
      IsText arguments.source ∧ ∀ path, arguments.output = some path → IsText path := by
  have hinputs : (∀ path ∈ files.map SourceFile.path, IsText path) ↔ IsText arguments.source := by
    rw [List.forall_mem_map]
    obtain ⟨first, hfirst⟩ := List.exists_mem_of_ne_nil files (ne_nil_of_discover hfiles)
    exact ⟨fun h => (isText_path_iff htree hfiles hfirst).mp (h first hfirst),
      fun h file hfile => (isText_path_iff htree hfiles hfile).mpr h⟩
  rw [Summary.render?_ne_none_iff]
  dsimp only
  rw [hinputs]
  refine and_congr_right fun hsource => ?_
  cases htold : arguments.output with
  | some path =>
    rw [answer, outputPath, htold] at houtput
    obtain rfl : path = output := Except.ok.inj houtput
    simp
  | none =>
    rw [answer, outputPath, htold] at houtput
    simp [isText_defaultOutput hsource houtput]

end CommandLine

end HackStack
