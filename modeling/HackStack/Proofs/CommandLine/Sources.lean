import HackStack.Proofs.CommandLine.Places
import HackStack.Proofs.CommandLine.Stages

/-!
# The sources of a run

The sources that a path asks for are described by what lies on the tree, and not by the order in
which it lists a directory: they are the file of commands that the path leads to, or all those in
the directory that it leads to (`HackStack.FileTree.Asked`). There is at most one such list
(`HackStack.FileTree.Asked.unique`), and it is the one that a run finds and reads
(`HackStack.CommandLine.asked_of_readSources`).
-/

namespace HackStack

open CommandLine Stage

/-- The name of a file of commands. -/
def sourceName (stem : RawText) : RawText := Path.extended stem sourceExtension

theorem sourceName_inj {stem stem' : RawText} :
    sourceName stem = sourceName stem' ↔ stem = stem' := Path.extended_inj

/-- The name of the file of commands that a source is. -/
def Source.name (source : Source) : RawText := sourceName (Text.raw source.space)

theorem Source.name_inj {source source' : Source} :
    source.name = source'.name ↔ source.space = source'.space :=
  sourceName_inj.trans Text.raw_inj

namespace FileTree

variable {tree : FileTree} {path : RawText} {place : Place} {source : Source}
  {sources sources' : List Source}

/-! ### Sources -/

/-- **A source is held** in a directory: the file has its namespace as stem, and the source is its
text. -/
structure HoldsSource (tree : FileTree) (directory : Place) (source : Source) : Prop where
  space_ne : source.space ≠ ""
  find?_eq : tree.find? (directory ++ [source.name]) = some (.file source.text.toUTF8)

/-- **The sources that a directory lists**: all the files of commands in it, in the order of the
bytes of their names. A file whose path is too long to be followed is not found. -/
structure Lists (tree : FileTree) (path : RawText) (directory : Place) (sources : List Source) :
    Prop where
  holds : ∀ source ∈ sources, tree.HoldsSource directory source
  file_eq : ∀ source ∈ sources, source.file = RawText.display (Path.join path source.name)
  length_le : ∀ source ∈ sources, (Path.join path source.name).length ≤ maxPath
  complete : ∀ stem bytes, stem ≠ [] →
    tree.find? (directory ++ [sourceName stem]) = some (.file bytes) →
    (Path.join path (sourceName stem)).length ≤ maxPath →
    ∃ source ∈ sources, Text.raw source.space = stem
  sorted : sources.Pairwise fun first second => first.name < second.name

/-- **The sources that a path asks for**: the file of commands that it leads to, or all those in the
directory that it leads to. -/
inductive Asked (tree : FileTree) (path : RawText) : List Source → Prop
  | file {directory : Place} {bytes : ByteArray} {source : Source}
      (hpath : tree.resolve path = .ok (directory ++ [source.name], .file bytes))
      (hholds : tree.HoldsSource directory source) (hfile : source.file = RawText.display path) :
      Asked tree path [source]
  | directory {directory : Place} {sources : List Source}
      (hpath : tree.resolve path = .ok (directory, .directory))
      (hlists : tree.Lists path directory sources) (hne : sources ≠ []) :
      Asked tree path sources

/-- One place holds one source. -/
theorem HoldsSource.ext {source' : Source} (h : tree.HoldsSource place source)
    (h' : tree.HoldsSource place source') (hfile : source.file = source'.file)
    (hspace : source.space = source'.space) : source = source' := by
  have hfind := h.find?_eq
  rw [Source.name_inj.mpr hspace, h'.find?_eq, Option.some.injEq, Entry.file.injEq] at hfind
  have htext : source'.text = source.text := String.toByteArray_inj.mp hfind
  cases source
  cases source'
  cases hfile
  cases hspace
  cases htext
  rfl

theorem Lists.subset (h : tree.Lists path place sources) (h' : tree.Lists path place sources') :
    sources ⊆ sources' := by
  intro source hsource
  have hheld := h.holds source hsource
  have hstem : Text.raw source.space ≠ [] := fun he => hheld.space_ne (Text.raw_inj.mp he)
  obtain ⟨other, hother, hstems⟩ :=
    h'.complete _ _ hstem hheld.find?_eq (h.length_le source hsource)
  have hspace : other.space = source.space := Text.raw_inj.mp hstems
  have hfile : source.file = other.file := by
    rw [h.file_eq source hsource, h'.file_eq other hother, Source.name_inj.mpr hspace]
  rwa [hheld.ext (h'.holds other hother) hfile hspace.symm]

theorem Lists.nodup (h : tree.Lists path place sources) : sources.Nodup :=
  h.sorted.imp (S := (· ≠ ·)) fun hlt he => List.lt_irrefl _ (he ▸ hlt)

/-- **A directory lists its files in one way.** -/
theorem Lists.unique (h : tree.Lists path place sources) (h' : tree.Lists path place sources') :
    sources = sources' := by
  have hperm : sources.Perm sources' :=
    (List.perm_ext_iff_of_nodup h.nodup h'.nodup).mpr fun source =>
      ⟨fun hmem => h.subset h' hmem, fun hmem => h'.subset h hmem⟩
  exact hperm.eq_of_pairwise (fun first second _ _ hlt hgt => absurd hgt (List.lt_asymm hlt))
    h.sorted h'.sorted

/-- **The sources are determined** by what lies on the tree. -/
theorem Asked.unique (h : tree.Asked path sources) (h' : tree.Asked path sources') :
    sources = sources' := by
  cases h with
  | file hpath hholds hfile =>
    cases h' with
    | file hpath' hholds' hfile' =>
      obtain ⟨hplace, -⟩ := Prod.mk.inj (Except.ok.inj (hpath.symm.trans hpath'))
      obtain ⟨rfl, hname⟩ := List.append_inj' hplace rfl
      have hspace := Source.name_inj.mp (List.singleton_inj.mp hname)
      rw [hholds.ext hholds' (hfile.trans hfile'.symm) hspace]
    | directory hpath' => exact nomatch hpath.symm.trans hpath'
  | directory hpath hlists =>
    cases h' with
    | file hpath' => exact nomatch hpath.symm.trans hpath'
    | directory hpath' hlists' =>
      obtain ⟨rfl, -⟩ := Prod.mk.inj (Except.ok.inj (hpath.symm.trans hpath'))
      exact hlists.unique hlists'

/-! ### Finding sources -/

theorem kind?_eq_some {kind : FileKind} :
    tree.kind? path = some kind ↔
      ∃ place entry, tree.resolve path = .ok (place, entry) ∧ entry.kind = kind := by
  rw [kind?]
  cases tree.resolve path with
  | error why => simp
  | ok found =>
    rw [Option.some.injEq]
    constructor
    · exact fun h => ⟨_, _, rfl, h⟩
    · rintro ⟨place, entry, hfound, h⟩
      exact Except.ok.inj hfound ▸ h

end FileTree

namespace CommandLine

variable {tree : FileTree} {path : RawText} {place : Place} {source : Source}
  {sources : List Source}

/-- **A file of commands** has a stem, and its name is that of the file that the path leads to. -/
theorem isSourceOn_iff :
    isSourceOn tree path = true ↔ ∃ place stem bytes, stem ≠ [] ∧
      Path.fileName? path = some (sourceName stem) ∧
      tree.resolve path = .ok (place ++ [sourceName stem], .file bytes) := by
  rw [isSourceOn, decide_eq_true_eq, FileTree.kind?_eq_some, Path.extension?_eq_some_iff]
  constructor
  · rintro ⟨⟨place, entry, hpath, hkind⟩, stem, hname, hstem, -⟩
    obtain ⟨-, -, above, -, -, -, rfl, -⟩ := FileTree.exists_of_fileName? hname hpath
    cases entry with
    | file bytes => exact ⟨above, stem, bytes, hstem, hname, hpath⟩
    | directory => exact nomatch hkind
  · rintro ⟨place, stem, bytes, hstem, hname, hpath⟩
    exact ⟨⟨_, _, hpath, rfl⟩, stem, hname, hstem, by decide⟩

/-- **A path is read** as the source that is made of the file of commands at the path. -/
def Reads (tree : FileTree) (path : RawText) (source : Source) : Prop :=
  ∃ file, sourceFile path = .ok file ∧
    (readSource file : Stage (StateM FileTree) Source).answer tree = .ok source

/-- **What is discovered and read** are the paths that are found. -/
theorem forall₂_reads {paths : List RawText} {files : List SourceFile}
    (hfiles : List.Forall₂ (fun path file => sourceFile path = .ok file) paths files)
    (hsources : (readSources files : Stage (StateM FileTree) (List Source)).answer tree =
      .ok sources) : List.Forall₂ (Reads tree) paths sources := by
  have hread := answer_readSources_eq_ok.mp hsources
  clear hsources
  induction hfiles generalizing sources with
  | nil =>
    cases hread
    exact .nil
  | cons hfile hfiles ih =>
    cases hread with
    | cons hsource hsources => exact .cons ⟨_, hfile, hsource⟩ (ih hsources)

/-- **A file of commands is read** as the source that it holds. -/
theorem holdsSource_of_reads (h : isSourceOn tree path = true) (hread : Reads tree path source) :
    ∃ place bytes, Path.fileName? path = some source.name ∧
      source.file = RawText.display path ∧
      tree.resolve path = .ok (place ++ [source.name], .file bytes) ∧
      tree.HoldsSource place source := by
  obtain ⟨place, stem, bytes, hstem, hname, hpath⟩ := isSourceOn_iff.mp h
  obtain ⟨file, hfile, hsource⟩ := hread
  obtain ⟨hfilepath, hspace⟩ := sourceFile_eq_ok.mp hfile
  obtain ⟨bytes', text, hbytes, htext, rfl⟩ := answer_readSource_eq_ok.mp hsource
  rw [hfilepath, FileTree.read, hpath] at hbytes
  obtain rfl : bytes = bytes' := Except.ok.inj hbytes
  have hutf8 : bytes = text.toUTF8 := by
    rw [String.fromUTF8?] at htext
    split at htext
    next => exact Option.some.inj htext ▸ rfl
    next => cases htext
  rw [Path.stem?_eq hname hstem (by decide), Option.some.injEq] at hspace
  have hne : file.space ≠ "" := by
    intro he
    rw [he] at hspace
    exact hstem hspace
  subst hspace
  exact ⟨place, bytes, hname, congrArg RawText.display hfilepath, hpath, hne,
    hutf8 ▸ (FileTree.resolve_eq_ok.mp hpath).2⟩

/-- The files of commands in a directory, by the order of their names. -/
def pathsIn (tree : FileTree) (path : RawText) (directory : Place) : List RawText :=
  (((tree.namesAt directory).mergeSort fun a b => a ≤ b).map (Path.join path)).filter
    (isSourceOn tree)

theorem answer_listSources_eq_ok {paths : List RawText}
    (hpath : tree.resolve path = .ok (place, .directory)) :
    (listSources path : Stage (StateM FileTree) (List RawText)).answer tree = .ok paths ↔
      pathsIn tree path place = paths ∧ paths ≠ [] := by
  have hnames : (ask (.unlisted path) (Disk.names path) :
      Stage (StateM FileTree) (List RawText)).on tree = (.ok (tree.namesAt place), tree) := by
    have hrun : StateT.run (Disk.names path : StateM FileTree (Except DiskError (List RawText)))
        tree = (tree.names path, tree) := rfl
    rw [on_ask, hrun, FileTree.names, hpath]
    rfl
  have hkept : (liftM (keepSources (((tree.namesAt place).mergeSort fun a b => a ≤ b).map
      (Path.join path)) : StateM FileTree (List RawText)) :
        Stage (StateM FileTree) (List RawText)).on tree =
          (.ok (pathsIn tree path place), tree) := by
    change (Except.ok (StateT.run (keepSources _ : StateM FileTree (List RawText)) tree).1,
      (StateT.run (keepSources _ : StateM FileTree (List RawText)) tree).2) = _
    rw [run_keepSources]
    rfl
  rw [answer, listSources, on_bind, hnames]
  dsimp only
  rw [on_bind, hkept]
  cases hpaths : pathsIn tree path place with
  | nil =>
    constructor
    · intro h
      cases h
    · rintro ⟨rfl, hne⟩
      exact absurd rfl hne
  | cons first rest =>
    constructor
    · intro h
      obtain rfl : first :: rest = paths := Except.ok.inj h
      exact ⟨rfl, List.cons_ne_nil _ _⟩
    · exact fun h => congrArg Except.ok h.1

theorem answer_findSources_directory (hpath : tree.resolve path = .ok (place, .directory)) :
    (findSources path : Stage (StateM FileTree) (List RawText)).answer tree =
      (listSources path : Stage (StateM FileTree) (List RawText)).answer tree := by
  rw [answer, findSources, on_bind, on_kind?, FileTree.kind?_eq_some.mpr ⟨_, _, hpath, rfl⟩]
  rfl

/-- **What is found** are the files of commands in a directory, or one file of commands. -/
theorem exists_of_findSources {paths : List RawText}
    (h : (findSources path : Stage (StateM FileTree) (List RawText)).answer tree = .ok paths) :
    (∃ place, tree.resolve path = .ok (place, .directory) ∧ pathsIn tree path place = paths ∧
      paths ≠ []) ∨
    (isSourceOn tree path = true ∧ paths = [path]) := by
  have hlooks : (liftM (isSource path : StateM FileTree Bool) :
      Stage (StateM FileTree) Bool).on tree = (.ok (isSourceOn tree path), tree) := rfl
  cases hdirectory : tree.kind? path with
  | none =>
    rw [answer, findSources, on_bind, on_kind?, hdirectory] at h
    cases h
  | some kind =>
    obtain ⟨place, entry, hpath, rfl⟩ := FileTree.kind?_eq_some.mp hdirectory
    cases entry with
    | directory =>
      rw [answer_findSources_directory hpath, answer_listSources_eq_ok hpath] at h
      exact Or.inl ⟨place, hpath, h⟩
    | file bytes =>
      rw [answer, findSources, on_bind, on_kind?, hdirectory] at h
      dsimp only [Entry.kind] at h
      rw [on_bind, hlooks] at h
      dsimp only at h
      split at h
      next hsource => exact Or.inr ⟨hsource, (Except.ok.inj h).symm⟩
      next => cases h

/-- **Names are put in order.** -/
theorem pairwise_mergeSort {names : List RawText} (h : names.Nodup) :
    (names.mergeSort fun a b => a ≤ b).Pairwise (· < ·) := by
  have hle := @List.pairwise_mergeSort _ (fun a b : RawText => decide (a ≤ b))
    (fun _ _ _ hab hbc => by
      simpa using List.le_trans (by simpa using hab) (by simpa using hbc))
    (fun a b => by simpa using List.le_total a b) names
  have hnodup := (List.mergeSort_perm names fun a b => decide (a ≤ b)).nodup_iff.mpr h
  exact hle.imp₂ (fun a b hab hne => List.not_le.mp fun hba =>
    hne (List.le_antisymm (by simpa using hab) hba)) hnodup

theorem mem_pathsIn {found : RawText} :
    found ∈ pathsIn tree path place ↔
      (∃ name ∈ tree.namesAt place, Path.join path name = found) ∧
        isSourceOn tree found = true := by
  rw [pathsIn, List.mem_filter, List.mem_map]
  simp only [List.mem_mergeSort]

/-- A file in a directory is read as a source that the directory holds. -/
theorem holdsSource_of_join {name : RawText} (hpath : tree.resolve path = .ok (place, .directory))
    (hname : Path.IsFileName name) (h : isSourceOn tree (Path.join path name) = true)
    (hread : Reads tree (Path.join path name) source) :
    name = source.name ∧ source.file = RawText.display (Path.join path name) ∧
      (Path.join path name).length ≤ FileTree.maxPath ∧ tree.HoldsSource place source := by
  obtain ⟨inner, bytes, hsource, hfile, hinner, hholds⟩ := holdsSource_of_reads h hread
  obtain ⟨hne, -, -⟩ := FileTree.follow_eq_ok.mp (FileTree.resolve_eq_ok.mp hpath).1
  rw [Path.fileName?_join hne hname, Option.some.injEq] at hsource
  obtain ⟨hsize, -, hplace, -⟩ := (FileTree.resolve_join hpath hname).mp hinner
  obtain ⟨rfl, -⟩ := List.append_inj' hplace rfl
  exact ⟨hsource, hfile, hsize, hholds⟩

/-- **The names of the sources** are those of the directory that are kept, in their order. -/
theorem map_name_eq (htree : tree.Proper)
    (hpath : tree.resolve path = .ok (place, .directory))
    (hsources : List.Forall₂ (Reads tree) (pathsIn tree path place) sources) :
    sources.map Source.name =
      ((tree.namesAt place).mergeSort fun a b => a ≤ b).filter
        (isSourceOn tree ∘ Path.join path) := by
  rw [pathsIn, List.filter_map, List.forall₂_map_left_iff] at hsources
  have hkept :=
    (List.forall₂_and_left _ _).mpr ⟨fun name hname => List.mem_filter.mp hname, hsources⟩
  have hnamed := hkept.imp fun name source ⟨⟨hmem, hsource⟩, hread⟩ =>
    (holdsSource_of_join hpath
      (htree.isFileName_of_mem_namesAt (List.mem_mergeSort.mp hmem)).1 hsource hread).1
  rw [← List.forall₂_map_right_iff (R := (· = ·)), List.forall₂_eq_eq_eq] at hnamed
  exact hnamed.symm

/-- **A file of commands in a directory is found**, unless its path is too long. -/
theorem isSourceOn_join {stem : RawText} {bytes : ByteArray} (htree : tree.Proper)
    (hpath : tree.resolve path = .ok (place, .directory)) (hstem : stem ≠ [])
    (hfind : tree.find? (place ++ [sourceName stem]) = some (.file bytes))
    (hsize : (Path.join path (sourceName stem)).length ≤ FileTree.maxPath) :
    sourceName stem ∈ tree.namesAt place ∧
      isSourceOn tree (Path.join path (sourceName stem)) = true := by
  have hlisted : sourceName stem ∈ tree.namesAt place :=
    FileTree.mem_namesAt.mpr ⟨_, (htree.find?_eq_some_iff (by simp)).mp hfind⟩
  obtain ⟨hname, hshort⟩ := htree.isFileName_of_mem_namesAt hlisted
  obtain ⟨hne, -, -⟩ := FileTree.follow_eq_ok.mp (FileTree.resolve_eq_ok.mp hpath).1
  refine ⟨hlisted, isSourceOn_iff.mpr ⟨place, stem, bytes, hstem, ?_, ?_⟩⟩
  · exact Path.fileName?_join hne hname
  · exact (FileTree.resolve_join hpath hname).mpr ⟨hsize, hshort, rfl, hfind⟩

/-- **The files in a directory are read** as the sources that it lists. -/
theorem lists_of_forall₂_reads (htree : tree.Proper)
    (hpath : tree.resolve path = .ok (place, .directory))
    (hsources : List.Forall₂ (Reads tree) (pathsIn tree path place) sources) :
    tree.Lists path place sources := by
  have hnames := map_name_eq htree hpath hsources
  have hread : ∀ source ∈ sources, source.file = RawText.display (Path.join path source.name) ∧
      (Path.join path source.name).length ≤ FileTree.maxPath ∧
      tree.HoldsSource place source := by
    intro source hmem
    obtain ⟨found, hfound, hread⟩ := exists_mem_of_forall₂ hsources hmem
    obtain ⟨⟨name, hname, rfl⟩, hsource⟩ := mem_pathsIn.mp hfound
    obtain ⟨rfl, hfile, hsize, hholds⟩ := holdsSource_of_join hpath
      (htree.isFileName_of_mem_namesAt hname).1 hsource hread
    exact ⟨hfile, hsize, hholds⟩
  constructor
  case holds =>
    intro source hmem
    exact (hread source hmem).2.2
  case file_eq =>
    intro source hmem
    exact (hread source hmem).1
  case length_le =>
    intro source hmem
    exact (hread source hmem).2.1
  case complete =>
    intro stem bytes hstem hfind hsize
    obtain ⟨hlisted, hsource⟩ := isSourceOn_join htree hpath hstem hfind hsize
    have hmem : sourceName stem ∈ sources.map Source.name :=
      hnames ▸ List.mem_filter.mpr ⟨List.mem_mergeSort.mpr hlisted, hsource⟩
    obtain ⟨source, hmem, hname⟩ := List.mem_map.mp hmem
    exact ⟨source, hmem, sourceName_inj.mp hname⟩
  case sorted =>
    have hpairwise := hnames ▸ (pairwise_mergeSort (htree.nodup_namesAt place)).filter _
    exact List.pairwise_map.mp hpairwise

/-- **What is found is what is asked for.** -/
theorem asked_of_readSources (htree : tree.Proper) {files : List SourceFile}
    (hfiles : (discover path : Stage (StateM FileTree) (List SourceFile)).answer tree = .ok files)
    (hsources : (readSources files : Stage (StateM FileTree) (List Source)).answer tree =
      .ok sources) : tree.Asked path sources ∧ sources.length = files.length := by
  obtain ⟨paths, hpaths, hnamed⟩ := answer_discover_eq_ok.mp hfiles
  have hreads := forall₂_reads hnamed hsources
  refine ⟨?_, (answer_readSources_eq_ok.mp hsources).length_eq.symm⟩
  rcases exists_of_findSources hpaths with ⟨place, hpath, rfl, hne⟩ | ⟨hsource, rfl⟩
  · refine .directory hpath (lists_of_forall₂_reads htree hpath hreads) ?_
    rintro rfl
    exact hne (List.forall₂_nil_right_iff.mp hreads)
  · obtain ⟨source, _, hread, hnil, rfl⟩ := List.forall₂_cons_left_iff.mp hreads
    obtain rfl := List.forall₂_nil_left_iff.mp hnil
    obtain ⟨place, bytes, -, hfile, hpath, hholds⟩ := holdsSource_of_reads hsource hread
    exact .file hpath hholds hfile

end CommandLine

end HackStack
