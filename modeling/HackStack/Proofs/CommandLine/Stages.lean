import Mathlib.Data.List.Forall2
import HackStack.CommandLine
import HackStack.CommandLine.FileTree
import HackStack.Proofs.Text.Raw
import HackStack.Step

/-!
# Stages on a file tree

A run of the command line only looks at the disk until it writes its output. So on a file tree all
stages but the last are quiet (`HackStack.CommandLine.Stage.Quiet`): they leave the tree as it is,
and what they answer (`HackStack.CommandLine.Stage.answer`) is a function of the tree. A run is then
a chain of answers and one write; that is `HackStack.CommandLine.on_run_eq_ok`. It fails before the
write, or the write is done and only the summary may fail (`HackStack.CommandLine.perform_cases`).
-/

namespace HackStack

namespace CommandLine

variable {α β : Type}

/-- What is in the second of two lists that belong together belongs to something in the first. -/
theorem exists_mem_of_forall₂ {R : α → β → Prop} {as : List α} {bs : List β} {b : β}
    (h : List.Forall₂ R as bs) (hb : b ∈ bs) : ∃ a ∈ as, R a b := by
  induction h with
  | nil => exact absurd hb List.not_mem_nil
  | @cons first other as bs hfirst _ ih =>
    rcases List.mem_cons.mp hb with rfl | hb
    · exact ⟨first, List.mem_cons_self, hfirst⟩
    · obtain ⟨a, ha, hr⟩ := ih hb
      exact ⟨a, List.mem_cons_of_mem _ ha, hr⟩

/-- **Questions that are asked one after the other** are answered if each of them is. -/
theorem mapM_eq_ok_iff {f : α → Except Trouble β} {as : List α} {bs : List β} :
    as.mapM f = .ok bs ↔ List.Forall₂ (fun a b => f a = .ok b) as bs := by
  induction as generalizing bs with
  | nil =>
    rw [List.forall₂_nil_left_iff]
    exact ⟨fun h => (Except.ok.inj h).symm, fun h => congrArg Except.ok h.symm⟩
  | cons a rest ih =>
    rw [List.mapM_cons, bind_eq_ok_iff, List.forall₂_cons_left_iff]
    refine exists_congr fun b => ?_
    constructor
    · rintro ⟨hb, h⟩
      obtain ⟨others, hothers, h⟩ := bind_eq_ok_iff.mp h
      exact ⟨others, hb, ih.mp hothers, (Except.ok.inj h).symm⟩
    · rintro ⟨others, hb, hothers, rfl⟩
      exact ⟨hb, bind_eq_ok_iff.mpr ⟨others, ih.mpr hothers, rfl⟩⟩

/-! ### Running a stage -/

namespace Stage

/-- What a stage answers on a file tree, and the tree that it leaves behind. -/
def on (stage : Stage (StateM FileTree) α) (tree : FileTree) : Except Trouble α × FileTree :=
  StateT.run (ExceptT.run stage) tree

/-- **What a stage answers** on a file tree. -/
def answer (stage : Stage (StateM FileTree) α) (tree : FileTree) : Except Trouble α :=
  (stage.on tree).1

theorem on_pure (a : α) (tree : FileTree) :
    (pure a : Stage (StateM FileTree) α).on tree = (.ok a, tree) := rfl

theorem on_throw (trouble : Trouble) (tree : FileTree) :
    (throw trouble : Stage (StateM FileTree) α).on tree = (.error trouble, tree) := rfl

/-- A stage goes on where the one before has ended. -/
theorem on_bind (stage : Stage (StateM FileTree) α) (next : α → Stage (StateM FileTree) β)
    (tree : FileTree) :
    (stage >>= next).on tree =
      match stage.on tree with
      | (.ok a, between) => (next a).on between
      | (.error trouble, between) => (.error trouble, between) := by
  unfold on ExceptT.run StateT.run
  simp only [bind, ExceptT.bind, ExceptT.mk, StateT.bind, ExceptT.bindCont]
  rcases stage tree with ⟨_ | _, between⟩ <;> rfl

/-! ### Quiet stages -/

/-- **A stage that only looks at the disk.** -/
def Quiet (stage : Stage (StateM FileTree) α) : Prop := ∀ tree, (stage.on tree).2 = tree

theorem Quiet.on_eq {stage : Stage (StateM FileTree) α} (h : stage.Quiet) (tree : FileTree) :
    stage.on tree = (stage.answer tree, tree) := Prod.ext rfl (h tree)

/-- **Behind a quiet stage** the tree is the same. -/
theorem Quiet.on_bind {stage : Stage (StateM FileTree) α} (h : stage.Quiet)
    (next : α → Stage (StateM FileTree) β) (tree : FileTree) :
    (stage >>= next).on tree =
      match stage.answer tree with
      | .ok a => (next a).on tree
      | .error trouble => (.error trouble, tree) := by
  rw [Stage.on_bind, h.on_eq]
  cases stage.answer tree <;> rfl

/-- **The answers of quiet stages** are put together as questions to one tree. -/
theorem Quiet.answer_bind {stage : Stage (StateM FileTree) α} (h : stage.Quiet)
    (next : α → Stage (StateM FileTree) β) (tree : FileTree) :
    (stage >>= next).answer tree = stage.answer tree >>= fun a => (next a).answer tree := by
  rw [answer, h.on_bind]
  cases stage.answer tree <;> rfl

theorem quiet_pure (a : α) : (pure a : Stage (StateM FileTree) α).Quiet := fun _ => rfl

theorem quiet_throw (trouble : Trouble) :
    (throw trouble : Stage (StateM FileTree) α).Quiet := fun _ => rfl

/-- Looking goes on as long as each stage looks. -/
theorem Quiet.bind {stage : Stage (StateM FileTree) α} {next : α → Stage (StateM FileTree) β}
    (h : stage.Quiet) (hnext : ∀ a, (next a).Quiet) : (stage >>= next).Quiet := by
  intro tree
  rw [h.on_bind]
  cases stage.answer tree with
  | ok a => exact hnext a tree
  | error trouble => rfl

theorem quiet_ofExcept (result : Except Trouble α) :
    (MonadExcept.ofExcept result : Stage (StateM FileTree) α).Quiet := by
  cases result with
  | ok a => exact quiet_pure a
  | error trouble => exact quiet_throw trouble

theorem answer_ofExcept (result : Except Trouble α) (tree : FileTree) :
    (MonadExcept.ofExcept result : Stage (StateM FileTree) α).answer tree = result := by
  cases result <;> rfl

/-- A question that cannot fail. -/
theorem quiet_liftM {question : StateM FileTree α}
    (h : ∀ tree, (StateT.run question tree).2 = tree) :
    (liftM question : Stage (StateM FileTree) α).Quiet := h

end Stage

open Stage

/-- What the disk answers is what the stage answers, and its errors are named. -/
theorem on_ask (trouble : DiskError → Trouble) (question : StateM FileTree (Except DiskError α))
    (tree : FileTree) :
    (ask trouble question).on tree =
      match StateT.run question tree with
      | (.ok a, between) => (.ok a, between)
      | (.error why, between) => (.error (trouble why), between) := by
  cases h : StateT.run question tree with
  | mk result between =>
    have hlift : (liftM question : Stage (StateM FileTree) (Except DiskError α)).on tree =
        (.ok result, between) := by
      change (Except.ok (StateT.run question tree).1, (StateT.run question tree).2) = _
      rw [h]
    rw [ask, on_bind, hlift]
    cases result <;> rfl

/-- A question that may fail. -/
theorem quiet_ask {trouble : DiskError → Trouble} {question : StateM FileTree (Except DiskError α)}
    (h : ∀ tree, (StateT.run question tree).2 = tree) : (ask trouble question).Quiet := by
  rw [ask]
  refine (quiet_liftM h).bind fun result => ?_
  cases result with
  | ok answer => exact quiet_pure answer
  | error why => exact quiet_throw (trouble why)

/-! ### Looking for sources -/

/-- Whether a path leads to a file of commands. -/
def isSourceOn (tree : FileTree) (path : RawText) : Bool :=
  tree.kind? path = some .file ∧ Path.extension? path = some sourceExtension

/-- The disk says what a path leads to. -/
theorem on_kind? (path : RawText) (tree : FileTree) :
    (liftM (Disk.kind? path : StateM FileTree (Option FileKind)) :
      Stage (StateM FileTree) (Option FileKind)).on tree = (.ok (tree.kind? path), tree) := rfl

/-- **The files of commands are kept**, in their order. -/
theorem run_keepSources (paths : List RawText) (tree : FileTree) :
    StateT.run (keepSources paths : StateM FileTree (List RawText)) tree =
      (paths.filter (isSourceOn tree), tree) := by
  induction paths with
  | nil => rfl
  | cons path rest ih =>
    have hlooks : StateT.run (isSource path : StateM FileTree Bool) tree =
        (isSourceOn tree path, tree) := rfl
    rw [keepSources, StateT.run_bind, hlooks, List.filter_cons]
    cases isSourceOn tree path with
    | false => exact ih
    | true =>
      change StateT.run ((path :: ·) <$> keepSources rest) tree = _
      rw [StateT.run_map, ih]
      rfl

theorem quiet_listSources (directory : RawText) :
    (listSources directory : Stage (StateM FileTree) (List RawText)).Quiet := by
  refine (quiet_ask fun _ => rfl).bind fun names => ?_
  refine (quiet_liftM fun tree => by rw [run_keepSources]).bind fun paths => ?_
  cases paths with
  | nil => exact quiet_throw _
  | cons path rest => exact quiet_pure _

theorem quiet_findSources (path : RawText) :
    (findSources path : Stage (StateM FileTree) (List RawText)).Quiet := by
  refine (quiet_liftM fun _ => rfl).bind fun kind => ?_
  have hfile : (do
      if ← (isSource path : StateM FileTree Bool) then return [path]
      else throw (.notASource path) : Stage (StateM FileTree) (List RawText)).Quiet := by
    refine (quiet_liftM fun _ => rfl).bind fun source => ?_
    cases source with
    | true => exact quiet_pure _
    | false => exact quiet_throw _
  match kind with
  | some .directory => exact quiet_listSources path
  | some .file => exact hfile
  | some .other => exact hfile
  | none => exact quiet_throw _

theorem quiet_discover (path : RawText) :
    (discover path : Stage (StateM FileTree) (List SourceFile)).Quiet :=
  (quiet_findSources path).bind fun _ => quiet_ofExcept _

/-- **A file of commands is named by its stem**, which has to be a text. -/
theorem sourceFile_eq_ok {path : RawText} {file : SourceFile} :
    sourceFile path = .ok file ↔
      file.path = path ∧ Path.stem? path = some (Text.raw file.space) := by
  rw [sourceFile]
  cases hstem : Path.stem? path with
  | none => simp
  | some stem =>
    rw [Option.bind_some, Option.some.injEq]
    cases htext : RawText.text? stem with
    | none =>
      refine ⟨fun h => (by cases h), fun h => ?_⟩
      rw [RawText.text?_eq_some_iff.mpr h.2] at htext
      cases htext
    | some space =>
      rw [RawText.text?_eq_some_iff] at htext
      rw [htext, Text.raw_inj, Except.ok.injEq]
      constructor
      · rintro rfl
        exact ⟨rfl, rfl⟩
      · rintro ⟨rfl, rfl⟩
        rfl

/-- **The files that are discovered** are those whose paths are found, and all can be named. -/
theorem answer_discover_eq_ok {tree : FileTree} {path : RawText} {files : List SourceFile} :
    (discover path : Stage (StateM FileTree) (List SourceFile)).answer tree = .ok files ↔
      ∃ paths, (findSources path : Stage (StateM FileTree) (List RawText)).answer tree =
        .ok paths ∧ List.Forall₂ (fun path file => sourceFile path = .ok file) paths files := by
  rw [discover, (quiet_findSources path).answer_bind, bind_eq_ok_iff]
  refine exists_congr fun paths => and_congr_right fun _ => ?_
  rw [answer_ofExcept, mapM_eq_ok_iff]

/-! ### Naming the output -/

theorem quiet_directoryName (directory : RawText) :
    (directoryName directory : Stage (StateM FileTree) RawText).Quiet := by
  rw [directoryName]
  cases Path.fileName? directory with
  | some name => exact quiet_pure name
  | none =>
    refine (quiet_ask fun _ => rfl).bind fun absolute => ?_
    cases Path.fileName? absolute with
    | some name => exact quiet_pure name
    | none => exact quiet_throw _

/-- **The default output** is named after a directory, or else after the path itself. -/
theorem answer_defaultOutput_eq_ok {tree : FileTree} {path output : RawText} :
    (defaultOutput path : Stage (StateM FileTree) RawText).answer tree = .ok output ↔
      (tree.kind? path = some .directory ∧ ∃ name,
        (directoryName path : Stage (StateM FileTree) RawText).answer tree = .ok name ∧
          Path.join path (outputName name) = output) ∨
      (tree.kind? path ≠ some .directory ∧
        Path.withExtension path outputExtension = output) := by
  rw [answer, defaultOutput, on_bind, on_kind?]
  dsimp only
  split
  next hdirectory =>
    rw [← answer, (quiet_directoryName path).answer_bind, bind_eq_ok_iff]
    simp [hdirectory, answer, on_pure]
  next hother =>
    have hne : tree.kind? path ≠ some .directory := hother
    simp [hne, on_pure]

theorem quiet_outputPath (arguments : Arguments) :
    (outputPath arguments : Stage (StateM FileTree) RawText).Quiet := by
  rw [outputPath]
  cases arguments.output with
  | some path => exact quiet_pure path
  | none =>
    refine (quiet_liftM fun _ => rfl).bind fun kind => ?_
    match kind with
    | some .directory => exact (quiet_directoryName _).bind fun _ => quiet_pure _
    | some .file => exact quiet_pure _
    | some .other => exact quiet_pure _
    | none => exact quiet_pure _

/-! ### Reading sources -/

theorem quiet_readSource (file : SourceFile) :
    (readSource file : Stage (StateM FileTree) Source).Quiet := by
  refine (quiet_ask fun _ => rfl).bind fun bytes => ?_
  cases String.fromUTF8? bytes with
  | some text => exact quiet_pure _
  | none => exact quiet_throw _

theorem quiet_readSources (files : List SourceFile) :
    (readSources files : Stage (StateM FileTree) (List Source)).Quiet := by
  induction files with
  | nil => exact quiet_pure _
  | cons file rest ih =>
    exact (quiet_readSource file).bind fun source => ih.bind fun sources => quiet_pure _

/-- **A source is what its file holds**, under the path and the name of the file. -/
theorem answer_readSource_eq_ok {tree : FileTree} {file : SourceFile} {source : Source} :
    (readSource file : Stage (StateM FileTree) Source).answer tree = .ok source ↔
      ∃ bytes text, tree.read file.path = .ok bytes ∧ String.fromUTF8? bytes = some text ∧
        source = ⟨RawText.display file.path, file.space, text⟩ := by
  have hask : (ask (.unreadable file.path) (Disk.read file.path) :
      Stage (StateM FileTree) ByteArray).on tree =
        ((tree.read file.path).mapError (.unreadable file.path), tree) := by
    have hrun : StateT.run (Disk.read file.path : StateM FileTree (Except DiskError ByteArray))
        tree = (tree.read file.path, tree) := rfl
    rw [on_ask, hrun]
    cases tree.read file.path <;> rfl
  rw [answer, readSource, on_bind, hask]
  cases tree.read file.path with
  | error why => simp [Except.mapError]
  | ok bytes =>
    simp only [Except.mapError, Except.ok.injEq, exists_and_left, exists_eq_left']
    cases String.fromUTF8? bytes with
    | none => simp [on_throw]
    | some text => simp [on_pure, eq_comm]

/-- **Sources are read one after the other.** -/
theorem answer_readSources_eq_ok {tree : FileTree} {files : List SourceFile}
    {sources : List Source} :
    (readSources files : Stage (StateM FileTree) (List Source)).answer tree = .ok sources ↔
      List.Forall₂ (fun file source =>
        (readSource file : Stage (StateM FileTree) Source).answer tree = .ok source)
        files sources := by
  -- No stage changes the tree, so each of them is asked about the same one.
  have hanswers : (readSources files : Stage (StateM FileTree) (List Source)).answer tree =
      files.mapM fun file => (readSource file : Stage (StateM FileTree) Source).answer tree := by
    induction files with
    | nil => rfl
    | cons file rest ih =>
      rw [readSources, (quiet_readSource file).answer_bind, List.mapM_cons, ← ih]
      exact bind_congr fun source => (quiet_readSources rest).answer_bind _ tree
  rw [hanswers, mapM_eq_ok_iff]

/-! ### Writing the output -/

/-- Writing the output is the only change. -/
theorem on_write (output : RawText) (bytes : ByteArray) (tree : FileTree) :
    (ask (.unwritable output) (Disk.write output bytes) : Stage (StateM FileTree) Unit).on tree =
      match tree.resolveTarget output with
      | .ok place => (.ok (), tree.put place (.file bytes))
      | .error why => (.error (.unwritable output why), tree) := by
  have hrun : StateT.run (Disk.write output bytes : StateM FileTree (Except DiskError Unit)) tree =
      FileTree.write output bytes tree := rfl
  rw [on_ask, hrun, FileTree.write]
  cases tree.resolveTarget output <;> rfl

/-- **A run up to the write**: the files that it has read, where its output goes, and what it has
translated. -/
def prepare (arguments : Arguments) (tree : FileTree) :
    Except Trouble (List SourceFile × RawText × Translation) := do
  let files ← (discover arguments.source : Stage (StateM FileTree) (List SourceFile)).answer tree
  let output ← (outputPath arguments : Stage (StateM FileTree) RawText).answer tree
  let sources ← (readSources files : Stage (StateM FileTree) (List Source)).answer tree
  match translate sources (options arguments files) with
  | .ok t => .ok (files, output, t)
  | .error why => .error (.untranslatable arguments.source why)

theorem prepare_eq_ok_iff {arguments : Arguments} {tree : FileTree} {files : List SourceFile}
    {output : RawText} {t : Translation} :
    prepare arguments tree = .ok (files, output, t) ↔
      (discover arguments.source : Stage (StateM FileTree) (List SourceFile)).answer tree =
        .ok files ∧
      (outputPath arguments : Stage (StateM FileTree) RawText).answer tree = .ok output ∧
      ∃ sources,
        (readSources files : Stage (StateM FileTree) (List Source)).answer tree = .ok sources ∧
        translate sources (options arguments files) = .ok t := by
  simp only [prepare, bind_eq_ok_iff]
  constructor
  · rintro ⟨files', hfiles, output', houtput, sources, hsources, h⟩
    split at h
    next t' ht =>
      cases h
      exact ⟨hfiles, houtput, sources, hsources, ht⟩
    next => cases h
  · rintro ⟨hfiles, houtput, sources, hsources, ht⟩
    refine ⟨files, hfiles, output, houtput, sources, hsources, ?_⟩
    rw [ht]

/-- **A run is prepared, and then it writes.** -/
theorem on_run (arguments : Arguments) (tree : FileTree) :
    (run arguments : Stage (StateM FileTree) Summary).on tree =
      match prepare arguments tree with
      | .error trouble => (.error trouble, tree)
      | .ok (files, output, t) =>
        match tree.resolveTarget output with
        | .error why => (.error (.unwritable output why), tree)
        | .ok place =>
          (.ok ⟨files.map SourceFile.path, output, (options arguments files).startUp,
            t.statistics⟩, tree.put place (.file t.text.toUTF8)) := by
  have hok : ∀ {γ δ : Type} (c : γ) (next : γ → Except Trouble δ),
      (Except.ok c >>= next) = next c := fun _ _ => rfl
  rw [prepare]
  refine ((quiet_discover _).on_bind _ tree).trans ?_
  cases (discover arguments.source : Stage (StateM FileTree) (List SourceFile)).answer tree with
  | error trouble => rfl
  | ok files =>
    rw [hok]
    refine ((quiet_outputPath _).on_bind _ tree).trans ?_
    cases (outputPath arguments : Stage (StateM FileTree) RawText).answer tree with
    | error trouble => rfl
    | ok output =>
      rw [hok]
      refine ((quiet_readSources _).on_bind _ tree).trans ?_
      cases (readSources files : Stage (StateM FileTree) (List Source)).answer tree with
      | error trouble => rfl
      | ok sources =>
        rw [hok]
        dsimp only
        cases translate sources (options arguments files) with
        | error why => rfl
        | ok t =>
          refine (on_bind _ _ tree).trans ?_
          rw [on_write]
          dsimp only
          cases tree.resolveTarget output <;> rfl

/-- **A run that writes** has found its sources, named its output, read and translated the sources,
and written the text; and it has changed the tree in no other way. -/
theorem on_run_eq_ok {arguments : Arguments} {tree tree' : FileTree} {summary : Summary} :
    (run arguments : Stage (StateM FileTree) Summary).on tree = (.ok summary, tree') ↔
      ∃ files output sources t place,
        (discover arguments.source : Stage (StateM FileTree) (List SourceFile)).answer tree =
          .ok files ∧
        (outputPath arguments : Stage (StateM FileTree) RawText).answer tree = .ok output ∧
        (readSources files : Stage (StateM FileTree) (List Source)).answer tree = .ok sources ∧
        translate sources (options arguments files) = .ok t ∧
        tree.resolveTarget output = .ok place ∧
        summary = ⟨files.map SourceFile.path, output, (options arguments files).startUp,
          t.statistics⟩ ∧
        tree' = tree.put place (.file t.text.toUTF8) := by
  rw [on_run]
  constructor
  · intro h
    split at h
    next => exact nomatch (Prod.mk.inj h).1
    next files output t hprepare =>
      obtain ⟨hfiles, houtput, sources, hsources, ht⟩ := prepare_eq_ok_iff.mp hprepare
      split at h
      next => exact nomatch (Prod.mk.inj h).1
      next place hplace =>
        obtain ⟨hsummary, rfl⟩ := Prod.mk.inj h
        exact ⟨files, output, sources, t, place, hfiles, houtput, hsources, ht, hplace,
          (Except.ok.inj hsummary).symm, rfl⟩
  · rintro ⟨files, output, sources, t, place, hfiles, houtput, hsources, ht, hplace, rfl, rfl⟩
    rw [prepare_eq_ok_iff.mpr ⟨hfiles, houtput, sources, hsources, ht⟩]
    dsimp only
    rw [hplace]

/-- **What fails up to the write** changes nothing. -/
theorem tree_eq_of_error {arguments : Arguments} {trouble : Trouble} {tree tree' : FileTree}
    (h : (run arguments : Stage (StateM FileTree) Summary).on tree = (.error trouble, tree')) :
    tree' = tree := by
  rw [on_run] at h
  split at h
  next => exact (Prod.mk.inj h).2.symm
  next =>
    split at h
    next => exact (Prod.mk.inj h).2.symm
    next => exact nomatch (Prod.mk.inj h).1

/-! ### Printing the summary -/

/-- What printing comes to. -/
theorem run_print (text : String) (tree : FileTree) :
    StateT.run (Disk.print text : StateM FileTree (Except DiskError Unit)) tree =
      (match tree.refusal with
        | none => .ok ()
        | some why => .error why, tree) := rfl

/-- **A run that has written its output** changes nothing any more, and succeeds unless the summary
that is asked for cannot be put together or printed. -/
theorem exists_run_conclude (arguments : Arguments) (summary : Summary) (tree : FileTree) :
    ∃ exit, StateT.run (conclude arguments summary : StateM FileTree Exit) tree = (exit, tree) ∧
      (exit.code = 0 ↔
        (arguments.summary = true → summary.render? ≠ none ∧ tree.refusal = none)) := by
  rw [conclude]
  split
  next hasked =>
    simp only [hasked, forall_const]
    split
    next hrender => exact ⟨_, rfl, by simp [hrender]⟩
    next text hrender =>
      rw [StateT.run_bind, run_print]
      cases hrefusal : tree.refusal with
      | none => exact ⟨_, rfl, by simp [hrender]⟩
      | some why => exact ⟨_, rfl, by simp [panicCode]⟩
  next hasked => exact ⟨_, rfl, by simp [hasked]⟩

/-! ### A whole run -/

/-- **A translation that is asked for** is run, and then the program comes to its end. -/
theorem run_perform {arguments : List RawText} {translation : Arguments}
    (hread : Arguments.read arguments = .ok (.translate translation)) (tree : FileTree) :
    StateT.run (perform arguments : StateM FileTree Exit) tree =
      StateT.run (exitOf translation
          ((run translation : Stage (StateM FileTree) Summary).on tree).1 : StateM FileTree Exit)
        ((run translation : Stage (StateM FileTree) Summary).on tree).2 := by
  rw [perform, hread]
  rfl

/-- **A run fails before it writes, or it writes.** In the first case it changes nothing. In the
second its exit code is 0, unless the summary cannot be printed. -/
theorem perform_cases {arguments : List RawText} {translation : Arguments}
    {tree tree' : FileTree} {exit : Exit}
    (hread : Arguments.read arguments = .ok (.translate translation))
    (hrun : StateT.run (perform arguments : StateM FileTree Exit) tree = (exit, tree')) :
    (exit.code ≠ 0 ∧ tree' = tree) ∨
    ∃ summary, (run translation : Stage (StateM FileTree) Summary).on tree = (.ok summary, tree') ∧
      (exit.code = 0 ↔
        (translation.summary = true → summary.render? ≠ none ∧ tree'.refusal = none)) := by
  rw [run_perform hread] at hrun
  cases hdone : (run translation : Stage (StateM FileTree) Summary).on tree with
  | mk result between =>
    rw [hdone] at hrun
    cases result with
    | error trouble =>
      obtain ⟨rfl, rfl⟩ := Prod.mk.inj hrun
      exact Or.inl ⟨Nat.one_ne_zero, tree_eq_of_error hdone⟩
    | ok summary =>
      obtain ⟨exit', hconclude, hcode⟩ := exists_run_conclude translation summary between
      obtain ⟨rfl, rfl⟩ := Prod.mk.inj (hconclude.symm.trans hrun)
      exact Or.inr ⟨summary, rfl, hcode⟩

end CommandLine

/-! ### Runs on one path -/

/-- The arguments of a run on a path that leaves everything else open. -/
def Arguments.onPath (path : RawText) : Arguments :=
  ⟨path, none, none, MemoryMap.defaultEntry, MemoryMap.stackBase, false, false⟩

/-- **The last argument is the source** if it does not begin with a dash and there is none yet. -/
theorem Arguments.readAll_singleton {path : RawText} {draft : Draft} (hne : path ≠ [])
    (h : path.head? ≠ some dash) (hsource : draft.source = none) :
    readAll [path] draft = { draft with source := some path }.complete := by
  have hdashes : path ≠ [dash, dash] := by
    rintro rfl
    exact h rfl
  have hadd : draft.addSource path = .ok { draft with source := some path } := by
    rw [Draft.addSource, hsource, readPath?, if_neg hne]
    rfl
  have hpath : readArgument draft path = .ok (.free { draft with source := some path }) := by
    unfold readArgument
    split
    next => exact absurd rfl h
    next => exact absurd rfl h
    next => rw [hadd]; rfl
  rw [readAll, hpath]
  · simp only [bind, Except.bind]
    rw [readAll]
  · exact hdashes

/-- **A path alone** asks for its translation. -/
theorem Arguments.read_singleton {path : RawText} (hne : path ≠ []) (h : path.head? ≠ some dash) :
    Arguments.read [path] = .ok (.translate (.onPath path)) := by
  rw [Arguments.read, readAll_singleton hne h rfl]
  rfl

namespace CommandLine

/-- **A run on the path of one file** translates the file without starting it up. -/
theorem perform_onPath {tree : FileTree} {path output : RawText} {file : SourceFile}
    {sources : List Source} {t : Translation} {place : Place} (hne : path ≠ [])
    (hdash : path.head? ≠ some Arguments.dash)
    (hfiles : (discover path : Stage (StateM FileTree) (List SourceFile)).answer tree =
      .ok [file])
    (houtput : (outputPath (.onPath path) : Stage (StateM FileTree) RawText).answer tree =
      .ok output)
    (hsources : (readSources [file] : Stage (StateM FileTree) (List Source)).answer tree =
      .ok sources)
    (ht : translate sources {} = .ok t) (hplace : tree.resolveTarget output = .ok place) :
    StateT.run (perform [path] : StateM FileTree Exit) tree =
      (⟨0, "", ""⟩, tree.put place (.file t.text.toUTF8)) := by
  have hoptions : options (.onPath path) [file] = {} := rfl
  have hrun : (run (.onPath path) : Stage (StateM FileTree) Summary).on tree =
      (.ok ⟨[file.path], output, false, t.statistics⟩, tree.put place (.file t.text.toUTF8)) :=
    on_run_eq_ok.mpr ⟨[file], output, sources, t, place, hfiles, houtput, hsources,
      hoptions.symm ▸ ht, hplace, rfl, rfl⟩
  rw [run_perform (Arguments.read_singleton hne hdash), hrun]
  rfl

end CommandLine

end HackStack
