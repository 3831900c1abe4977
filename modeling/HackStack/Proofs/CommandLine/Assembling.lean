import HackStack.Proofs.CommandLine.Paths
import HackStack.Proofs.CommandLine.Stages
import HackStack.Proofs.Rom.Legible
import HackStack.Proofs.Rom.Program

/-!
# What is written can be assembled

The namespace of a file is its stem, and nobody asks whether that is a symbol. So what the command
line writes need not be assembly at all: a stem may begin like a number, or hold a line feed
(`HackStack.exists_unreadable_output`). These two are the only ways; a stem without either is a
namespace from which legible names are built, whatever other characters it holds, and then the
assembler refuses the output for its size only (`HackStack.output_assembles`).
-/

namespace HackStack

open Assembly Statement Text

/-! ### Programs with legible names -/

section

variable {sources : List Source} {options : Options} {t : Translation}

/-- **A program whose names are legible** is refused for its size only. -/
theorem assembles_or_tooLarge (ht : translate sources options = .ok t)
    (hspaces : ∀ source ∈ sources, (Standing.beginFile {} source.space).Builds LegibleName)
    (hentry : options.startUp = true → LegibleName options.entry) :
    (∃ rom, assemble t.text = .ok rom) ∨ ∃ n, assemble t.text = .error (.tooLarge n) := by
  obtain ⟨sites, context, -, htranslates, -⟩ := translates_of_translate ht
  have hlegible : ∀ s ∈ codeOf options.annotate sites, s.Legible := by
    intro s hs
    rcases htranslates.writtenWith_codeOf (fun _ => IsName.legible) hspaces s hs with
      hs | ⟨hon, rfl⟩
    · exact hs.legible
    · exact (hentry hon).symbol
  have hassemble := assemble_listing hlegible (htranslates.nodup_codeOf options.annotate)
  rw [Translation.text, htranslates.code_eq ht]
  split at hassemble
  · exact Or.inr ⟨_, hassemble⟩
  · obtain ⟨rom, hrom, -⟩ := hassemble
    exact Or.inl ⟨rom, hrom⟩

end

/-! ### The output of a run -/

/-- **A stem that can be a namespace**: it stands on one line, and does not begin like a number. -/
structure PlainStem (stem : String) : Prop where
  newline_not_mem : '\n' ∉ stem.toList
  head : ∀ c, stem.toList.head? = some c → c.isDigit = false

/-- **A file of commands with a plain stem** builds legible names. -/
theorem builds_of_plainStem {path : RawText} {file : CommandLine.SourceFile}
    (hfile : CommandLine.sourceFile path = .ok file) (hplain : PlainStem file.space) :
    (Standing.beginFile {} file.space).Builds LegibleName := by
  obtain ⟨-, hstem⟩ := CommandLine.sourceFile_eq_ok.mp hfile
  have hslash : '/' ∉ file.space.toList := by
    intro hmem
    refine Path.separator_not_mem_stem hstem ?_
    rw [Text.raw_eq]
    exact List.mem_flatMap.mpr ⟨_, hmem, by decide⟩
  have hinline : Inline file.space.toList :=
    ⟨hplain.newline_not_mem, beforeComment_eq_self hslash⟩
  exact Standing.builds_legible hinline hplain.head

/-- **The output can be assembled.** Let a run of the command line end with the exit code 0, and let
the stems of its sources be plain. Then it has written one file, and the assembler takes the text of
that file, or refuses it for its size. -/
theorem output_assembles {arguments : List RawText} {translation : Arguments}
    {tree tree' : FileTree} {exit : Exit}
    (hread : Arguments.read arguments = .ok (.translate translation))
    (hentry : translation.entry = MemoryMap.defaultEntry)
    (hrun : StateT.run (CommandLine.perform arguments : StateM FileTree Exit) tree = (exit, tree'))
    (hexit : exit.code = 0)
    (hstems : ∀ files, (CommandLine.discover translation.source :
        CommandLine.Stage (StateM FileTree) (List CommandLine.SourceFile)).answer tree = .ok files →
      ∀ file ∈ files, PlainStem file.space) :
    ∃ place text, tree' = tree.put place (.file text.toUTF8) ∧
      ((∃ rom, assemble text = .ok rom) ∨ ∃ n, assemble text = .error (.tooLarge n)) := by
  rcases CommandLine.perform_cases hread hrun with ⟨hfails, -⟩ | ⟨summary, hdone, -⟩
  · exact absurd hexit hfails
  · obtain ⟨files, output, sources, t, place, hfiles, -, hsources, ht, -, -, rfl⟩ :=
      CommandLine.on_run_eq_ok.mp hdone
    refine ⟨place, t.text, rfl, assembles_or_tooLarge ht (fun source hsource => ?_) fun _ => ?_⟩
    · obtain ⟨file, hfile, hsource⟩ := CommandLine.exists_mem_of_forall₂
        (CommandLine.answer_readSources_eq_ok.mp hsources) hsource
      obtain ⟨paths, -, hnamed⟩ := CommandLine.answer_discover_eq_ok.mp hfiles
      obtain ⟨path, -, hname⟩ := CommandLine.exists_mem_of_forall₂ hnamed hfile
      obtain ⟨bytes, text, -, -, rfl⟩ := CommandLine.answer_readSource_eq_ok.mp hsource
      exact builds_of_plainStem hname (hstems files hfiles file hfile)
    · have hdefault : IsName MemoryMap.defaultEntry := ⟨by decide, by decide⟩
      change LegibleName translation.entry
      exact hentry ▸ hdefault.legible

/-! ### Two runs -/

/-- A directory with one file, in which the command line runs. -/
def holding (name : String) : FileTree where
  entries := [([Text.raw "work"], .directory),
    ([Text.raw "work", Text.raw name], .file "push static 0".toUTF8)]
  workingDirectory := [Text.raw "work"]

/-- The sources that are read from it. -/
def held (name space : String) : List Source := [⟨name, space, "push static 0"⟩]

/-- A program of one push is translated. -/
theorem translate_held (name space : String) :
    ∃ t, translate (held name space) {} = .ok t ∧
      t.code.toList = symbol (space ++ "." ++ toString 0) :: assign .d (.y .m) :: Block.pushD := by
  have hevents : events (held name space) {} =
      [.file ⟨name, space, "push static 0"⟩, .line 1 "push static 0"] := by
    have hlines : codeLines "push static 0" = [(1, "push static 0")] := rfl
    rw [events, held, List.flatMap_singleton, Source.events, hlines]
    rfl
  obtain ⟨sites, context, htranslates, hcode⟩ : ∃ sites context,
      Translates {} (events (held name space) {}) sites context ∧ codeOf false sites =
        symbol (space ++ "." ++ toString 0) :: assign .d (.y .m) :: Block.pushD := by
    rw [hevents]
    exact ⟨_, _, .file (.task (.line 1 (c := .push .static 0) rfl) (.written (.push rfl))
      (.nil _)), rfl⟩
  obtain ⟨session, -, ht, -⟩ := translate_of_translates htranslates
  exact ⟨_, ht, (htranslates.code_eq ht).trans hcode⟩

/-- The output of a file whose stem is a name. -/
theorem output_assembles_holding :
    ∃ tree', StateT.run (CommandLine.perform [Text.raw "Main.vm"] : StateM FileTree Exit)
        (holding "Main.vm") = (⟨0, "", ""⟩, tree') ∧
      ∃ place text, tree' = (holding "Main.vm").put place (.file text.toUTF8) ∧
        ((∃ rom, assemble text = .ok rom) ∨ ∃ n, assemble text = .error (.tooLarge n)) := by
  obtain ⟨t, ht, -⟩ := translate_held "Main.vm" "Main"
  have hrun := @CommandLine.perform_onPath (holding "Main.vm") (Text.raw "Main.vm")
    (Text.raw "Main.asm") ⟨Text.raw "Main.vm", "Main"⟩ _ t
    [Text.raw "work", Text.raw "Main.asm"] (by decide) (by decide) rfl rfl rfl ht rfl
  refine ⟨_, hrun, output_assembles (Arguments.read_singleton (by decide) (by decide)) rfl hrun rfl
    fun files hfiles file hfile => ?_⟩
  obtain rfl : [⟨Text.raw "Main.vm", "Main"⟩] = files := Except.ok.inj hfiles
  obtain rfl := List.mem_singleton.mp hfile
  refine ⟨by decide, fun c hc => ?_⟩
  obtain rfl : 'M' = c := Option.some.inj hc
  decide

/-- **The output may be no assembly.** A file whose stem begins with a digit is translated, and the
assembler cannot read the name of its static variable. -/
theorem exists_unreadable_output :
    ∃ place text, StateT.run (CommandLine.perform [Text.raw "1st.vm"] : StateM FileTree Exit)
        (holding "1st.vm") = (⟨0, "", ""⟩, (holding "1st.vm").put place (.file text.toUTF8)) ∧
      assemble text = .error (.unreadable 1 (.numericAddress "1st.0")) := by
  obtain ⟨t, ht, hcode⟩ := translate_held "1st.vm" "1st"
  have hrun := @CommandLine.perform_onPath (holding "1st.vm") (Text.raw "1st.vm")
    (Text.raw "1st.asm") ⟨Text.raw "1st.vm", "1st"⟩ _ t
    [Text.raw "work", Text.raw "1st.asm"] (by decide) (by decide) rfl rfl rfl ht rfl
  refine ⟨_, _, hrun, ?_⟩
  rw [Translation.text, hcode]
  rfl

end HackStack
