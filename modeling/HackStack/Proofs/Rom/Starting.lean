import HackStack.Proofs.Block.Frame
import HackStack.Proofs.Rom.Calling
import HackStack.Proofs.Session.Annotation
import HackStack.Proofs.Session.StartUp

/-!
# From a reset to the entry function

The code that starts a program up stands ahead of the code of its files
(`HackStack.statementsOf_start`). After a reset, the machine goes through it without a
jump, sets the stack pointer, and calls the entry function as any function is called. So it comes to
the label of the entry function with a frame at the bottom of the stack, in which all pointers of
the caller are zero, and has written nothing else (`HackStack.Memory.started_called`).

The main result is `HackStack.translate_starts`. It asks for nothing of the names of the files. The
names in the code of the start are names that the program itself builds, and that of a function that
it declares.
-/

namespace HackStack

open Assembly Statement

/-! ### The memory of a program that has been started -/

/-- After a reset there are only zeros. -/
theorem Memory.read_reset (w : Word) : Machine.reset.memory.read w = 0 := by
  by_cases hw : w.Addresses
  · rw [Memory.read, Word.cell?_eq_some hw]
    exact Vector.getElem_replicate ..
  · rw [Memory.read, Word.cell?_eq_none hw]

/-- Every slot of a frame above the return address is that of a pointer. -/
theorem Pointer.exists_frameOffset {n : Nat} (h : 0 < n ∧ n < 5) :
    ∃ p : Pointer, p.frameOffset = n := by
  obtain rfl | rfl | rfl | rfl : n = 1 ∨ n = 2 ∨ n = 3 ∨ n = 4 := by omega
  · exact ⟨.that, rfl⟩
  · exact ⟨.this, rfl⟩
  · exact ⟨.arguments, rfl⟩
  · exact ⟨.locals, rfl⟩

/-- **The memory in which a program has been started**: the stack holds a frame without arguments
whose return address is `back`, and all else is zero. -/
structure Memory.Started (memory : Memory) (stackBase back : Nat) : Prop where
  sp : memory.sp = Word.ofNat (stackBase + 5)
  locals : memory.read (Word.ofNat 1) = Word.ofNat (stackBase + 5)
  arguments : memory.read (Word.ofNat 2) = Word.ofNat stackBase
  this : memory.read (Word.ofNat 3) = 0
  that : memory.read (Word.ofNat 4) = 0
  back : memory.read (Word.ofNat stackBase) = Word.ofNat back
  zero : ∀ w, w ≠ Word.ofNat 0 → w ≠ Word.ofNat 1 → w ≠ Word.ofNat 2 → w ≠ Word.ofNat stackBase →
    memory.read w = 0

section

variable {stackBase : Nat}

/-- The memory after a reset, in which the stack has been set up. -/
def Memory.setUp (stackBase : Nat) : Memory :=
  Machine.reset.memory.write (Word.ofNat 0) (Word.ofNat stackBase)

theorem Memory.sp_setUp : (setUp stackBase).sp = Word.ofNat stackBase :=
  read_write_self (Word.addresses_ofNat (by decide))

theorem Memory.read_setUp {w : Word} (h : w ≠ Word.ofNat 0) : (setUp stackBase).read w = 0 :=
  (read_write_of_ne h.symm).trans (read_reset w)

/-- **The first call starts a program**: what it saves of the pointers is zero. -/
theorem Memory.started_called (hbase : 16 ≤ stackBase) (hfits : stackBase ≤ 32762) (back : Nat) :
    CanSave Pointer.all ((setUp stackBase).pushed (Word.ofNat back)) ∧
      ((setUp stackBase).called back 0).Started stackBase back := by
  obtain ⟨hcan, hframe, hsp, hothers⟩ := @called_frame (setUp stackBase) stackBase back 0 sp_setUp
    (by omega) (by omega)
  have hsaved : ∀ p : Pointer,
      ((setUp stackBase).called back 0).read (Word.ofNat (stackBase + 5 - p.frameOffset)) = 0 := by
    intro p
    have hcell := p.cell_bounds
    rw [hframe.saved p]
    exact read_setUp (Word.ofNat_ne (by omega))
  have hzero : ∀ w, w ≠ Word.ofNat 0 → w ≠ Word.ofNat 1 → w ≠ Word.ofNat 2 →
      w ≠ Word.ofNat stackBase → ((setUp stackBase).called back 0).read w = 0 := by
    intro w h0 h1 h2 hback
    by_cases hslot : ∃ i < 5, w = Word.ofNat (stackBase + i)
    · obtain ⟨i, hi, rfl⟩ := hslot
      have hne : i ≠ 0 := by
        rintro rfl
        exact hback rfl
      obtain ⟨p, hp⟩ := @Pointer.exists_frameOffset (5 - i) (by omega)
      have hoffset : stackBase + i = stackBase + 5 - p.frameOffset := by omega
      rw [hoffset]
      exact hsaved p
    · rw [hothers w h0 h1 h2 fun i hi he => hslot ⟨i, hi, he⟩]
      exact read_setUp h0
  have hlow : ∀ n, 2 < n → n < 16 → ((setUp stackBase).called back 0).read (Word.ofNat n) = 0 := by
    intro n hn hn'
    exact hzero _ (Word.ofNat_ne (by omega))
      (Word.ofNat_ne (by omega))
      (Word.ofNat_ne (by omega))
      (Word.ofNat_ne (by omega))
  exact ⟨hcan, hsp, hframe.locals, hframe.arguments, hlow 3 (by decide) (by decide),
    hlow 4 (by decide) (by decide), hframe.back, hzero⟩

end

/-! ### The code of the start -/

section

variable {sources : List Source} {options : Options} {sites : List Site} {context : Context}

/-- **The first site of a program is its start**, and the others are the commands of its files. -/
theorem Translates.exists_start (h : Translates {} (events sources options) sites context)
    (hon : options.startUp = true) :
    options.stackBase ≤ MemoryMap.maxAddress ∧ ∃ start files, sites = start :: files ∧
      start.task = .startUp options.stackBase options.entry ∧ start.block = startBlock options ∧
      files.map Site.task = (commandsOf sources).map Task.written := by
  have htasks := h.map_task_events
  rw [events, Options.events, if_pos hon] at h
  rw [Options.tasks, if_pos hon] at htasks
  cases h with
  | task hasks hlowers hfiles =>
    cases hasks
    obtain ⟨hbase, ⟨-, -⟩⟩ := hlowers
    exact ⟨hbase, _, _, rfl, rfl, rfl, (List.cons.inj htasks).2⟩

/-- **The start is read as it was written**, and stands ahead of what is behind it. -/
theorem statementsOf_start {start : Site} (hbase : options.stackBase ≤ MemoryMap.maxAddress)
    (hentry : IsName options.entry)
    (htask : start.task = .startUp options.stackBase options.entry)
    (hblock : start.block = startBlock options) (annotate : Bool) (files : List Site) :
    statementsOf (listing (codeOf annotate (start :: files))) =
      startBlock options ++ statementsOf (listing (codeOf annotate files)) := by
  have hlowers := @startUp_lowers options hbase
  have hlegible : ∀ s ∈ startBlock options, s.Legible := by
    intro s hs
    rcases hlowers.writtenWith (fun _ => id) named_empty.builds trivial s hs with
      hwritten | ⟨_, _, hstart, rfl⟩
    · have hplain : s.Plain := hwritten
      exact hplain.legible
    · obtain ⟨-, rfl⟩ := Task.startUp.inj hstart
      have hplain : (symbol options.entry).Plain := hentry
      exact hplain.legible
  have hread : statementsOf (listing (startBlock options)) = startBlock options :=
    statementsOf_listing hlegible hlowers.uncommented.isComment_eq_false
  have hnote :
      statementsOf (listing (if annotate then [.comment start.task.note] else [])) = [] := by
    cases annotate with
    | false => rfl
    | true =>
      have hnamed : start.task.Named := htask ▸ trivial
      exact statementsOf_cons hnamed.plain_note.legible []
  show statementsOf (listing (start.code annotate ++ codeOf annotate files)) = _
  rw [Site.code, hblock, statementsOf_append, statementsOf_append, hnote, hread, List.nil_append]

/-- **The entry function stands behind the start.** -/
theorem Translates.exists_label_entry {rom : Rom} {start : Site} {files : List Site}
    (h : Translates {} (events sources options) (start :: files) context) {annotate : Bool}
    (hrom : assemble (listing (codeOf annotate (start :: files))) = .ok rom)
    (hbase : options.stackBase ≤ MemoryMap.maxAddress)
    (htask : start.task = .startUp options.stackBase options.entry)
    (hblock : start.block = startBlock options) (hentry : options.entry ∈ functionsOf sources) :
    IsName options.entry ∧ ∃ address, rom.labels[options.entry]? = some address ∧
      size (startBlock options) ≤ address ∧ address < 65536 := by
  obtain ⟨j, declaration, locals, hdeclaration, hfunction, hwritten⟩ := h.exists_function hentry
  obtain ⟨_, hdeclares⟩ := h.lowers declaration (List.mem_of_getElem? hdeclaration)
  have hlabel := Rom.label_of_function hrom hdeclaration hfunction hdeclares hwritten
  refine ⟨hwritten.1, _, hlabel, ?_, ?_⟩
  · cases j with
    | zero =>
      -- The start declares no function.
      obtain rfl := Option.some.inj hdeclaration
      exact absurd (htask.symm.trans hfunction) (by simp)
    | succ k =>
      rw [List.take_succ_cons, addressBehind, statementsOf_start hbase hwritten.1 htask hblock,
        size_append]
      exact Nat.le_add_right _ _
  · have hle := Rom.label_le_of_assemble hrom hlabel
    have hsize : rom.code.size ≤ 32768 := Rom.size_le_of_assemble hrom
    omega

/-! ### The run from a reset -/

/-- **The machine runs through the start** from a reset on, one instruction after the other, and
jumps at its end to what the name of the entry function stands for. -/
theorem Rom.Holds.exists_runsFor_start {rom : Rom} {address : Nat}
    (h : rom.Holds 0 (startBlock options)) (hbase : 16 ≤ options.stackBase)
    (hfits : options.stackBase ≤ 32762) (hentry : rom.value? options.entry = some address)
    (hword : address < 65536) :
    rom.labels[startReturn]? = some (size (startBlock options)) ∧
      (∀ n < size (startBlock options), ∀ m, Machine.reset.RunsFor rom n m → m.pc = n) ∧
      ∃ m, Machine.reset.RunsFor rom (size (startBlock options)) m ∧ m.pc = address ∧
        m.memory.Started options.stackBase (size (startBlock options)) := by
  have hback : rom.labels[startReturn]? = some (size (startBlock options)) := by
    have hlabel := h.right.returnLabel_end
    rwa [Nat.zero_add, ← size_append] at hlabel
  obtain ⟨hcan, hstarted⟩ := Memory.started_called hbase hfits (size (startBlock options))
  have hsp : (Memory.setUp options.stackBase).sp.Addresses := by
    rw [Memory.sp_setUp]
    exact Word.addresses_ofNat (by omega)
  -- Up to its jump, the start is straight code.
  obtain ⟨c, hcall, hmemory, ha⟩ := @Core.exec_call rom
    ⟨Memory.setUp options.stackBase, Word.ofNat 0, Word.ofNat options.stackBase⟩ startReturn
    options.entry _ address 0 (Rom.value?_label hback (by decide)) hentry hsp hcan
  have hexec : Machine.reset.core.exec rom
      (Block.setUp options.stackBase ++ Block.calling startReturn options.entry 0) = some c :=
    (Core.exec_of_exec (Core.exec_setUp options.stackBase)).trans hcall
  have hblock : startBlock options =
      (Block.setUp options.stackBase ++ Block.calling startReturn options.entry 0) ++
        branch .zero .always :: [.label startReturn] := by
    rw [startBlock, Block.callReturningTo_eq, List.append_assoc]
  refine ⟨hback, fun n hn m hruns => ?_, ?_⟩
  · rw [hblock] at h
    rw [hblock, size_append] at hn
    have hpc := Machine.pc_of_exec h.left hexec (Nat.le_of_lt_succ hn) hruns
    exact hpc.trans (Nat.zero_add n)
  · obtain ⟨m, hruns, hpc, hafter⟩ := Machine.runsFor_of_jump hblock rfl h hexec
    refine ⟨m, hruns, ?_, ?_⟩
    · rw [hpc, ha, Word.toNat_ofNat hword]
    · rw [hafter, hmemory]
      exact hstarted

/-! ### Programs -/

variable {t : Translation} {rom : Rom}

/-- **The start brings the machine up to the entry function.** Let a program be translated with a
start and assembled, and let it declare its entry function, which is not called like a predefined
symbol. Then the code of the start stands ahead of the code of the files. From a reset on, the
machine goes through it and nothing else, and comes to the label of the entry function. There the
stack holds the frame of the entry function, which returns behind the start, and all else is
zero. -/
theorem translate_starts (ht : translate sources options = .ok t)
    (hrom : assemble t.text = .ok rom) (hon : options.startUp = true)
    (hbase : 16 ≤ options.stackBase) (hfits : options.stackBase ≤ 32762)
    (hentry : options.entry ∈ functionsOf sources)
    (hsymbol : MemoryMap.predefined? options.entry = none) :
    (∃ start files, sitesOf {} (events sources options) = start :: files ∧
      start.block = startBlock options ∧
      files.map Site.task = (commandsOf sources).map Task.written ∧
      statementsOf t.text =
        startBlock options ++ statementsOf (listing (codeOf options.annotate files)) ∧
      rom.Holds 0 (statementsOf t.text) ∧ rom.code.size = size (statementsOf t.text)) ∧
    ∃ address back m, rom.labels[options.entry]? = some address ∧
      rom.labels[startReturn]? = some back ∧ size (startBlock options) ≤ address ∧
      (∀ n < size (startBlock options), ∀ m, Machine.reset.RunsFor rom n m → m.pc = n) ∧
      Machine.reset.RunsFor rom (size (startBlock options)) m ∧ m.pc = address ∧
      m.memory.Started options.stackBase back := by
  obtain ⟨sites, context, -, h, -⟩ := translates_of_translate ht
  obtain ⟨hmax, start, files, rfl, htask, hblock, hfiles⟩ := h.exists_start hon
  have htext : t.text = listing (codeOf options.annotate (start :: files)) := by
    rw [Translation.text, h.code_eq ht]
  obtain ⟨hname, address, hlabel, hbehind, hword⟩ :=
    h.exists_label_entry (htext ▸ hrom) hmax htask hblock hentry
  have hread : statementsOf t.text =
      startBlock options ++ statementsOf (listing (codeOf options.annotate files)) := by
    rw [htext]
    exact statementsOf_start hmax hname htask hblock options.annotate files
  have hholds := Rom.holds_of_assemble hrom
  have hstart : rom.Holds 0 (startBlock options) := by
    rw [hread] at hholds
    exact hholds.left
  obtain ⟨hback, hthrough, m, hruns, hpc, hstarted⟩ :=
    hstart.exists_runsFor_start hbase hfits (Rom.value?_label hlabel hsymbol) hword
  refine ⟨⟨start, files, h.sitesOf_eq, hblock, hfiles, hread, hholds,
    Rom.size_eq_of_assemble hrom⟩, ?_⟩
  exact ⟨address, _, m, hlabel, hback, hbehind, hthrough, hruns, hpc, hstarted⟩

/-- A program whose entry function is declared behind another file, and calls into that. -/
def entering : List Source :=
  [⟨"Main.vm", "Main", "function Main.main 0\npush constant 7\nreturn"⟩,
   ⟨"Sys.vm", "Sys", "function Sys.init 0\ncall Main.main 0"⟩]

/-- Its options have the stack start at the cell 300. -/
def enteringOptions : Options := { startUp := true, stackBase := 300 }

/-- That program is translated and assembled. -/
theorem exists_rom_entering :
    ∃ t rom, translate entering enteringOptions = .ok t ∧ assemble t.text = .ok rom := by
  have hnone : ∀ label : Label, ¬Context.Taken {} label := fun _ => Std.HashSet.not_mem_empty
  -- Behind the start only its own label is taken.
  have hstart : ∀ label : Label, label.render ≠ startReturn →
      ¬Context.Taken (Context.declaring {} startReturn) label :=
    fun label hne => Context.not_taken_declaring hne (hnone label)
  have h : Translates {} (events entering enteringOptions) _ _ :=
    .task (.startUp _ _) (.startUp (by decide) (.call (by decide) (hnone _)))
      (.file (.task (.line 1 (c := .function "Main.main" 0) rfl)
        (.written (.function (hstart _ (by decide))))
      (.task (.line 2 (c := .push .constant 7) rfl) (.written (.push rfl))
      (.task (.line 3 (c := .ret) rfl) (.written (.ret rfl))
      (.file (.task (.line 1 (c := .function "Sys.init" 0) rfl)
        (.written (.function (Context.not_taken_declaring (by decide) (hstart _ (by decide)))))
      (.task (.line 2 (c := .call "Main.main" 0) rfl)
        (.written (.call (by decide) (Context.not_taken_declaring (by decide)
          (Context.not_taken_declaring (by decide) (hstart _ (by decide)))))) (.nil _))))))))
  exact h.exists_rom (by decide) (fun _ => ⟨by decide, by decide⟩) (by decide +kernel)

/-- The start of that program leads over the first file into the second one. -/
theorem translate_starts_entering :
    ∃ t rom address back m, translate entering enteringOptions = .ok t ∧
      assemble t.text = .ok rom ∧ rom.labels["Sys.init"]? = some address ∧
      rom.labels[startReturn]? = some back ∧
      Machine.reset.RunsFor rom (size (startBlock enteringOptions)) m ∧ m.pc = address ∧
      m.memory.Started 300 back := by
  obtain ⟨t, rom, ht, hrom⟩ := exists_rom_entering
  obtain ⟨-, address, back, m, hlabel, hback, -, -, hruns, hpc, hstarted⟩ :=
    translate_starts ht hrom rfl (by decide) (by decide) (by decide) (by decide)
  exact ⟨t, rom, address, back, m, ht, hrom, hlabel, hback, hruns, hpc, hstarted⟩

end

end HackStack
