import HackStack.Proofs.StackMachine.Simulation
import HackStack.Proofs.StackMachine.Traps

/-!
# Runs of translated programs

Whatever a program of the stack machine does, its translation does on the machine
(`HackStack.translate_simulates`). The two are compared over whole runs of any length: wherever the
stack machine has come to, the machine comes to the same task with a memory that agrees, and it
halts where the stack machine has ended.

The theorem asks for a program in which everything that it goes on at is declared and in which
labels clash with nothing. The assembler does not check this: it would take a label for a variable,
or a variable for a label.
-/

namespace HackStack

open StackMachine

/-- **The machine follows the stack machine through whole runs.** It starts where the stack machine
starts. From where the two stand at the same task with memories that agree, any number of steps of
the stack machine is matched by a number of cycles that leads to the same task with memories that
agree; and if the program has ended there, the machine halts. A program stops before its end only
for what its memory holds. -/
theorem translate_simulates {sources : List Source} {options : Options} {t : Translation}
    {rom : Rom} (ht : translate sources options = .ok t) (hrom : assemble t.text = .ok rom)
    (hspaces : ∀ source ∈ sources, isSymbol source.space.toList = true)
    (hentry : options.startUp = true → isSymbol options.entry.toList = true)
    (hclosed : (Program.ofEvents (events sources options) rom).Closed)
    (hlabels : (Program.ofEvents (events sources options) rom).LabelsApart) :
    (∀ m : Machine, m.pc = 0 →
      (Program.ofEvents (events sources options) rom).Matches ⟨0, m.memory⟩ m) ∧
    ∀ (n : Nat) (s s' : State) (m : Machine),
      (Program.ofEvents (events sources options) rom).RunsFor n s s' →
      (Program.ofEvents (events sources options) rom).Matches s m →
      ∃ cycles m', m.RunsFor rom cycles m' ∧
        (Program.ofEvents (events sources options) rom).Matches s' m' ∧
        ((Program.ofEvents (events sources options) rom).Halted s' →
          ∀ limit, cycles < limit → m.run rom limit = (m', .ok cycles)) ∧
        ∀ why, (Program.ofEvents (events sources options) rom).Traps s' why → why.OfMemory := by
  obtain ⟨sites, h, hsize⟩ := loaded_of_translate ht hrom hspaces hentry hlabels
  constructor
  · intro m hpc
    refine ⟨?_, fun w _ => rfl⟩
    rw [hpc, h.address, Rom.address, List.drop_zero, hsize, Nat.sub_self]
  · intro n s s' m hrun hmatches
    obtain ⟨cycles, m', hcycles, hmatches'⟩ := h.follows_run hrun hmatches
    refine ⟨cycles, m', hcycles, hmatches', fun hhalted limit hlimit => ?_, fun why htraps => ?_⟩
    · exact Machine.run_of_runsFor hcycles (h.step_of_halted hhalted hmatches') hlimit
    · exact h.ofMemory_of_traps hclosed htraps

/-- A program that jumps back once before it ends. -/
def jumpingBack : List Source := [⟨"Main.vm", "Main", "push constant 7\nlabel LOOP\nif-goto LOOP"⟩]

/-- The stack machine jumps back once, and ends with the word below the stack. -/
theorem runsFor_jumpingBack {rom : Rom} {start : Memory} (hsp : start.sp = Word.ofNat 256)
    (hbelow : start.read (Word.ofNat 255) = 0) :
    ∃ after, (Program.ofEvents (events jumpingBack {}) rom).RunsFor 5 ⟨0, start⟩ ⟨3, after⟩ ∧
      after.sp = Word.ofNat 255 := by
  have hword : Word.ofNat 257 - 1 = Word.ofNat 256 ∧ Word.ofNat 256 - 1 = Word.ofNat 255 := by
    decide
  have hpushed : (start.pushed 7).sp = Word.ofNat 257 :=
    Memory.sp_pushed hsp (by decide) (by decide)
  have hpopped : (start.pushed 7).popped.sp = Word.ofNat 256 := by
    rw [Memory.sp_popped, hpushed, hword.1]
  have hseven : (start.pushed 7).topmost = 7 := by
    rw [Memory.topmost, Memory.popped, hpushed, hword.1, Memory.read_write_of_ne (by decide)]
    exact Memory.read_pushed hsp (by decide) (by decide)
  have hzero : (start.pushed 7).popped.topmost = 0 := by
    rw [Memory.topmost, Memory.popped, hpopped, hword.2, Memory.read_write_of_ne (by decide),
      Memory.popped, Memory.read_write_of_ne (by decide), Memory.read_pushed_of_ne (by decide)]
    · exact hbelow
    · rw [hsp]
      decide
  have hstep : ∀ {k next : Nat} {before after : Memory} {c : Command},
      (Program.ofEvents (events jumpingBack {}) rom).tasks[k]? =
        some (⟨.file "Main", some "Main", 0, 0⟩, .written c) →
      (Program.ofEvents (events jumpingBack {}) rom).command k
        ⟨.file "Main", some "Main", 0, 0⟩ c before = (.ok next, after) →
      (Program.ofEvents (events jumpingBack {}) rom).Steps ⟨k, before⟩ ⟨next, after⟩ :=
    fun htask hcommand => ⟨_, _, htask, hcommand⟩
  refine ⟨(start.pushed 7).popped.popped, ?_, by rw [Memory.sp_popped, hpopped, hword.2]⟩
  refine .succ (@hstep 0 1 start (start.pushed 7) (.push .constant 7) rfl ?_)
    (.succ (@hstep 1 2 (start.pushed 7) (start.pushed 7) (.label "LOOP") rfl rfl)
    (.succ (@hstep 2 1 (start.pushed 7) (start.pushed 7).popped (.ifGoto "LOOP") rfl ?_)
    (.succ (@hstep 1 2 (start.pushed 7).popped (start.pushed 7).popped (.label "LOOP") rfl rfl)
    (.succ (@hstep 2 3 (start.pushed 7).popped (start.pushed 7).popped.popped (.ifGoto "LOOP") rfl
      ?_) (.zero _)))))
  · have hpush : push 7 start = (.ok (), start.pushed 7) :=
      push_eq_ok.mpr ⟨by rw [hsp]; decide, rfl⟩
    exact Step.bind_eq_ok.mpr ⟨7, start, rfl, Step.bind_eq_ok.mpr ⟨(), _, hpush, rfl⟩⟩
  · have hpop : pop (start.pushed 7) = (.ok 7, (start.pushed 7).popped) :=
      pop_eq_ok.mpr ⟨by rw [hpushed]; decide, hseven.symm, rfl⟩
    exact Step.bind_eq_ok.mpr ⟨7, _, hpop, rfl⟩
  · have hpop : pop (start.pushed 7).popped = (.ok 0, (start.pushed 7).popped.popped) :=
      pop_eq_ok.mpr ⟨by rw [hpopped]; decide, hzero.symm, rfl⟩
    exact Step.bind_eq_ok.mpr ⟨0, _, hpop, rfl⟩

/-- The translation of a program that jumps back once before it ends halts. -/
theorem translate_simulates_jumpingBack :
    ∃ t rom, translate jumpingBack {} = .ok t ∧ assemble t.text = .ok rom ∧
      ∃ cycles m', (∀ limit, cycles < limit →
        (Machine.withPointers 0 0 0 0).run rom limit = (m', .ok cycles)) ∧
        m'.memory.sp = Word.ofNat 255 := by
  have h : Translates {} (events jumpingBack {}) _ _ :=
    .file (.task (.line 1 (c := .push .constant 7) rfl) (.written (.push rfl))
      (.task (.line 2 (c := .label "LOOP") rfl) (.written (.label Std.HashSet.not_mem_empty))
        (.task (.line 3 (c := .ifGoto "LOOP") rfl) (.written (.ifGoto "LOOP")) (.nil _))))
  have hspaces : ∀ source ∈ jumpingBack, isSymbol source.space.toList = true := by decide
  obtain ⟨t, rom, ht, hrom⟩ := h.exists_rom hspaces (fun hon => Bool.noConfusion hon) (by decide)
  refine ⟨t, rom, ht, hrom, ?_⟩
  have htasks : (Program.ofEvents (events jumpingBack {}) rom).tasks =
      [(⟨.file "Main", some "Main", 0, 0⟩, .written (.push .constant 7)),
       (⟨.file "Main", some "Main", 0, 0⟩, .written (.label "LOOP")),
       (⟨.file "Main", some "Main", 0, 0⟩, .written (.ifGoto "LOOP"))] := rfl
  have hclosed : (Program.ofEvents (events jumpingBack {}) rom).Closed := by
    rw [Program.Closed, htasks]
    intro entry hentry label hlabel
    refine ⟨_, List.mem_cons_of_mem _ List.mem_cons_self, ?_⟩
    rcases List.mem_cons.mp hentry with rfl | hentry
    · cases hlabel
    rcases List.mem_cons.mp hentry with rfl | hentry
    · cases hlabel
    · obtain rfl := List.mem_singleton.mp hentry
      cases hlabel
      decide
  have hlabels : (Program.ofEvents (events jumpingBack {}) rom).LabelsApart := by
    rw [Program.LabelsApart, htasks]
    intro entry hentry label hlabel _
    have hloop : label = .user (.file "Main") "LOOP" := by
      rcases List.mem_cons.mp hentry with rfl | hentry
      · cases hlabel
      rcases List.mem_cons.mp hentry with rfl | hentry
      · exact List.mem_singleton.mp hlabel
      · obtain rfl := List.mem_singleton.mp hentry
        cases hlabel
    subst hloop
    exact ⟨by decide, by decide⟩
  obtain ⟨hstart, hruns⟩ := translate_simulates ht hrom hspaces (fun hon => Bool.noConfusion hon)
    hclosed hlabels
  have hsp : (Machine.withPointers 0 0 0 0).memory.sp = Word.ofNat 256 :=
    Memory.read_ofNat (by decide)
  have hbelow : (Machine.withPointers 0 0 0 0).memory.read (Word.ofNat 255) = 0 :=
    Memory.read_ofNat (by decide)
  obtain ⟨after, hrun, hafter⟩ := @runsFor_jumpingBack rom _ hsp hbelow
  obtain ⟨cycles, m', -, hmatches, hhalts, -⟩ :=
    hruns 5 _ _ (Machine.withPointers 0 0 0 0) hrun (hstart _ rfl)
  refine ⟨cycles, m', hhalts (by rw [Program.Halted, htasks]; exact Nat.le_refl 3), ?_⟩
  rw [hmatches.memory.sp, hafter]

end HackStack
