import HackStack.Proofs.Machine.Limits
import HackStack.Step

/-!
# A machine that checks every access

`HackStack.Machine.step` is a cycle in one piece: its memory has an answer for every word, and its
program counter is a number of any size. A machine that is built has 32768 memory words and a
counter of sixteen bits, and it carries out an instruction part by part, so that something may have
been stored when a later part fails.

`HackStack.Machine.Guarded.cycle` is a cycle of that kind. Every access to the memory looks whether
the word exists, every count of the program counter looks whether the next number exists, and what
the parts before have changed stays changed (`HackStack.Machine.Guarded.Stop` has the ways in which
a part can fail). For a program that fits into the instruction memory both cycles are the same
(`HackStack.Machine.Guarded.cycle_eq`). So neither check ever fails, and a fault leaves nothing
behind but the count of cycles.

The main result is `HackStack.Machine.cycles_are_safe`. It says for the machine in every state that
cycles lead to when the next one halts, when it faults and when it is executed.
-/

namespace HackStack

open Assembly

namespace Machine

/-! ### A cycle part by part -/

namespace Guarded

/-- Why a cycle goes no further. -/
inductive Stop
  /-- There is no instruction to execute. -/
  | halted
  /-- The instruction at `pc` would reach for a memory word outside the memory. -/
  | fault (address : Word) (pc : Nat)
  /-- A memory word was looked up that does not exist. -/
  | noSuchCell (cell : Nat)
  /-- The program counter was counted beyond its last number. -/
  | counterOverflow
  deriving DecidableEq, Repr

/-- The number of the memory word that A addresses, where A is not negative. -/
def address : Step Stop Machine Nat :=
  Step.inspect fun m => if m.a.toInt < 0 then .error (.fault m.a m.pc) else .ok m.a.toNat

/-- Read the memory word that A addresses. -/
def readM : Step Stop Machine Word := do
  let cell ← address
  Step.inspect fun m =>
    match m.memory[cell]? with
    | some value => .ok value
    | none => .error (.noSuchCell cell)

/-- Write the memory word that A addresses. -/
def writeM (value : Word) : Step Stop Machine Unit := do
  let cell ← address
  if h : cell < 32768 then Step.change fun m => { m with memory := m.memory.set cell value }
  else throw (.noSuchCell cell)

/-- Go on with the next instruction. -/
def next : Step Stop Machine Unit :=
  Step.within fun m =>
    if m.pc + 1 < 65536 then Step.change fun m => { m with pc := m.pc + 1 }
    else throw .counterOverflow

/-- The second input of the ALU. -/
def input (comp : Comp) : Step Stop Machine Word :=
  if comp.readsMemory then readM else Step.inspect fun m => .ok m.a

/-- Store a result in the memory, if this is one of the destinations. -/
def storeM (fields : Compute) (value : Word) : Step Stop Machine Unit :=
  if fields.writesM then writeM value else pure ()

/-- Store a result in the destinations, the memory first. -/
def store (fields : Compute) (value : Word) : Step Stop Machine Unit := do
  storeM fields value
  Step.change fun m => { m with a := if fields.writesA then value else m.a }
  Step.change fun m => { m with d := if fields.writesD then value else m.d }

/-- Go on at `target`, or with the next instruction if the result does not make the machine jump. -/
def leave (fields : Compute) (value target : Word) : Step Stop Machine Unit :=
  if fields.jumps value then Step.change fun m => { m with pc := target.toNat } else next

/-- A compute instruction. It jumps to where A pointed before. -/
def compute (fields : Compute) : Step Stop Machine Unit :=
  Step.within fun before => do
    let value := fields.comp.eval before.d (← input fields.comp)
    store fields value
    leave fields value before.a

/-- **One cycle**, part by part. -/
def cycle (rom : Rom) : Step Stop Machine Unit :=
  Step.within fun m =>
    match rom.code[m.pc]? with
    | none => throw .halted
    | some op => do
      Step.change fun m => { m with steps := m.steps + 1 }
      match op with
      | .load value => do
        Step.change fun m => { m with a := BitVec.ofNat 16 value }
        next
      | .compute fields => compute fields

/-- What a cycle in one piece comes to, as the result of its parts. -/
def outcome : Cycle → Except Stop Unit
  | .ran => .ok ()
  | .halted => .error .halted
  | .fault address pc => .error (.fault address pc)

variable {rom : Rom} {m : Machine} {fields : Compute} {value : Word}

/-! ### The parts -/

theorem address_of_addresses (h : m.a.Addresses) : address m = (.ok m.a.toNat, m) := by
  have hsign : ¬m.a.toInt < 0 := mt Word.not_addresses_iff.mpr (not_not.mpr h)
  rw [address, Step.inspect, if_neg hsign]

theorem address_of_negative (h : ¬m.a.Addresses) :
    address m = (.error (.fault m.a m.pc), m) := by
  rw [address, Step.inspect, if_pos (Word.not_addresses_iff.mp h)]

/-- A word that is addressed exists. -/
theorem readM_of_addresses (h : m.a.Addresses) : readM m = (.ok (m.memory.read m.a), m) := by
  rw [readM, Step.bind_apply, address_of_addresses h, Memory.read, Word.cell?_eq_some h]
  simp only [Step.inspect, Vector.getElem?_eq_getElem h]
  rfl

theorem readM_of_negative (h : ¬m.a.Addresses) : readM m = (.error (.fault m.a m.pc), m) := by
  rw [readM, Step.bind_apply, address_of_negative h]

theorem writeM_of_addresses (h : m.a.Addresses) :
    writeM value m = (.ok (), { m with memory := m.memory.write m.a value }) := by
  have hcell : m.a.toNat < 32768 := h
  rw [writeM, Step.bind_apply, address_of_addresses h, Memory.write, Word.cell?_eq_some h]
  simp only [dif_pos hcell]
  rfl

theorem writeM_of_negative (h : ¬m.a.Addresses) :
    writeM value m = (.error (.fault m.a m.pc), m) := by
  rw [writeM, Step.bind_apply, address_of_negative h]

/-- **The counter does not overflow** behind an instruction of a program that fits. -/
theorem next_apply (h : m.pc + 1 < 65536) : next m = (.ok (), { m with pc := m.pc + 1 }) := by
  rw [next, Step.within, if_pos h]
  rfl

theorem input_apply {comp : Comp} (h : comp.readsMemory = true → m.a.Addresses) :
    input comp m = (.ok (if comp.readsMemory then m.memory.read m.a else m.a), m) := by
  rw [input]
  split
  next hreads => exact readM_of_addresses (h hreads)
  next => rfl

/-- What is stored where the memory word exists. -/
theorem store_apply (h : fields.writesM = true → m.a.Addresses) :
    store fields value m =
      (.ok (), { m with
        memory := if fields.writesM then m.memory.write m.a value else m.memory
        a := if fields.writesA then value else m.a
        d := if fields.writesD then value else m.d }) := by
  have hM : storeM fields value m = (.ok (), { m with
      memory := if fields.writesM then m.memory.write m.a value else m.memory }) := by
    rw [storeM]
    split
    next hwrites => exact writeM_of_addresses (h hwrites)
    next => rfl
  rw [store, Step.bind_apply, hM]
  rfl

/-- Nothing is stored where it does not. -/
theorem store_of_negative (hwrites : fields.writesM = true) (h : ¬m.a.Addresses) :
    store fields value m = (.error (.fault m.a m.pc), m) := by
  rw [store, Step.bind_apply, storeM, if_pos hwrites, writeM_of_negative h]

theorem leave_apply {target : Word} (h : m.pc + 1 < 65536) :
    leave fields value target m =
      (.ok (), { m with pc := if fields.jumps value then target.toNat else m.pc + 1 }) := by
  rw [leave]
  split
  next => rfl
  next => exact next_apply h

/-! ### A whole cycle -/

/-- An instruction that reaches for no word outside the memory is executed. -/
theorem compute_of_reaches (hpc : m.pc + 1 < 65536)
    (h : fields.usesMemory = true → m.a.Addresses) :
    compute fields m = (.ok (), m.compute fields) := by
  have hreads : fields.comp.readsMemory = true → m.a.Addresses := fun hreads =>
    h (Bool.or_eq_true_iff.mpr (Or.inl hreads))
  have hwrites : fields.writesM = true → m.a.Addresses := fun hwrites =>
    h (Bool.or_eq_true_iff.mpr (Or.inr hwrites))
  rw [compute, Step.within, Step.bind_apply, input_apply hreads]
  simp only [Step.bind_apply, store_apply hwrites]
  exact leave_apply hpc

/-- **An instruction that faults** does so before it stores anything, in whichever part. -/
theorem compute_of_fault (huses : fields.usesMemory = true) (h : ¬m.a.Addresses) :
    compute fields m = (.error (.fault m.a m.pc), m) := by
  rw [compute, Step.within, Step.bind_apply]
  by_cases hreads : fields.comp.readsMemory = true
  · rw [input, if_pos hreads, readM_of_negative h]
  · have hwrites : fields.writesM = true := (Bool.or_eq_true_iff.mp huses).resolve_left hreads
    rw [input_apply fun hr => absurd hr hreads]
    simp only [Step.bind_apply, store_of_negative hwrites h]

end Guarded

variable {rom : Rom} {m : Machine}

/-! ### A cycle in one piece -/

/-- **Part by part or in one piece**, a cycle is the same in a program that leaves room for the
counter behind its last instruction. -/
theorem Guarded.cycle_eq (hsize : rom.code.size < 65536) (m : Machine) :
    Guarded.cycle rom m = (Guarded.outcome (m.step rom).2, (m.step rom).1) := by
  rw [Guarded.cycle, Step.within]
  have hway := m.way rom
  generalize m.step rom = result at hway
  cases hway with
  | halted hend =>
    rw [Array.getElem?_eq_none hend]
    rfl
  | load hop =>
    have hnext : m.pc + 1 < 65536 := by have := pc_lt_of_op hop; omega
    rw [hop]
    exact Guarded.next_apply hnext
  | compute hop hreaches =>
    have hnext : m.pc + 1 < 65536 := by have := pc_lt_of_op hop; omega
    rw [hop]
    exact Guarded.compute_of_reaches hnext hreaches
  | fault hop huses hnegative =>
    rw [hop]
    exact Guarded.compute_of_fault huses hnegative

/-- The program counter stays a number of sixteen bits. -/
theorem pc_step_lt (hsize : rom.code.size < 65536) (hpc : m.pc < 65536) :
    (m.step rom).1.pc < 65536 := by
  have hway := m.way rom
  generalize m.step rom = result at hway
  cases hway with
  | halted hend => exact hpc
  | load hop =>
    have := pc_lt_of_op hop
    change m.pc + 1 < 65536
    omega
  | @compute fields hop hreaches =>
    -- A jump leads to the number of a word.
    have hlt : ∀ jumps : Bool, (if jumps then m.a.toNat else m.pc + 1) < 65536 := fun jumps => by
      have := pc_lt_of_op hop
      have := m.a.isLt
      cases jumps <;> simp only [Bool.false_eq_true, if_true, if_false] <;> omega
    exact hlt _
  | fault hop huses hnegative => exact hpc

/-! ### Safety -/

/-- **The instruction at the program counter faults**: it reads or writes the memory word that A
addresses, and A is negative. -/
def Faults (rom : Rom) (m : Machine) : Prop :=
  ∃ fields, rom.code[m.pc]? = some (.compute fields) ∧ fields.usesMemory = true ∧ m.a.toInt < 0

/-- The machine after so many cycles, whatever became of them. -/
def after (rom : Rom) (m : Machine) : Nat → Machine
  | 0 => m
  | n + 1 => ((m.after rom n).step rom).1

/-- **The next cycle is safe.** -/
structure SafeCycle (rom : Rom) (m : Machine) : Prop where
  /-- The program counter holds a number of sixteen bits. -/
  counter : m.pc < 65536
  /-- Part by part and with all checks, the cycle is the same. -/
  guarded : Guarded.cycle rom m = (Guarded.outcome (m.step rom).2, (m.step rom).1)
  /-- The machine halts behind the last instruction. -/
  halted_iff : (m.step rom).2 = .halted ↔ rom.code.size ≤ m.pc
  /-- Halting changes nothing. -/
  unchanged : (m.step rom).2 = .halted → (m.step rom).1 = m
  /-- A cycle faults with the instructions that do. -/
  fault_iff : (∃ address pc, (m.step rom).2 = .fault address pc) ↔ m.Faults rom
  /-- A fault changes nothing but the count of cycles, and it is the same however often the cycle is
  tried again. -/
  again : m.Faults rom → ∀ n,
    (m.after rom n).step rom = ({ m with steps := m.steps + n + 1 }, .fault m.a m.pc)
  /-- In all other cases an instruction is executed. -/
  ran_iff : (m.step rom).2 = .ran ↔ m.pc < rom.code.size ∧ ¬m.Faults rom

/-- An instruction that faults has come to a negative A. -/
theorem faults_iff {fields : Compute} (hop : rom.code[m.pc]? = some (.compute fields)) :
    m.Faults rom ↔ fields.usesMemory = true ∧ ¬m.a.Addresses := by
  rw [Word.not_addresses_iff]
  constructor
  · rintro ⟨fields', hop', hfault⟩
    obtain rfl := Op.compute.inj (Option.some.inj (hop.symm.trans hop'))
    exact hfault
  · exact fun hfault => ⟨fields, hop, hfault⟩

/-- **A fault changes nothing but the count of cycles.** -/
theorem step_of_faults (h : m.Faults rom) :
    m.step rom = ({ m with steps := m.steps + 1 }, .fault m.a m.pc) := by
  obtain ⟨fields, hop, hfault⟩ := id h
  have hway := m.way rom
  generalize m.step rom = result at hway
  cases hway with
  | halted hend => exact absurd (pc_lt_of_op hop) (Nat.not_lt.mpr hend)
  | load hop' => exact absurd (hop.symm.trans hop') (by simp)
  | compute hop' hreaches =>
    have hboth := (faults_iff hop').mp h
    exact absurd (hreaches hboth.1) hboth.2
  | fault hop' huses hnegative => rfl

/-- A machine that has faulted only counts further cycles. -/
theorem after_of_faults (h : m.Faults rom) (n : Nat) :
    m.after rom n = { m with steps := m.steps + n } := by
  induction n with
  | zero => rfl
  | succ n ih =>
    have hstill : Faults rom { m with steps := m.steps + n } := h
    rw [after, ih, step_of_faults hstill]
    rfl

/-- **A cycle halts, faults or executes an instruction**, and each of them where it has to. -/
theorem step_cases (rom : Rom) (m : Machine) :
    (rom.code.size ≤ m.pc ∧ m.step rom = (m, .halted)) ∨
    (m.pc < rom.code.size ∧ m.Faults rom ∧
      m.step rom = ({ m with steps := m.steps + 1 }, .fault m.a m.pc)) ∨
    (m.pc < rom.code.size ∧ ¬m.Faults rom ∧ (m.step rom).2 = .ran) := by
  have hway := m.way rom
  generalize m.step rom = result at hway
  cases hway with
  | halted hend => exact .inl ⟨hend, rfl⟩
  | load hop =>
    refine .inr (.inr ⟨pc_lt_of_op hop, ?_, rfl⟩)
    rintro ⟨fields, hop', -⟩
    exact absurd (hop.symm.trans hop') (by simp)
  | compute hop hreaches =>
    refine .inr (.inr ⟨pc_lt_of_op hop, fun h => ?_, rfl⟩)
    obtain ⟨huses, hnegative⟩ := (faults_iff hop).mp h
    exact hnegative (hreaches huses)
  | fault hop huses hnegative =>
    exact .inr (.inl ⟨pc_lt_of_op hop, (faults_iff hop).mpr ⟨huses, hnegative⟩, rfl⟩)

/-- **Every cycle is safe** in a program that leaves room for the counter. -/
theorem safeCycle (hsize : rom.code.size < 65536) (hpc : m.pc < 65536) : m.SafeCycle rom := by
  have hagain : m.Faults rom → ∀ n,
      (m.after rom n).step rom = ({ m with steps := m.steps + n + 1 }, .fault m.a m.pc) := by
    intro h n
    have hstill : Faults rom { m with steps := m.steps + n } := h
    rw [after_of_faults h, step_of_faults hstill]
  have hguarded := Guarded.cycle_eq hsize m
  rcases step_cases rom m with ⟨hend, hstep⟩ | ⟨hlt, hfaults, hstep⟩ | ⟨hlt, hno, hran⟩
  · have hno : ¬m.Faults rom := fun ⟨_, hop, _⟩ => Nat.not_lt.mpr hend (pc_lt_of_op hop)
    exact ⟨hpc, hguarded, iff_of_true (by rw [hstep]) hend, fun _ => by rw [hstep],
      iff_of_false (by simp [hstep]) hno, hagain, iff_of_false (by simp [hstep]) (by omega)⟩
  · exact ⟨hpc, hguarded, iff_of_false (by simp [hstep]) (by omega),
      fun h => absurd h (by simp [hstep]), iff_of_true ⟨_, _, congrArg Prod.snd hstep⟩ hfaults,
      hagain, iff_of_false (by simp [hstep]) fun h => h.2 hfaults⟩
  · exact ⟨hpc, hguarded, iff_of_false (by simp [hran]) (by omega),
      fun h => absurd h (by simp [hran]), iff_of_false (by simp [hran]) hno, hagain,
      iff_of_true hran ⟨hlt, hno⟩⟩

/-- The program counter stays a number of sixteen bits in every state. -/
theorem pc_after_lt (hsize : rom.code.size < 65536) (hpc : m.pc < 65536) (n : Nat) :
    (m.after rom n).pc < 65536 := by
  induction n with
  | zero => exact hpc
  | succ n ih => exact pc_step_lt hsize ih

/-! ### The states of runs -/

variable {m' : Machine}

/-- Where a run has led is where its cycles lead. -/
theorem after_of_runsFor {n : Nat} (h : m.RunsFor rom n m') : m.after rom n = m' := by
  induction n generalizing m' with
  | zero =>
    cases h
    rfl
  | succ n ih =>
    obtain ⟨between, hfirst, hlast⟩ := h.split
    rw [after, ih hfirst, hlast.step_eq]

/-- **A run ends in a state that cycles lead to.** -/
theorem exists_after_of_run (rom : Rom) (limit : Nat) (m : Machine) :
    ∃ n, (m.run rom limit).1 = m.after rom n := by
  rcases hrun : m.run rom limit with ⟨last, r⟩
  cases run_eq_iff.mp hrun with
  | halted hruns hpc hn => exact ⟨_, (after_of_runsFor hruns).symm⟩
  | @fault n m₁ _ _ _ hruns hfault hn =>
    refine ⟨n + 1, ?_⟩
    rw [after, after_of_runsFor hruns, hfault]
  | limit hruns => exact ⟨_, (after_of_runsFor hruns).symm⟩

theorem exists_after_of_runTo (rom : Rom) (target limit : Nat) (m : Machine) :
    ∃ n, (m.runTo rom target limit).1 = m.after rom n := by
  rcases hrun : m.runTo rom target limit with ⟨last, r⟩
  cases runTo_eq_iff.mp hrun with
  | reached hruns havoids hpc hn => exact ⟨_, (after_of_runsFor hruns).symm⟩
  | halted hruns havoids hpc hn => exact ⟨_, (after_of_runsFor hruns).symm⟩
  | @fault n m₁ _ _ _ hruns havoids hfault hn =>
    refine ⟨n + 1, ?_⟩
    rw [after, after_of_runsFor hruns, hfault]
  | limit hruns havoids => exact ⟨_, (after_of_runsFor hruns).symm⟩

/-- **Every cycle of an assembled program is safe.** A machine with a program counter of sixteen
bits is given the program of any text, whatever its memory and its registers hold. Then in every
state that cycles lead to, and wherever bounded runs end, the next cycle looks up no memory word
that does not exist and does not count beyond the program counter; it halts exactly behind the last
instruction, and changes nothing; it faults exactly at an instruction that reads or writes the
memory while A is negative, and then changes nothing but the count of cycles, so that the same fault
comes again; and otherwise the instruction is executed. -/
theorem cycles_are_safe {text : String} {rom : Rom} (hrom : assemble text = .ok rom) {m : Machine}
    (hpc : m.pc < 65536) :
    (∀ n, (m.after rom n).SafeCycle rom) ∧
      ∀ limit, (m.run rom limit).1.SafeCycle rom ∧
        ∀ target, (m.runTo rom target limit).1.SafeCycle rom := by
  have hsize : rom.code.size < 65536 :=
    Nat.lt_of_le_of_lt (Rom.size_le_of_assemble hrom) (by decide)
  have hafter : ∀ n, (m.after rom n).SafeCycle rom := fun n =>
    safeCycle hsize (pc_after_lt hsize hpc n)
  refine ⟨hafter, fun limit => ⟨?_, fun target => ?_⟩⟩
  · obtain ⟨n, hn⟩ := exists_after_of_run rom limit m
    exact hn ▸ hafter n
  · obtain ⟨n, hn⟩ := exists_after_of_runTo rom target limit m
    exact hn ▸ hafter n

/-- The second instruction has all three destinations, reads the memory and jumps. Its fault leaves
nothing behind, however often it is tried. -/
theorem cycles_are_safe_everywhere : ∃ rom, assemble "A=-1\nAMD=M+1;JMP" = .ok rom ∧
    Machine.reset.pc < 65536 ∧
    ∀ n, ((Machine.reset.after rom 1).after rom n).step rom =
      ({ Machine.reset with a := -1, pc := 1, steps := 1 + n + 1 }, .fault (-1) 1) := by
  obtain ⟨rom, hrom, hcode⟩ : ∃ rom, assemble "A=-1\nAMD=M+1;JMP" = .ok rom ∧
      rom.code = #[.compute ⟨some .a, .negOne, none⟩,
        .compute ⟨some .amd, .incY .m, some .always⟩] := ⟨_, rfl, rfl⟩
  have hpc : Machine.reset.pc < 65536 := by decide
  have hfirst : Machine.reset.after rom 1 =
      { Machine.reset with a := -1, pc := 1, steps := 1 } := by
    rw [after, after, step, hcode]
    rfl
  have hfaults : (Machine.reset.after rom 1).Faults rom := by
    rw [hfirst]
    exact ⟨⟨some .amd, .incY .m, some .always⟩, by rw [hcode]; rfl, rfl, by decide⟩
  have hagain := ((cycles_are_safe hrom hpc).1 1).again hfaults
  refine ⟨rom, hrom, hpc, fun n => ?_⟩
  rw [hagain n, hfirst]

end Machine

end HackStack
