import HackStack.Proofs.Rom.Sparing
import HackStack.Proofs.Rom.Variables

/-!
# The memory for variables

The memory map gives static variables the cells from 16 on, and the stack those from 256 on. The
assembler keeps to the first bound only: the variables of a program get the cells from 16 on one
after another, as many as there are. So exactly the first 240 of them lie below the stack
(`HackStack.statics_stay_below_stack`). These are kept apart from the stack, however many others
there are: the code of a push writes the fixed cells and the stack
(`HackStack.Task.Lowers.exists_pushesBeside`), and the code of a pop writes the stack pointer and
its target (`HackStack.Machine.read_of_pop`).

Nothing is said about the variables behind them. The 241st lies on the stack, and to pop a word into
it overwrites a word of the stack (`HackStack.exists_static_on_stack`).
-/

namespace HackStack

open Assembly Statement

/-! ### Parts of blocks -/

/-- A statement that changes registers only. -/
def Assembly.Statement.leavesMemory : Statement → Bool
  | .instruction (.address _) | .label _ | .comment _ => true
  | .instruction (.compute ⟨some dest, _, none⟩) => !dest.writesM
  | .instruction (.compute _) => false

namespace Core

variable {rom : Rom} {w : Word} {Q : Core → Prop} {block : Block} {c : Core}

/-- Code that changes registers only spares every cell. -/
theorem spares_of_leavesMemory (h : block.all Statement.leavesMemory = true)
    (hQ : ∀ c' : Core, c'.memory = c.memory → Q c') : c.Spares rom w Q block := by
  induction block generalizing c with
  | nil => exact hQ c rfl
  | cons s block ih =>
    obtain ⟨hs, hblock⟩ := Bool.and_eq_true_iff.mp h
    match s with
    | .instruction (.address (.number n)) => exact ih hblock hQ
    | .instruction (.address (.symbol name)) => exact fun _ _ => ih hblock hQ
    | .instruction (.compute ⟨some dest, comp, none⟩) =>
      have hwrites : dest.writesM = false := Bool.not_eq_true' _ ▸ hs
      refine fun _ => ⟨fun hm => absurd (hwrites.symm.trans hm) Bool.false_ne_true, ?_⟩
      refine ih hblock fun c' hc' => hQ c' (hc'.trans ?_)
      rw [assign, hwrites]
      rfl
    | .instruction (.compute ⟨none, comp, jump⟩) => exact absurd hs Bool.false_ne_true
    | .instruction (.compute ⟨some dest, comp, some jump⟩) => exact absurd hs Bool.false_ne_true
    | .label name => exact ih hblock hQ
    | .comment text => exact ih hblock hQ

/-- Saving D in a fixed cell writes that cell only. -/
theorem spares_saveD {cell : String} {n : Nat} (hname : IsName cell)
    (hvalue : rom.value? cell = some n) (hw : Word.ofNat n ≠ w)
    (hQ : ∀ c' : Core, c'.memory = c.memory.write (Word.ofNat n) c.d → Q c') :
    c.Spares rom w Q (Block.saveD cell) := by
  intro k hk
  obtain rfl := hk.unique (hname.legible.loads hvalue)
  exact fun _ => ⟨fun _ => hw, hQ _ rfl⟩

/-- **A push** writes the slot that the stack pointer addresses, and the stack pointer. -/
theorem spares_pushD (hzero : Word.ofNat 0 ≠ w) (hsp : c.memory.sp ≠ w)
    (hQ : c.memory.sp.Addresses → ∀ c' : Core, c'.memory = c.memory.pushed c.d → Q c') :
    c.Spares rom w Q Block.pushD := by
  have hloads := isName_stackPointer.legible.loads (@Rom.value?_stackPointer rom)
  intro n hn
  obtain rfl := hn.unique hloads
  refine fun _ => ⟨nofun, fun hreaches => ⟨fun _ => hsp, ?_⟩⟩
  intro n hn
  obtain rfl := hn.unique hloads
  exact fun _ => ⟨fun _ => hzero, hQ (hreaches rfl) _ rfl⟩

/-- **A pop into D** writes the stack pointer only. -/
theorem spares_popD (hzero : Word.ofNat 0 ≠ w)
    (hQ : ∀ c' : Core, c'.memory = c.memory.popped → Q c') : c.Spares rom w Q Block.popD := by
  have hloads := isName_stackPointer.legible.loads (@Rom.value?_stackPointer rom)
  intro n hn
  obtain rfl := hn.unique hloads
  exact fun _ => ⟨fun _ => hzero, fun _ => ⟨nofun, hQ _ rfl⟩⟩

end Core

/-! ### Blocks that push -/

/-- **A word of the memory for variables**, between the fixed cells and the stack. -/
structure Word.ForVariables (w : Word) : Prop where
  first : MemoryMap.firstVariable ≤ w.toNat
  below : w.toNat < MemoryMap.stackBase

/-- The word of a fixed cell is not in the memory for variables. -/
theorem Word.ForVariables.ofNat_ne {w : Word} (hw : w.ForVariables) {n : Nat}
    (hn : n < MemoryMap.firstVariable) : Word.ofNat n ≠ w := by
  have hfirst := hw.first
  rintro rfl
  rw [MemoryMap.firstVariable] at hn hfirst
  rw [Word.toNat_ofNat (by omega)] at hfirst
  omega

/-- The stack pointer is at the usual start of the stack, or above. -/
def Memory.Stacked (memory : Memory) : Prop := MemoryMap.stackBase ≤ memory.sp.toNat

/-- Writing another cell leaves the stack where it is. -/
theorem Memory.Stacked.write {memory : Memory} (h : memory.Stacked) {w : Word}
    (hw : w ≠ Word.ofNat 0) (v : Word) : (memory.write w v).Stacked := by
  rw [Stacked, sp, read_write_of_ne hw]
  exact h

/-- A push leaves the stack above its start. -/
theorem Memory.Stacked.pushed {memory : Memory} (h : memory.Stacked)
    (hsp : memory.sp.Addresses) (v : Word) : (memory.pushed v).Stacked := by
  rw [Stacked, MemoryMap.stackBase] at h
  rw [Word.Addresses] at hsp
  rw [Stacked, sp_pushed (Word.ofNat_toNat memory.sp).symm (by omega) hsp,
    Word.toNat_ofNat (by omega), MemoryMap.stackBase]
  omega

/-- **A block pushes beside a cell**: it spares the cell and leaves the stack above its start. -/
def Block.PushesBeside (rom : Rom) (w : Word) (block : Block) : Prop :=
  ∀ c : Core, c.memory.Stacked → c.Spares rom w (fun c' => c'.memory.Stacked) block

namespace Block

variable {rom : Rom} {w : Word} {block rest : Block}

theorem PushesBeside.append (h : block.PushesBeside rom w) (h' : rest.PushesBeside rom w) :
    PushesBeside rom w (block ++ rest) :=
  fun c hc => Core.spares_append.mpr ((h c hc).mono h')

theorem PushesBeside.flatten {blocks : List Block}
    (h : ∀ block ∈ blocks, block.PushesBeside rom w) : PushesBeside rom w blocks.flatten := by
  induction blocks with
  | nil => exact fun c hc => hc
  | cons block blocks ih =>
    obtain ⟨hblock, hblocks⟩ := List.forall_mem_cons.mp h
    exact hblock.append (ih hblocks)

theorem pushesBeside_of_leavesMemory (h : block.all Statement.leavesMemory = true) :
    PushesBeside rom w block :=
  fun _ hc => Core.spares_of_leavesMemory h fun _ hc' => hc' ▸ hc

theorem pushesBeside_pushD (hw : w.ForVariables) : PushesBeside rom w pushD := by
  intro c hc
  refine Core.spares_pushD (hw.ofNat_ne (by decide)) (fun he => ?_) fun haddresses c' hc' => ?_
  · exact absurd hw.below (Nat.not_lt.mpr (he ▸ hc))
  · rw [hc']
    exact hc.pushed haddresses c.d

theorem pushesBeside_saveD (hw : w.ForVariables) (p : Pointer) :
    PushesBeside rom w (saveD p.symbol) := by
  intro c hc
  have hcell := p.cell_bounds
  refine Core.spares_saveD p.isName_symbol (Rom.value?_pointer p) (hw.ofNat_ne ?_)
    fun c' hc' => ?_
  · exact Nat.lt_trans hcell.2 (by decide)
  · rw [hc']
    exact hc.write (Word.ofNat_ne (by omega)) c.d

/-- Setting up the stack writes the stack pointer only. -/
theorem pushesBeside_setUp (hw : w.ForVariables) {stackBase : Nat}
    (hbase : MemoryMap.stackBase ≤ stackBase) (hmax : stackBase ≤ MemoryMap.maxAddress) :
    PushesBeside rom w (setUp stackBase) := by
  intro c hc
  refine fun _ => ⟨nofun, ?_⟩
  refine Core.spares_saveD isName_stackPointer Rom.value?_stackPointer
    (hw.ofNat_ne (by decide)) fun c' hc' => ?_
  rw [MemoryMap.maxAddress] at hmax
  rw [hc', Memory.Stacked, Memory.sp, Memory.read_write_self (Word.addresses_ofNat (by decide))]
  change MemoryMap.stackBase ≤ (Word.ofNat stackBase).toNat
  rwa [Word.toNat_ofNat (by omega)]

theorem pushesBeside_fetch (denoted : Target) : PushesBeside rom w (fetch denoted) := by
  cases denoted <;> exact pushesBeside_of_leavesMemory rfl

theorem pushesBeside_zeros (hw : w.ForVariables) (locals : Nat) :
    PushesBeside rom w (zeros locals) := by
  rw [zeros]
  split
  · exact fun c hc => hc
  · have hzero : PushesBeside rom w [assign .d .zero] := pushesBeside_of_leavesMemory rfl
    refine hzero.append (.flatten fun block hblock => ?_)
    rw [List.eq_of_mem_replicate hblock]
    exact pushesBeside_pushD hw

theorem pushesBeside_savePointers (hw : w.ForVariables) : PushesBeside rom w savePointers := by
  refine PushesBeside.flatten fun block hblock => ?_
  obtain ⟨p, -, rfl⟩ := List.mem_map.mp hblock
  exact PushesBeside.append (pushesBeside_of_leavesMemory rfl) (pushesBeside_pushD hw)

theorem pushesBeside_enterFrame (hw : w.ForVariables) (distance : Nat) :
    PushesBeside rom w (enterFrame distance) := by
  have hload : PushesBeside rom w (loadD MemoryMap.stackPointer) :=
    pushesBeside_of_leavesMemory rfl
  have hdistance : PushesBeside rom w [number distance, assign .d (.dSubY .a)] :=
    pushesBeside_of_leavesMemory rfl
  exact (((hload.append hdistance).append (pushesBeside_saveD hw _)).append hload).append
    (pushesBeside_saveD hw _)

/-- **A call**, up to its jump. -/
theorem pushesBeside_calling (hw : w.ForVariables) (returnLabel name : String) (arguments : Nat) :
    PushesBeside rom w (calling returnLabel name arguments) := by
  have hreturn : PushesBeside rom w [symbol returnLabel, assign .d (.y .a)] :=
    pushesBeside_of_leavesMemory rfl
  have hname : PushesBeside rom w [symbol name] :=
    pushesBeside_of_leavesMemory rfl
  exact (((hreturn.append (pushesBeside_pushD hw)).append (pushesBeside_savePointers hw)).append
    (pushesBeside_enterFrame hw _)).append hname

end Block

/-- **The tasks that push**: commands that make the stack grow, and the start of a program. -/
def Task.pushes : Task → Bool
  | .startUp _ _ | .written (.push _ _) | .written (.function _ _) | .written (.call _ _) => true
  | .written _ => false

/-- **The code of a task that pushes** pushes beside every cell for variables, up to the jump at the
end of a call. -/
theorem Task.Lowers.exists_pushesBeside {context context' : Context} {task : Task} {block : Block}
    (h : task.Lowers context block context') (hpushes : task.pushes = true)
    (hbase : ∀ stackBase entry, task = .startUp stackBase entry → MemoryMap.stackBase ≤ stackBase)
    {rom : Rom} {w : Word} (hw : w.ForVariables) :
    ∃ code tail, block = code ++ tail ∧ code.PushesBeside rom w ∧
      (tail = [] ∨ ∃ back, tail = [branch .zero .always, label back]) := by
  cases h with
  | startUp hmax h =>
    cases h with
    | call hreach hfree =>
      rw [Block.callReturningTo_eq, ← List.append_assoc]
      refine ⟨_, _, rfl, ?_, Or.inr ⟨_, rfl⟩⟩
      exact (Block.pushesBeside_setUp hw (hbase _ _ rfl) hmax).append
        (Block.pushesBeside_calling hw _ _ _)
  | written h =>
    cases h with
    | push htarget =>
      refine ⟨_, [], (List.append_nil _).symm, ?_, Or.inl rfl⟩
      exact (Block.pushesBeside_fetch _).append (Block.pushesBeside_pushD hw)
    | @function name locals hfree =>
      refine ⟨_, [], (List.append_nil _).symm, ?_, Or.inl rfl⟩
      have hentry : Block.PushesBeside rom w [label name] :=
        Block.pushesBeside_of_leavesMemory rfl
      exact hentry.append (Block.pushesBeside_zeros hw locals)
    | call hreach hfree =>
      exact ⟨_, _, Block.callReturningTo_eq, Block.pushesBeside_calling hw _ _ _, Or.inr ⟨_, rfl⟩⟩
    | pop | unary | binary | comparison | label | goto | ifGoto | ret =>
      exact absurd hpushes Bool.false_ne_true

/-! ### Runs through blocks -/

section

variable {rom : Rom} {w : Word} {m m' : Machine} {block : Block} {n : Nat}

/-- **While a block that pushes beside a cell is gone through**, the cell keeps its word. The jump
that may stand at its end writes nothing. -/
theorem Machine.read_of_pushesBeside {code tail : Block} (hfound : ∀ s ∈ code ++ tail, s.Found)
    (hholds : rom.Holds m.pc (statementsOf (listing (code ++ tail))))
    (hpushes : code.PushesBeside rom w)
    (htail : tail = [] ∨ ∃ back, tail = [branch .zero .always, label back])
    (hstack : m.memory.Stacked) (hn : n ≤ size (code ++ tail)) (hruns : m.RunsFor rom n m') :
    m'.memory.read w = m.memory.read w := by
  obtain ⟨hcode, -⟩ := List.forall_mem_append.mp hfound
  rw [statementsOf_append] at hholds
  have inside : ∀ {n : Nat} {m' : Machine}, n ≤ size code → m.RunsFor rom n m' →
      m'.pc = m.pc + n ∧ m'.memory.read w = m.memory.read w := fun hn hruns =>
    @Machine.read_of_spares rom w _ code m.core _ m.pc m.steps _ hcode hholds.left
      (hpushes m.core hstack) hn hruns
  by_cases hinside : n ≤ size code
  · exact (inside hinside hruns).2
  · obtain rfl | ⟨back, rfl⟩ := htail
    · rw [List.append_nil] at hn
      exact absurd hn hinside
    · -- Only the jump is left.
      obtain rfl : n = size code + 1 := by
        have htail : size [branch .zero .always, label back] = 1 := rfl
        rw [size_append, htail] at hn
        omega
      obtain ⟨between, hfirst, hlast⟩ := hruns.split
      obtain ⟨hpc, hread⟩ := inside (Nat.le_refl _) hfirst
      have hplain : (branch .zero .always).Plain := trivial
      have hjump := hholds.right
      rw [statementsOf_cons hplain.legible] at hjump
      change rom.Holds (m.pc + addressBehind code) _ at hjump
      rw [addressBehind_of_found hcode, ← hpc] at hjump
      have hran := @Machine.runsFor_branch rom between.core between.pc between.steps _ _ _ hjump rfl
      rw [hlast.unique hran]
      exact hread

/-- **While a word is popped into a cell** with a name, no other word changes but the stack
pointer. -/
theorem Machine.read_of_pop {name : String} {cell : Nat}
    (hfound : ∀ s ∈ Block.popD ++ [symbol name, assign .m .d], s.Found)
    (hholds : rom.Holds m.pc (statementsOf (listing (Block.popD ++ [symbol name, assign .m .d]))))
    (hload : rom.code[m.pc + 3]? = some (.load cell)) (hzero : Word.ofNat 0 ≠ w)
    (hcell : Word.ofNat cell ≠ w) (hn : n ≤ size (Block.popD ++ [symbol name, assign .m .d]))
    (hruns : m.RunsFor rom n m') : m'.memory.read w = m.memory.read w := by
  obtain ⟨hpop, htail⟩ := List.forall_mem_append.mp hfound
  have hname := hholds
  rw [statementsOf_append] at hname
  have hright := hname.right
  change rom.Holds (m.pc + addressBehind Block.popD) _ at hright
  rw [addressBehind_of_found hpop] at hright
  obtain ⟨k, hloads, hop⟩ := hright.exists_loads (htail _ List.mem_cons_self)
  obtain rfl : cell = k := Op.load.inj (Option.some.inj (hload.symm.trans hop))
  have hspares : m.core.Spares rom w (fun _ => True)
      (Block.popD ++ [symbol name, assign .m .d]) := by
    refine Core.spares_append.mpr (Core.spares_popD hzero fun c' _ n hn => ?_)
    obtain rfl := hn.unique hloads
    exact fun _ => ⟨fun _ => hcell, trivial⟩
  obtain ⟨-, hread⟩ :=
    @Machine.read_of_spares rom w _ _ m.core m' m.pc m.steps n hfound hholds hspares hn hruns
  exact hread

end

/-- **A pop into a static variable** ends with the variable's symbol. -/
theorem Task.Lowers.eq_pop_static {context context' : Context} {block : Block} {index : Nat}
    (h : Task.Lowers context (.written (.pop .static index)) block context') :
    ∃ name, block = Block.popD ++ [symbol name, assign .m .d] := by
  cases h with
  | written h =>
    cases h with
    | pop htarget hpop =>
      cases Block.target_eq_ok_iff.mp htarget with
      | static => exact ⟨_, (Except.ok.inj hpop).symm⟩

/-! ### Cells of variables -/

/-- **Where the cells of variables lie**: a variable lies below the stack exactly if it is among the
first of the program, as many as there are cells for variables. -/
theorem Rom.Meets.cell_lt_iff {rom : Rom} {code : List Statement} (h : rom.Meets code)
    {name : String} {cell : Nat} (hcell : rom.cells[name]? = some cell) :
    MemoryMap.firstVariable ≤ cell ∧ (cell < MemoryMap.stackBase ↔
      name ∈ (variableNames code).take (MemoryMap.stackBase - MemoryMap.firstVariable)) := by
  obtain ⟨i, hi, rfl⟩ := (h.cell_iff name cell).mp hcell
  refine ⟨Nat.le_add_right _ _, fun hlt => ?_, fun hmem => ?_⟩
  · refine List.mem_of_getElem? (i := i) ?_
    rwa [List.getElem?_take, if_pos (Nat.lt_sub_of_add_lt (Nat.add_comm _ i ▸ hlt))]
  · obtain ⟨j, hj⟩ := List.getElem?_of_mem hmem
    rw [List.getElem?_take] at hj
    split at hj
    next hlt =>
      have hcell' := (h.cell_iff name _).mpr ⟨j, hj, rfl⟩
      rw [Option.some.inj (hcell.symm.trans hcell')]
      exact Nat.add_lt_of_lt_sub' hlt
    next => cases hj

/-- A cell below the stack is one of the memory for variables. -/
theorem Rom.Meets.forVariables {rom : Rom} {code : List Statement} (h : rom.Meets code)
    {name : String} {cell : Nat} (hcell : rom.cells[name]? = some cell)
    (hbelow : cell < MemoryMap.stackBase) : (Word.ofNat cell).ForVariables := by
  have hsmall : cell < 65536 := Nat.lt_trans hbelow (by decide)
  have hnat : (Word.ofNat cell).toNat = cell := Word.toNat_ofNat hsmall
  exact ⟨hnat.symm ▸ (h.cell_lt_iff hcell).1, hnat.symm ▸ hbelow⟩

/-- **All variables lie below the stack** exactly if there are no more than there are cells for
them. -/
theorem Rom.Meets.cells_lt_iff {rom : Rom} {code : List Statement} (h : rom.Meets code) :
    (∀ (name : String) (cell : Nat), rom.cells[name]? = some cell → cell < MemoryMap.stackBase) ↔
      (variableNames code).length ≤ MemoryMap.stackBase - MemoryMap.firstVariable := by
  constructor
  · intro hall
    refine Nat.le_of_not_lt fun hlt => ?_
    have hcell := (h.cell_iff _ _).mpr ⟨_, List.getElem?_eq_getElem hlt, rfl⟩
    exact absurd (hall _ _ hcell) (by decide)
  · intro hlength name cell hcell
    obtain ⟨i, hi, rfl⟩ := (h.cell_iff name cell).mp hcell
    refine (h.cell_lt_iff hcell).2.mpr ?_
    rw [List.take_of_length_le hlength]
    exact List.mem_of_getElem? hi

/-! ### Programs -/

/-- **Names that are built in a file** stand on one line if its namespace does. -/
theorem Standing.builds_newline_not_mem {space : String} (h : '\n' ∉ space.toList) :
    (Standing.beginFile {} space).Builds fun name => '\n' ∉ name.toList := by
  refine builds_beginFile fun name c rest hname hc _ hrest => ?_
  have hbuilt : ∀ d ∈ c :: rest, isSymbolChar d = true := List.forall_mem_cons.mpr ⟨hc, hrest⟩
  rw [hname, List.mem_append, not_or]
  exact ⟨h, (inline_of_isSymbolChar hbuilt).newline_not_mem⟩

/-- **The statements of a program** have been found in the text that was assembled. -/
theorem Translates.found {sources : List Source} {options : Options} {sites : List Site}
    {context : Context} (h : Translates {} (events sources options) sites context) {rom : Rom}
    (hrom : assemble (listing (codeOf options.annotate sites)) = .ok rom)
    (hspaces : ∀ source ∈ sources, '\n' ∉ source.space.toList)
    (hentry : options.startUp = true → '\n' ∉ options.entry.toList) :
    ∀ s ∈ codeOf options.annotate sites, s.Found := by
  have hwritten := h.writtenWith_codeOf
    (fun _ (hname : IsName _) => hname.legible.inline.newline_not_mem)
    fun source hsource => Standing.builds_newline_not_mem (hspaces source hsource)
  refine found_of_assemble hrom (fun s hs => ?_) fun s hs =>
    (hwritten s hs).imp_right fun h => ⟨_, h.2⟩
  rcases hwritten s hs with hs | ⟨hon, rfl⟩
  · exact hs.newline_not_mem
  · rw [toList_render_symbol]
    exact List.not_mem_cons_of_ne_of_not_mem (by decide) (hentry hon)

/-- **What a block has been read as** stands in the program where the block stands in the text. -/
theorem Block.StandsAt.holds_statementsOf {block : Block} {text : String} {rom : Rom}
    {address : Nat} (h : block.StandsAt text address) (hrom : assemble text = .ok rom) :
    rom.Holds address (statementsOf (listing block)) := by
  obtain ⟨before, after, htext, rfl⟩ := h
  have hholds := Rom.holds_of_assemble hrom
  rw [htext] at hholds
  have hblock := hholds.left.right
  rwa [Nat.zero_add] at hblock

/-- **Stack and variables are kept apart** on the way from `m`, where the block of a task begins, to
`m'`. -/
structure Rom.KeepsApart (rom : Rom) (task : Task) (m m' : Machine) : Prop where
  /-- A push overwrites no variable that lies below the stack. -/
  push : task.pushes = true → ∀ (name : String) (cell : Nat), rom.cells[name]? = some cell →
    cell < MemoryMap.stackBase →
      m'.memory.read (Word.ofNat cell) = m.memory.read (Word.ofNat cell)
  /-- A pop into a static variable that lies below the stack overwrites no slot of the stack. -/
  pop : ∀ index cell, task = .written (.pop .static index) →
    rom.Accesses m.pc (.pop .static index) cell → cell < MemoryMap.stackBase →
      ∀ slot, MemoryMap.stackBase ≤ slot → slot < m.memory.sp.toNat →
        m'.memory.read (Word.ofNat slot) = m.memory.read (Word.ofNat slot)

/-- **The code of a task** keeps stack and variables apart. -/
theorem Task.Lowers.keepsApart {context context' : Context} {task : Task} {block : Block}
    (h : task.Lowers context block context')
    (hbase : ∀ stackBase entry, task = .startUp stackBase entry → MemoryMap.stackBase ≤ stackBase)
    {rom : Rom} {m m' : Machine} {n : Nat} (hfound : ∀ s ∈ block, s.Found)
    (hholds : rom.Holds m.pc (statementsOf (listing block)))
    (hcells : ∀ (name : String) (cell : Nat), rom.cells[name]? = some cell →
      cell < MemoryMap.stackBase → (Word.ofNat cell).ForVariables)
    (hstack : m.memory.Stacked) (hn : n ≤ size block) (hruns : m.RunsFor rom n m') :
    rom.KeepsApart task m m' := by
  constructor
  case push =>
    intro hpushes name cell hcell hbelow
    obtain ⟨code, tail, rfl, hbeside, htail⟩ :=
      h.exists_pushesBeside hpushes hbase (hcells name cell hcell hbelow)
    exact Machine.read_of_pushesBeside hfound hholds hbeside htail hstack hn hruns
  case pop =>
    intro index cell htask haccesses hbelow slot hbase hlive
    rw [htask] at h
    obtain ⟨name, rfl⟩ := h.eq_pop_static
    have hbound := m.memory.sp.isLt
    rw [MemoryMap.stackBase] at hbelow hbase
    refine Machine.read_of_pop hfound hholds haccesses.1 ?_ ?_ hn hruns
    · exact Word.ofNat_ne (by omega)
    · exact Word.ofNat_ne (by omega)

/-- **Static variables stay below the stack, as far as there is room.** In a program that is
translated and assembled, a variable lies in the memory for variables exactly if it is among the
first 240 of the program; so all of them do exactly if there are no more.

No name may hold a line feed, and a program that starts itself has to set up its stack at the usual
place or above. Let the machine stand where the block of a task begins, with its stack pointer at
the usual start of the stack or above. Then nowhere in the block a push has overwritten a variable
that lies below the stack, and a pop into such a static variable has overwritten no slot of the
stack. -/
theorem statics_stay_below_stack {sources : List Source} {options : Options} {t : Translation}
    {rom : Rom} (ht : translate sources options = .ok t) (hrom : assemble t.text = .ok rom) :
    (∀ (name : String) (cell : Nat), rom.cells[name]? = some cell →
      MemoryMap.firstVariable ≤ cell ∧ (cell < MemoryMap.stackBase ↔
        name ∈ (variableNames (statementsOf t.text)).take
          (MemoryMap.stackBase - MemoryMap.firstVariable))) ∧
    ((∀ (name : String) (cell : Nat), rom.cells[name]? = some cell →
        cell < MemoryMap.stackBase) ↔
      (variableNames (statementsOf t.text)).length ≤
        MemoryMap.stackBase - MemoryMap.firstVariable) ∧
    ((∀ source ∈ sources, '\n' ∉ source.space.toList) →
      (options.startUp = true →
        '\n' ∉ options.entry.toList ∧ MemoryMap.stackBase ≤ options.stackBase) →
      ∀ k site n (m m' : Machine), (sitesOf {} (events sources options))[k]? = some site →
        m.pc = addressBehind
          (codeOf options.annotate ((sitesOf {} (events sources options)).take k)) →
        m.memory.Stacked → n ≤ size site.block → m.RunsFor rom n m' →
        rom.KeepsApart site.task m m') := by
  have hmeets := Rom.meets_of_assemble hrom
  refine ⟨fun name cell hcell => hmeets.cell_lt_iff hcell, hmeets.cells_lt_iff, ?_⟩
  intro hspaces hstart k site n m m' hsite hpc hstack hn hruns
  obtain ⟨sites, context, -, htranslates, -⟩ := translates_of_translate ht
  rw [htranslates.sitesOf_eq] at hsite hpc
  rw [Translation.text, htranslates.code_eq ht] at hrom
  have hmem := List.mem_of_getElem? hsite
  obtain ⟨context', hlowers⟩ := htranslates.lowers site hmem
  have hstands := Site.standsAt hsite options.annotate (htranslates.named site hmem)
  have hholds := hstands.holds_statementsOf hrom
  rw [← hpc] at hholds
  have hfound : ∀ s ∈ site.block, s.Found := fun s hs =>
    htranslates.found hrom hspaces (fun hon => (hstart hon).1) s
      (List.mem_flatMap.mpr ⟨site, hmem, List.mem_append_right _ hs⟩)
  have hbase : ∀ stackBase entry, site.task = .startUp stackBase entry →
      MemoryMap.stackBase ≤ stackBase := by
    intro stackBase entry htask
    obtain ⟨hon, rfl, -⟩ := htranslates.startUp_eq hmem htask
    exact (hstart hon).2
  exact hlowers.keepsApart hbase hfound hholds (fun _ _ => hmeets.forVariables) hstack hn hruns

/-! ### Two programs -/

/-- The memory with two words on the stack, a 0 and a 7. -/
def twoStacked : Memory :=
  (Machine.reset.memory.write (Word.ofNat 0) (Word.ofNat 258)).write (Word.ofNat 257)
    (Word.ofNat 7)

/-- What that memory holds. -/
theorem read_twoStacked : twoStacked.sp = Word.ofNat 258 ∧ twoStacked.read (Word.ofNat 256) = 0 ∧
    twoStacked.read (Word.ofNat 257) = Word.ofNat 7 := by
  refine ⟨?_, ?_, ?_⟩
  · rw [Memory.sp, twoStacked, Memory.read_write_of_ne (by decide),
      Memory.read_write_self (by decide)]
  · rw [twoStacked, Memory.read_write_of_ne (by decide), Memory.read_write_of_ne (by decide),
      Memory.read_ofNat (by decide)]
    exact Vector.getElem_replicate _
  · rw [twoStacked, Memory.read_write_self (by decide)]

/-- A push and a pop into a static variable. -/
def fitting : List Command := [.push .constant 9, .pop .static 0]

/-- The variable of this program lies below the stack: the push spares the variable, and the pop the
slot below the word that is popped. -/
theorem statics_stay_below_stack_fitting : ∃ (sites : List Site) (t : Translation) (rom : Rom)
    (first second : Site) (m m' m₁ m₁' : Machine),
    Accessing "Main.vm" "Main" fitting sites t rom ∧
    (∀ (name : String) (cell : Nat), rom.cells[name]? = some cell → cell < MemoryMap.stackBase) ∧
    rom.cells[staticName "Main" 0]? = some 16 ∧
    sites[0]? = some first ∧ Machine.Pushes rom first.block m 258 (Word.ofNat 9) m' ∧
    m'.memory.read (Word.ofNat 16) = m.memory.read (Word.ofNat 16) ∧
    sites[1]? = some second ∧ Machine.Pops rom second.block m₁ 258 .static (Word.ofNat 16) m₁' ∧
    m₁'.memory.read (Word.ofNat 256) = m₁.memory.read (Word.ofNat 256) := by
  obtain ⟨hsp, -, -⟩ := read_twoStacked
  obtain ⟨sites, t, rom, h⟩ := @exists_accessing "Main" fitting (by decide) (by decide)
    (List.forall_mem_cons.mpr ⟨⟨(by decide : 9 ≤ 65535), rfl, _, .push rfl⟩,
      List.forall_mem_singleton.mpr ⟨⟨by decide, by decide⟩, rfl, _, .pop rfl rfl⟩⟩) "Main.vm"
  obtain ⟨hcount, hcells⟩ := @Accessing.cells_eq _ _ _ _ _ _ h 1 rfl
  have hcell : rom.cells[staticName "Main" 0]? = some 16 := hcells 0 (by decide)
  obtain ⟨-, hfit, hapart⟩ := statics_stay_below_stack h.translate h.assemble
  rw [h.sitesOf_eq] at hapart
  have hspaces : ∀ source ∈ [Source.ofCommands "Main.vm" "Main" fitting],
      '\n' ∉ source.space.toList := List.forall_mem_singleton.mpr (by decide)
  have hstacked : twoStacked.Stacked := by
    rw [Memory.Stacked, hsp]
    decide
  -- The push.
  obtain ⟨first, hfirst, hpush⟩ := exists_site (k := 0) h.tasks rfl
  obtain ⟨-, _, hlowers⟩ := h.lowers first (List.mem_of_getElem? hfirst)
  have hholds := h.holds 0 first hfirst
  rw [hpush] at hlowers
  obtain ⟨m', hpushes⟩ : ∃ m', Machine.Pushes rom first.block
      ⟨twoStacked, 0, 0, addressBehind (codeOf false (sites.take 0)), 0⟩ 258 (Word.ofNat 9) m' := by
    cases hlowers with
    | written hlowers =>
      generalize first.block = block at hlowers hholds
      cases hlowers with
      | push htarget =>
        obtain rfl := Block.eq_immediate_of_target htarget
        exact Machine.exists_pushes hholds (Core.exec_fetch_immediate 9) hsp (by decide)
  have hspared := (hapart hspaces (fun hon => Bool.noConfusion hon) 0 first _ _ m' hfirst rfl
    hstacked (Nat.le_refl _) hpushes.runs).push (hpush ▸ rfl) _ _ hcell (by decide)
  -- The pop.
  obtain ⟨second, m₁', hsecond, hpop, haccesses, hpops⟩ := @Accessing.exists_pops _ _ _ _ _ _ h 1 0
    258 16 rfl hcell (by decide) ⟨twoStacked, 0, 0, _, 0⟩ rfl hsp (by decide)
  have hkept := (hapart hspaces (fun hon => Bool.noConfusion hon) 1 second _ _ m₁' hsecond rfl
    hstacked (Nat.le_refl _) hpops.runs).pop 0 16 hpop haccesses (by decide) 256 (by decide) ?_
  · exact ⟨sites, t, rom, first, second, _, m', _, m₁', h, hfit.mpr (hcount ▸ by decide), hcell,
      hfirst, hpushes, hspared, hsecond, hpops, hkept⟩
  · change 256 < twoStacked.sp.toNat
    rw [hsp]
    decide

/-- Static variables fill the memory for variables, and a word is popped into one more while others
are on the stack. -/
def crowding : List Command :=
  (List.range 240).map (.push .static) ++
    [.push .constant 7, .pop .static 240, .push .constant 1]

theorem exists_crowding : ∃ sites t rom, Accessing "Main.vm" "Main" crowding sites t rom := by
  have hstatic : ∀ index ≤ MemoryMap.maxAddress,
      Block.target (Context.beginFile "Main" {}) .static index =
        .ok (.direct (.symbol (staticName "Main" index))) :=
    fun index hindex => (if_pos hindex).trans rfl
  refine exists_accessing (by decide) (by simp [crowding, MemoryMap.size]) (fun c hc => ?_) _
  rcases List.mem_append.mp hc with hc | hc
  · obtain ⟨index, hindex, rfl⟩ := List.mem_map.mp hc
    have hlt := List.mem_range.mp hindex
    have hindex := hstatic index (Nat.le_trans hlt.le (by decide))
    exact ⟨Nat.le_trans hlt.le (by decide), rfl, _, .push hindex⟩
  · simp only [List.mem_cons, List.not_mem_nil, or_false] at hc
    rcases hc with rfl | rfl | rfl
    · exact ⟨(by decide : 7 ≤ 65535), rfl, _, .push rfl⟩
    · exact ⟨⟨by decide, by decide⟩, rfl, _, .pop (hstatic 240 (by decide)) rfl⟩
    · exact ⟨(by decide : 1 ≤ 65535), rfl, _, .push rfl⟩

/-- **A static variable may lie on the stack.** The last variable has the first cell of the stack,
and popping into it overwrites the bottom of the stack, which stays on the stack. -/
theorem exists_static_on_stack : ∃ (sites : List Site) (t : Translation) (rom : Rom) (site : Site)
    (m m' : Machine), sitesOf {} (events [Source.ofCommands "Main.vm" "Main" crowding] {}) = sites ∧
    translate [Source.ofCommands "Main.vm" "Main" crowding] {} = .ok t ∧
    assemble t.text = .ok rom ∧
    rom.cells[staticName "Main" 240]? = some MemoryMap.stackBase ∧
    sites[241]? = some site ∧ site.task = .written (.pop .static 240) ∧
    m.pc = addressBehind (codeOf false (sites.take 241)) ∧ m.memory = twoStacked ∧
    m.RunsFor rom (size site.block) m' ∧ m'.memory.sp = Word.ofNat (MemoryMap.stackBase + 1) ∧
    m.memory.read (Word.ofNat MemoryMap.stackBase) = 0 ∧
    m'.memory.read (Word.ofNat MemoryMap.stackBase) = Word.ofNat 7 := by
  obtain ⟨sites, t, rom, h⟩ := exists_crowding
  have hindices : crowding.filterMap Command.staticIndex? = List.range 241 := by
    have hrange : (List.range 240).filterMap (Command.staticIndex? ∘ Command.push .static) =
        List.range 240 := List.filterMap_some
    have hlast : [Command.push .constant 7, .pop .static 240, .push .constant 1].filterMap
        Command.staticIndex? = [240] := rfl
    rw [crowding, List.filterMap_append, List.filterMap_map, hrange, hlast, ← List.range_succ]
  have hcell : rom.cells[staticName "Main" 240]? = some MemoryMap.stackBase :=
    (h.cells_eq hindices).2 240 (by decide)
  have hcommand : crowding[241]? = some (.pop .static 240) := by
    rw [crowding, List.getElem?_append_right (by simp)]
    simp
  obtain ⟨hsp, hbottom, htop⟩ := read_twoStacked
  obtain ⟨site, m', hsite, htask, -, hpops⟩ := h.exists_pops hcommand hcell (by decide)
    (m := ⟨twoStacked, 0, 0, _, 0⟩) rfl hsp (by decide)
  exact ⟨sites, t, rom, site, _, m', h.sitesOf_eq, h.translate, h.assemble, hcell, hsite, htask,
    rfl, rfl, hpops.runs, hpops.sp, hbottom, hpops.target.trans htop⟩

end HackStack
