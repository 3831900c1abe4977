import HackStack.Block.Access
import HackStack.Block.Frame
import HackStack.Block.Operation
import HackStack.Proofs.Block.Task
import HackStack.Proofs.Machine.Exec

/-!
# What blocks do

Each block without a jump does something to the memory that can be named: `HackStack.Memory.pushed`
and `HackStack.Memory.popped` for the stack, and from them all the rest. This file computes with
`HackStack.Core.exec` what the blocks do, and under which conditions they do not fault.

Nothing is assumed of the stack pointer beyond what the conditions say. It may point at itself or at
the scratch cells, and so the effect of a block is written down in the order in which the block
brings it about.
-/

namespace HackStack

open Assembly Statement

/-! ### Fixed symbols -/

section Symbols

variable {rom : Rom} {name : String} {n : Nat}

/-- A predefined symbol stands for its number in every program. -/
theorem Rom.value?_predefined (h : MemoryMap.predefined? name = some n) :
    rom.value? name = some n := by
  rw [Rom.value?, h]
  rfl

@[simp]
theorem Rom.value?_stackPointer : rom.value? MemoryMap.stackPointer = some 0 :=
  value?_predefined (by decide)

@[simp]
theorem Rom.value?_popTarget : rom.value? MemoryMap.popTarget = some 13 :=
  value?_predefined (by decide)

@[simp]
theorem Rom.value?_frameBase : rom.value? MemoryMap.frameBase = some 14 :=
  value?_predefined (by decide)

@[simp]
theorem Rom.value?_returnAddress : rom.value? MemoryMap.returnAddress = some 15 :=
  value?_predefined (by decide)

@[simp]
theorem Rom.value?_pointer (p : Pointer) : rom.value? p.symbol = some p.cell :=
  value?_predefined p.predefined?_symbol

/-- The number that an operand stands for. -/
def Assembly.Operand.value? (rom : Rom) : Operand → Option Nat
  | .number n => some n
  | .symbol name => rom.value? name

theorem Pointer.cell_bounds (p : Pointer) : 0 < p.cell ∧ p.cell < 5 := by
  cases p <;> decide

theorem Pointer.cell_lt (p : Pointer) : p.cell < 32768 :=
  Nat.lt_trans p.cell_bounds.2 (by decide)

end Symbols

/-! ### Calls -/

section Calls

variable {rom : Rom} {returnLabel name : String} {arguments : Nat}

/-- The code of a call, up to its jump. -/
def Block.calling (returnLabel name : String) (arguments : Nat) : Block :=
  [symbol returnLabel, .assign .d (.y .a)] ++ pushD ++ savePointers ++
    enterFrame (arguments + MemoryMap.frameSize) ++ [symbol name]

/-- A call jumps at its end, and returns behind the jump. -/
theorem Block.callReturningTo_eq : callReturningTo returnLabel name arguments =
    calling returnLabel name arguments ++ branch .zero .always :: [.label returnLabel] := rfl

/-- **The return label of a call** stands behind it. -/
theorem Rom.Holds.returnLabel_end {base : Nat}
    (h : rom.Holds base (Block.callReturningTo returnLabel name arguments)) :
    rom.labels[returnLabel]? =
      some (base + size (Block.callReturningTo returnLabel name arguments)) := by
  rw [Block.callReturningTo_eq] at h
  rw [Block.callReturningTo_eq, size_append, ← Nat.add_assoc]
  exact h.right.tail.head_label

end Calls

namespace Memory

/-! ### The stack -/

/-- Where the stack pointer points. -/
def sp (memory : Memory) : Word := memory.read (Word.ofNat 0)

/-- The memory with a word pushed: the word is stored first, and then the stack pointer moves. -/
def pushed (memory : Memory) (v : Word) : Memory :=
  (memory.write memory.sp v).write (Word.ofNat 0) ((memory.write memory.sp v).sp + 1)

/-- The memory with a word popped. -/
def popped (memory : Memory) : Memory := memory.write (Word.ofNat 0) (memory.sp - 1)

/-- The word that is popped. -/
def topmost (memory : Memory) : Word := memory.popped.read (memory.sp - 1)

/-- Popping moves the stack pointer. -/
@[simp]
theorem sp_popped (memory : Memory) : memory.popped.sp = memory.sp - 1 :=
  read_write_self (Word.addresses_ofNat (by decide))

/-- The memory with a number of zeros pushed. -/
def zeroed (memory : Memory) : Nat → Memory
  | 0 => memory
  | count + 1 => (memory.pushed 0).zeroed count

/-- The memory with pointers pushed. -/
def saved (memory : Memory) : List Pointer → Memory
  | [] => memory
  | p :: rest => (memory.pushed (memory.read (Word.ofNat p.cell))).saved rest

/-- The stack pointer addresses a cell before each of these pointers is pushed. -/
def CanSave : List Pointer → Memory → Prop
  | [], _ => True
  | p :: rest, memory =>
    memory.sp.Addresses ∧ CanSave rest (memory.pushed (memory.read (Word.ofNat p.cell)))

/-- The memory in which the frame of a function has been entered, that lies `distance` below the
stack pointer with its arguments. -/
def framed (memory : Memory) (distance : Nat) : Memory :=
  let memory := memory.write (Word.ofNat 2) (memory.sp - Word.ofNat distance)
  memory.write (Word.ofNat 1) memory.sp

/-- The memory in which a pointer has been restored from the word below the one that the scratch
cell points at. -/
def restored (memory : Memory) (p : Pointer) : Memory :=
  let below := memory.read (Word.ofNat 14) - 1
  let memory := memory.write (Word.ofNat 14) below
  memory.write (Word.ofNat p.cell) (memory.read below)

/-- There is a word below the one that the scratch cell points at, before each of these pointers is
restored. -/
def CanRestore : List Pointer → Memory → Prop
  | [], _ => True
  | p :: rest, memory =>
    (memory.read (Word.ofNat 14) - 1).Addresses ∧ CanRestore rest (memory.restored p)

/-- The memory in which the scratch cells hold where the frame is and where it returns to. -/
def noted (memory : Memory) : Memory :=
  let frame := memory.read (Word.ofNat 1)
  let memory := memory.write (Word.ofNat 14) frame
  memory.write (Word.ofNat 15) (memory.read (frame - Word.ofNat MemoryMap.frameSize))

/-- The memory in which the topmost word is where argument 0 was, and the stack ends behind it. -/
def delivered (memory : Memory) : Memory :=
  let argument := memory.popped.read (Word.ofNat 2)
  (memory.popped.write argument memory.topmost).write (Word.ofNat 0) (argument + 1)

/-- The memory in which the pointers of the caller have been restored. -/
def unwound (memory : Memory) : Memory := Pointer.restored.foldl restored memory

/-- The memory to which a function has returned. -/
def returned (memory : Memory) : Memory := memory.noted.delivered.unwound

/-- The memory in which a function has been called. -/
def called (memory : Memory) (returnAddress arguments : Nat) : Memory :=
  ((memory.pushed (Word.ofNat returnAddress)).saved Pointer.all).framed
    (arguments + MemoryMap.frameSize)

end Memory

namespace Core

variable {rom : Rom} {c : Core}

/-! ### Parts of blocks -/

/-- Compute instructions that do not reach for the memory never fault. -/
theorem reaches_of_registers {dest : Dest} {comp : Comp} (hc : comp.readsMemory = false)
    (hd : dest.writesM = false) : c.Reaches dest comp := by
  intro h
  rw [hc, hd] at h
  exact absurd h (by decide)

theorem reaches_of_addresses {dest : Dest} {comp : Comp} (h : c.a.Addresses) :
    c.Reaches dest comp := fun _ => h

theorem exec_loadD {cell : String} {n : Nat} (h : rom.value? cell = some n) (hn : n < 32768) :
    c.exec rom (Block.loadD cell) =
      some ⟨c.memory, Word.ofNat n, c.memory.read (Word.ofNat n)⟩ := by
  rw [Block.loadD, exec_symbol h, exec_assign (reaches_of_addresses (Word.addresses_ofNat hn))]
  rfl

theorem exec_saveD {cell : String} {n : Nat} (h : rom.value? cell = some n) (hn : n < 32768) :
    c.exec rom (Block.saveD cell) =
      some ⟨c.memory.write (Word.ofNat n) c.d, Word.ofNat n, c.d⟩ := by
  rw [Block.saveD, exec_symbol h, exec_assign (reaches_of_addresses (Word.addresses_ofNat hn))]
  rfl

theorem exec_top : c.exec rom Block.top = some ⟨c.memory, c.memory.sp - 1, c.d⟩ := by
  rw [Block.top, exec_symbol Rom.value?_stackPointer,
    exec_assign (reaches_of_addresses (Word.addresses_ofNat (by decide)))]
  rfl

/-- **Pushing D.** -/
theorem exec_pushD (h : c.memory.sp.Addresses) :
    c.exec rom Block.pushD = some ⟨c.memory.pushed c.d, Word.ofNat 0, c.d⟩ := by
  have hzero : (Word.ofNat 0).Addresses := Word.addresses_ofNat (by decide)
  rw [Block.pushD, exec_symbol Rom.value?_stackPointer, exec_assign (reaches_of_addresses hzero),
    exec_assign (reaches_of_addresses h), exec_symbol Rom.value?_stackPointer,
    exec_assign (reaches_of_addresses hzero)]
  rfl

/-- **Popping into D.** -/
theorem exec_popD (h : (c.memory.sp - 1).Addresses) :
    c.exec rom Block.popD = some ⟨c.memory.popped, c.memory.sp - 1, c.memory.topmost⟩ := by
  have hzero : (Word.ofNat 0).Addresses := Word.addresses_ofNat (by decide)
  rw [Block.popD, exec_symbol Rom.value?_stackPointer, exec_assign (reaches_of_addresses hzero),
    exec_assign (reaches_of_addresses h)]
  rfl

theorem exec_popThenTop (h : (c.memory.sp - 1).Addresses) :
    c.exec rom Block.popThenTop =
      some ⟨c.memory.popped, c.memory.sp - 1 - 1, c.memory.topmost⟩ := by
  rw [Block.popThenTop, exec_of_exec (exec_popD h), exec_assign (reaches_of_registers rfl rfl)]
  rfl

/-! ### Blocks of commands -/

/-- **Pushing zeros.** -/
theorem exec_zeros {count : Nat}
    (h : ∀ i < count, (c.memory.zeroed i).sp.Addresses) :
    ∃ c', c.exec rom (Block.zeros count) = some c' ∧ c'.memory = c.memory.zeroed count := by
  have hpushes : ∀ (count : Nat) (c : Core), c.d = 0 →
      (∀ i < count, (c.memory.zeroed i).sp.Addresses) →
      ∃ c', c.exec rom (List.replicate count Block.pushD).flatten = some c' ∧
        c'.memory = c.memory.zeroed count := by
    intro count
    induction count with
    | zero => exact fun c _ _ => ⟨c, rfl, rfl⟩
    | succ count ih =>
      intro c hd h
      rw [List.replicate_succ, List.flatten_cons, exec_of_exec (exec_pushD (h 0 (by omega)))]
      obtain ⟨c', hexec, hmemory⟩ := ih ⟨c.memory.pushed c.d, Word.ofNat 0, c.d⟩ hd
        fun i hi => by
          change ((c.memory.pushed c.d).zeroed i).sp.Addresses
          rw [hd]
          exact h (i + 1) (by omega)
      refine ⟨c', hexec, hmemory.trans ?_⟩
      rw [Memory.zeroed, hd]
  rw [Block.zeros]
  split
  next hzero =>
    subst hzero
    exact ⟨c, rfl, rfl⟩
  next =>
    rw [exec_assign (reaches_of_registers rfl rfl)]
    exact hpushes count _ rfl h

theorem exec_enterFrame (distance : Nat) :
    c.exec rom (Block.enterFrame distance) =
      some ⟨c.memory.framed distance, Word.ofNat 1,
        (c.memory.write (Word.ofNat 2) (c.memory.sp - Word.ofNat distance)).sp⟩ := by
  rw [Block.enterFrame, List.append_assoc, List.append_assoc, List.append_assoc,
    exec_of_exec (exec_loadD Rom.value?_stackPointer (by decide)), List.cons_append, exec_number,
    List.cons_append, exec_assign (reaches_of_registers rfl rfl), List.nil_append,
    exec_of_exec (exec_saveD (Rom.value?_pointer .arguments) (by decide)),
    exec_of_exec (exec_loadD Rom.value?_stackPointer (by decide)),
    exec_saveD (Rom.value?_pointer .locals) (by decide)]
  rfl

theorem exec_savePointers {pointers : List Pointer} (h : Memory.CanSave pointers c.memory) :
    ∃ c', c.exec rom (pointers.flatMap fun p => Block.loadD p.symbol ++ Block.pushD) = some c' ∧
      c'.memory = c.memory.saved pointers := by
  induction pointers generalizing c with
  | nil => exact ⟨c, rfl, rfl⟩
  | cons p rest ih =>
    obtain ⟨hsp, hrest⟩ := h
    obtain ⟨c', hexec, hmemory⟩ := ih (c := ⟨c.memory.pushed (c.memory.read (Word.ofNat p.cell)),
      Word.ofNat 0, c.memory.read (Word.ofNat p.cell)⟩) hrest
    have hpush := @exec_pushD rom ⟨c.memory, Word.ofNat p.cell,
      c.memory.read (Word.ofNat p.cell)⟩ hsp
    refine ⟨c', ?_, hmemory⟩
    rw [List.flatMap_cons, List.append_assoc,
      exec_of_exec (exec_loadD (Rom.value?_pointer p) p.cell_lt), exec_of_exec hpush]
    exact hexec

/-- **A call**, up to its jump. -/
theorem exec_call {returnLabel name : String} {returnAddress target arguments : Nat}
    (hreturn : rom.value? returnLabel = some returnAddress) (hname : rom.value? name = some target)
    (hsp : c.memory.sp.Addresses)
    (hsave : Memory.CanSave Pointer.all (c.memory.pushed (Word.ofNat returnAddress))) :
    ∃ c', c.exec rom (Block.calling returnLabel name arguments) = some c' ∧
      c'.memory = c.memory.called returnAddress arguments ∧ c'.a = Word.ofNat target := by
  obtain ⟨c₁, hexec₁, hmemory₁⟩ := @exec_savePointers rom
    ⟨c.memory.pushed (Word.ofNat returnAddress), Word.ofNat 0, Word.ofNat returnAddress⟩ _ hsave
  refine ⟨⟨c₁.memory.framed (arguments + MemoryMap.frameSize), Word.ofNat target,
    (c₁.memory.write (Word.ofNat 2)
      (c₁.memory.sp - Word.ofNat (arguments + MemoryMap.frameSize))).sp⟩, ?_, ?_, rfl⟩
  rotate_left
  · rw [hmemory₁]
    rfl
  · have hpush := @exec_pushD rom ⟨c.memory, Word.ofNat returnAddress,
      Word.ofNat returnAddress⟩ hsp
    rw [Block.calling, List.append_assoc, List.append_assoc, List.append_assoc, List.cons_append,
      exec_symbol hreturn, List.cons_append, exec_assign (reaches_of_registers rfl rfl),
      List.nil_append]
    refine (exec_of_exec hpush).trans ((exec_of_exec hexec₁).trans ?_)
    rw [exec_of_exec (exec_enterFrame _), exec_symbol hname, exec_nil]

/-- **Setting up the stack.** -/
theorem exec_setUp (stackBase : Nat) :
    c.exec rom (Block.setUp stackBase) =
      some ⟨c.memory.write (Word.ofNat 0) (Word.ofNat stackBase), Word.ofNat 0,
        Word.ofNat stackBase⟩ := by
  rw [Block.setUp, List.cons_append, exec_number, List.cons_append,
    exec_assign (reaches_of_registers rfl rfl), List.nil_append]
  exact exec_saveD Rom.value?_stackPointer (by decide)

theorem exec_restore {p : Pointer} (h : (c.memory.read (Word.ofNat 14) - 1).Addresses) :
    c.exec rom ([symbol MemoryMap.frameBase, Statement.assign .am (.decY .m),
        Statement.assign .d (.y .m)] ++ Block.saveD p.symbol) =
      some ⟨c.memory.restored p, Word.ofNat p.cell,
        (c.memory.write (Word.ofNat 14) (c.memory.read (Word.ofNat 14) - 1)).read
          (c.memory.read (Word.ofNat 14) - 1)⟩ := by
  rw [List.cons_append, exec_symbol Rom.value?_frameBase, List.cons_append,
    exec_assign (reaches_of_addresses (Word.addresses_ofNat (by decide))), List.cons_append,
    exec_assign (reaches_of_addresses h), List.nil_append,
    exec_saveD (Rom.value?_pointer p) p.cell_lt]
  rfl

theorem exec_restorePointers {pointers : List Pointer}
    (h : Memory.CanRestore pointers c.memory) :
    ∃ c', c.exec rom (pointers.flatMap fun p =>
        [symbol MemoryMap.frameBase, Statement.assign .am (.decY .m),
          Statement.assign .d (.y .m)] ++ Block.saveD p.symbol) = some c' ∧
      c'.memory = pointers.foldl Memory.restored c.memory := by
  induction pointers generalizing c with
  | nil => exact ⟨c, rfl, rfl⟩
  | cons p rest ih =>
    obtain ⟨hbelow, hrest⟩ := h
    obtain ⟨c', hexec, hmemory⟩ := ih (c := ⟨c.memory.restored p, Word.ofNat p.cell,
      (c.memory.write (Word.ofNat 14) (c.memory.read (Word.ofNat 14) - 1)).read
        (c.memory.read (Word.ofNat 14) - 1)⟩) hrest
    refine ⟨c', ?_, hmemory⟩
    rw [List.flatMap_cons, exec_of_exec (exec_restore hbelow)]
    exact hexec

/-- The first part of a return puts down where the frame is and where it returns to. -/
theorem exec_note
    (h : (c.memory.read (Word.ofNat 1) - Word.ofNat MemoryMap.frameSize).Addresses) :
    ∃ a d, c.exec rom (Block.loadD Pointer.locals.symbol ++ (Block.saveD MemoryMap.frameBase ++
        (number MemoryMap.frameSize :: Statement.assign .a (.dSubY .a) ::
          Statement.assign .d (.y .m) :: Block.saveD MemoryMap.returnAddress))) =
      some ⟨c.memory.noted, a, d⟩ := by
  refine ⟨Word.ofNat 15, (c.memory.write (Word.ofNat 14) (c.memory.read (Word.ofNat 1))).read
    (c.memory.read (Word.ofNat 1) - Word.ofNat MemoryMap.frameSize), ?_⟩
  rw [exec_of_exec (exec_loadD (Rom.value?_pointer .locals) (by decide)),
    exec_of_exec (exec_saveD Rom.value?_frameBase (by decide)), exec_number,
    exec_assign (reaches_of_registers rfl rfl), exec_assign (reaches_of_addresses h),
    exec_saveD Rom.value?_returnAddress (by decide)]
  rfl

/-- The second part of a return moves the topmost word to where argument 0 was. -/
theorem exec_deliver (hsp : (c.memory.sp - 1).Addresses)
    (hargument : (c.memory.popped.read (Word.ofNat 2)).Addresses) :
    ∃ a d, c.exec rom (Block.popD ++ (symbol Pointer.arguments.symbol ::
        Statement.assign .a (.y .m) :: Statement.assign .m .d :: Statement.assign .d (.incY .a) ::
          Block.saveD MemoryMap.stackPointer)) = some ⟨c.memory.delivered, a, d⟩ := by
  refine ⟨Word.ofNat 0, c.memory.popped.read (Word.ofNat 2) + 1, ?_⟩
  rw [exec_of_exec (exec_popD hsp), exec_symbol (Rom.value?_pointer .arguments),
    exec_assign (reaches_of_addresses (Word.addresses_ofNat (by decide))),
    exec_assign (reaches_of_addresses hargument), exec_assign (reaches_of_registers rfl rfl),
    exec_saveD Rom.value?_stackPointer (by decide)]
  rfl

/-- **A return**, up to its jump. -/
theorem exec_return
    (hframe : (c.memory.read (Word.ofNat 1) - Word.ofNat MemoryMap.frameSize).Addresses)
    (hsp : (c.memory.noted.sp - 1).Addresses)
    (hargument : (c.memory.noted.popped.read (Word.ofNat 2)).Addresses)
    (hrestore : Memory.CanRestore Pointer.restored c.memory.noted.delivered) :
    ∃ block c', Block.leaveFrame = block ++ [branch .zero .always] ∧ c.exec rom block = some c' ∧
      c'.memory = c.memory.returned ∧ c'.a = c.memory.returned.read (Word.ofNat 15) := by
  obtain ⟨a₁, d₁, hexec₁⟩ := @exec_note rom _ hframe
  obtain ⟨a₂, d₂, hexec₂⟩ := @exec_deliver rom ⟨c.memory.noted, a₁, d₁⟩ hsp hargument
  obtain ⟨c₃, hexec₃, hmemory₃⟩ := @exec_restorePointers rom
    ⟨c.memory.noted.delivered, a₂, d₂⟩ _ hrestore
  refine ⟨_ ++ (_ ++ (Block.restorePointers ++ [symbol MemoryMap.returnAddress,
      Statement.assign .a (.y .m)])), ⟨c₃.memory, c₃.memory.read (Word.ofNat 15), c₃.d⟩, ?_,
    (exec_of_exec hexec₁).trans ((exec_of_exec hexec₂).trans ((exec_of_exec hexec₃).trans ?_)),
    hmemory₃, congrArg (Memory.read · (Word.ofNat 15)) hmemory₃⟩
  · simp only [Block.leaveFrame, List.append_assoc, List.cons_append, List.nil_append]
  · rw [exec_symbol Rom.value?_returnAddress,
      exec_assign (reaches_of_addresses (Word.addresses_ofNat (by decide)))]
    rfl

/-! ### Targets and operators -/

theorem exec_address {operand : Operand} {n : Nat} {rest : Block}
    (h : operand.value? rom = some n) :
    c.exec rom (.instruction (.address operand) :: rest) =
      exec rom rest { c with a := Word.ofNat n } := by
  cases operand with
  | number m =>
    obtain rfl := Option.some.inj h
    rfl
  | symbol name => exact exec_symbol h

theorem exec_fetch_immediate (value : Nat) :
    c.exec rom (Block.fetch (.immediate value)) =
      some ⟨c.memory, Word.ofNat value, Word.ofNat value⟩ := by
  rw [Block.fetch, exec_number, exec_assign (reaches_of_registers rfl rfl)]
  rfl

theorem exec_fetch_direct {operand : Operand} {n : Nat} (h : operand.value? rom = some n)
    (hn : (Word.ofNat n).Addresses) :
    c.exec rom (Block.fetch (.direct operand)) =
      some ⟨c.memory, Word.ofNat n, c.memory.read (Word.ofNat n)⟩ := by
  rw [Block.fetch, exec_address h, exec_assign (reaches_of_addresses hn)]
  rfl

theorem exec_fetch_indirect {p : Pointer} {offset : Nat}
    (h : (c.memory.read (Word.ofNat p.cell) + Word.ofNat offset).Addresses) :
    c.exec rom (Block.fetch (.indirect p offset)) =
      some ⟨c.memory, c.memory.read (Word.ofNat p.cell) + Word.ofNat offset,
        c.memory.read (c.memory.read (Word.ofNat p.cell) + Word.ofNat offset)⟩ := by
  rw [Block.fetch, exec_of_exec (exec_loadD (Rom.value?_pointer p) p.cell_lt), exec_number,
    exec_assign (reaches_of_registers rfl rfl), exec_assign (reaches_of_addresses h)]
  rfl

theorem exec_popTo_direct {operand : Operand} {n : Nat} (h : operand.value? rom = some n)
    (hn : (Word.ofNat n).Addresses) (hsp : (c.memory.sp - 1).Addresses) :
    c.exec rom (Block.popD ++ [.instruction (.address operand), Statement.assign .m .d]) =
      some ⟨c.memory.popped.write (Word.ofNat n) c.memory.topmost, Word.ofNat n,
        c.memory.topmost⟩ := by
  rw [exec_of_exec (exec_popD hsp), exec_address h, exec_assign (reaches_of_addresses hn)]
  rfl

end Core

namespace Memory

/-- The memory in which a scratch cell holds the address behind a pointer. -/
def aimed (memory : Memory) (p : Pointer) (offset : Nat) : Memory :=
  memory.write (Word.ofNat 13) (memory.read (Word.ofNat p.cell) + Word.ofNat offset)

/-- The memory in which the topmost word has been popped into the address that the scratch cell
holds. -/
def hit (memory : Memory) : Memory :=
  memory.popped.write (memory.popped.read (Word.ofNat 13)) memory.topmost

end Memory

namespace Core

variable {rom : Rom} {c : Core}

theorem exec_popTo_indirect {p : Pointer} {offset : Nat}
    (hsp : ((c.memory.aimed p offset).sp - 1).Addresses)
    (h : ((c.memory.aimed p offset).popped.read (Word.ofNat 13)).Addresses) :
    ∃ c', c.exec rom (Block.loadD p.symbol ++ [number offset, Statement.assign .d (.add .a)] ++
        Block.saveD MemoryMap.popTarget ++ Block.popD ++
        [symbol MemoryMap.popTarget, Statement.assign .a (.y .m), Statement.assign .m .d]) =
          some c' ∧
      c'.memory = (c.memory.aimed p offset).hit := by
  have hpop := @exec_popD rom ⟨c.memory.aimed p offset, Word.ofNat 13,
    c.memory.read (Word.ofNat p.cell) + Word.ofNat offset⟩ hsp
  refine ⟨⟨(c.memory.aimed p offset).hit,
    (c.memory.aimed p offset).popped.read (Word.ofNat 13), (c.memory.aimed p offset).topmost⟩, ?_,
    rfl⟩
  rw [List.append_assoc, List.append_assoc, List.append_assoc,
    exec_of_exec (exec_loadD (Rom.value?_pointer p) p.cell_lt), List.cons_append, exec_number,
    List.cons_append, exec_assign (reaches_of_registers rfl rfl), List.nil_append,
    exec_of_exec (exec_saveD Rom.value?_popTarget (by decide))]
  refine (exec_of_exec hpop).trans ?_
  rw [exec_symbol Rom.value?_popTarget,
    exec_assign (reaches_of_addresses (Word.addresses_ofNat (by decide))),
    exec_assign (reaches_of_addresses h)]
  rfl

/-- An operator on one word works on the topmost word in its place. -/
theorem exec_unary {comp : Comp} (h : (c.memory.sp - 1).Addresses)
    (hcomp : comp.readsMemory = true) :
    c.exec rom (Block.top ++ [Statement.assign .m comp]) =
      some ⟨c.memory.write (c.memory.sp - 1) (comp.eval c.d (c.memory.read (c.memory.sp - 1))),
        c.memory.sp - 1, c.d⟩ := by
  rw [exec_of_exec exec_top, exec_assign (reaches_of_addresses h), assign, hcomp]
  rfl

/-- An operator on two words pops one and works on the other in its place. -/
theorem exec_binary {comp : Comp} (hsp : (c.memory.sp - 1).Addresses)
    (h : (c.memory.sp - 1 - 1).Addresses) (hcomp : comp.readsMemory = true) :
    c.exec rom (Block.popThenTop ++ [Statement.assign .m comp]) =
      some ⟨c.memory.popped.write (c.memory.sp - 1 - 1)
        (comp.eval c.memory.topmost (c.memory.popped.read (c.memory.sp - 1 - 1))),
        c.memory.sp - 1 - 1, c.memory.topmost⟩ := by
  rw [exec_of_exec (exec_popThenTop hsp), exec_assign (reaches_of_addresses h), assign, hcomp]
  rfl

/-- **Comparing** takes the difference of the two words on top, and loads where to go if the
comparison holds. -/
theorem exec_difference {holds : String} {target : Nat} (hsp : (c.memory.sp - 1).Addresses)
    (h : (c.memory.sp - 1 - 1).Addresses) (hholds : rom.value? holds = some target) :
    c.exec rom (Block.popThenTop ++ [Statement.assign .d (.ySubD .m), Statement.symbol holds]) =
      some ⟨c.memory.popped, Word.ofNat target,
        c.memory.popped.read (c.memory.sp - 1 - 1) - c.memory.topmost⟩ := by
  rw [exec_of_exec (exec_popThenTop hsp), exec_assign (reaches_of_addresses h), exec_symbol hholds]
  rfl

/-- A truth value replaces the topmost word. -/
theorem exec_truth {comp : Comp} (h : (c.memory.sp - 1).Addresses)
    (hcomp : comp.readsMemory = false) {rest : Block} :
    c.exec rom (Block.top ++ Statement.assign .m comp :: rest) =
      exec rom rest ⟨c.memory.write (c.memory.sp - 1) (comp.eval c.d (c.memory.sp - 1)),
        c.memory.sp - 1, c.d⟩ := by
  rw [exec_of_exec exec_top, exec_assign (reaches_of_addresses h), assign, hcomp]
  rfl

end Core

/-! ### Conditional jumps -/

/-- The jump of a conditional jump is taken for every word but zero. -/
theorem Assembly.Jump.taken_ne_iff {w : Word} : Jump.ne.taken w = true ↔ w ≠ 0 := by
  refine decide_eq_true_iff.trans (not_congr ?_)
  exact ⟨fun h => BitVec.toInt_inj.mp (h.trans BitVec.toInt_zero.symm), fun h => h ▸ rfl⟩

/-- **A conditional jump** pops a word, and goes behind itself if the word is zero, and else to what
the symbol of its target stands for. -/
theorem Machine.exists_runsFor_ifGoto {rom : Rom} {m : Machine} {context : Context} {name : String}
    (hholds : rom.Holds m.pc (Block.ifGoto context name)) (hsp : (m.memory.sp - 1).Addresses) :
    ∃ target m', rom.value? (context.userLabel name).render = some target ∧
      m.RunsFor rom (size (Block.ifGoto context name)) m' ∧ m'.memory = m.memory.popped ∧
      m'.pc = if m.memory.topmost = 0 then m.pc + size (Block.ifGoto context name)
        else (Word.ofNat target).toNat := by
  have hblock : Block.ifGoto context name =
      (Block.popD ++ [symbol (context.userLabel name).render]) ++ branch .d .ne :: [] := rfl
  rw [hblock] at hholds
  -- Whether or not the jump is taken, its target has been loaded.
  obtain ⟨op, -, target, hvalue, -⟩ := hholds.left.right.head
  have hexec : m.core.exec rom (Block.popD ++ [symbol (context.userLabel name).render]) =
      some ⟨m.memory.popped, Word.ofNat target, m.memory.topmost⟩ := by
    have hpop := @Core.exec_popD rom m.core hsp
    exact (Core.exec_of_exec hpop).trans (Core.exec_symbol hvalue)
  have hruns := @runsFor_exec_branch rom m.core _ m.pc m.steps _ _ .d .ne hholds hexec rfl
  refine ⟨target, _, hvalue, hruns, rfl, ?_⟩
  by_cases hzero : m.memory.topmost = 0
  · rw [if_pos hzero]
    exact if_neg fun htaken => Jump.taken_ne_iff.mp htaken hzero
  · rw [if_neg hzero]
    exact if_pos (Jump.taken_ne_iff.mpr hzero)

end HackStack
