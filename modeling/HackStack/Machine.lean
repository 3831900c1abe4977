import HackStack.Rom

/-!
# The machine

The machine has a memory, the registers A and D, and a program counter. In one cycle it executes the
instruction that the counter points at:

* an address instruction loads A;
* a compute instruction feeds D, and either A or the memory word that A addresses, to the ALU; it
  stores the result in the destinations, and jumps to A if the result meets the jump condition. The
  memory word and the jump target are those of A before the instruction.

A counter behind the last instruction halts the machine. A negative A addresses no memory: a compute
instruction that reads or writes M then faults before it stores anything, and only the count of
cycles shows that it was tried.
-/

namespace HackStack

open Assembly

/-- The memory, word by word. -/
abbrev Memory := Vector Word 32768

namespace Memory

/-- The word at an address; outside the memory there are zeros only. -/
def read (memory : Memory) (address : Word) : Word :=
  match address.cell? with
  | some cell => memory[cell]
  | none => 0

/-- Put a word at an address; outside the memory nothing can be put. -/
def write (memory : Memory) (address value : Word) : Memory :=
  match address.cell? with
  | some cell => memory.set cell value
  | none => memory

end Memory

/-- The state of the machine. -/
structure Machine where
  memory : Memory
  a : Word
  d : Word
  pc : Nat
  /-- The number of instructions tried so far. -/
  steps : Nat

/-- What became of a cycle. -/
inductive Cycle
  /-- An instruction was executed. -/
  | ran
  /-- There is no instruction to execute. -/
  | halted
  /-- The instruction at `pc` would reach for a memory word outside the memory. -/
  | fault (address : Word) (pc : Nat)
  deriving DecidableEq, Repr

namespace Machine

/-- The machine after a reset: every cell and every register holds zero. -/
def reset : Machine := ⟨Vector.replicate 32768 0, 0, 0, 0, 0⟩

/-- A machine with an empty stack at its usual place and the four pointers set. -/
def withPointers (locals arguments this that : Word) : Machine :=
  let memory := reset.memory
  let memory := memory.set 0 (BitVec.ofNat 16 MemoryMap.stackBase)
  let memory := memory.set 1 locals
  let memory := memory.set 2 arguments
  let memory := memory.set 3 this
  { reset with memory := memory.set 4 that }

/-! ### Looking into the machine -/

/-- The word in a cell, if there is such a cell. -/
def peek? (m : Machine) (cell : Nat) : Option Word := m.memory[cell]?

/-- Put a word into a cell, if there is such a cell. -/
def poke? (cell : Nat) (value : Word) : Machine → Option Machine
  | ⟨memory, a, d, pc, steps⟩ =>
    if h : cell < 32768 then some ⟨memory.set cell value, a, d, pc, steps⟩ else none

/-- The stack pointer. -/
def stackPointer (m : Machine) : Word := m.memory[0]

/-- The words from the usual start of the stack up to the stack pointer. -/
def stack (m : Machine) : List Word :=
  ((m.memory.toArray.extract MemoryMap.stackBase m.stackPointer.toInt.toNat)).toList

/-! ### One cycle -/

/-- What a compute instruction does where it does not fault. -/
def compute (fields : Compute) : Machine → Machine
  | ⟨memory, a, d, pc, steps⟩ =>
    let value := fields.comp.eval d (if fields.comp.readsMemory then memory.read a else a)
    { memory := if fields.writesM then memory.write a value else memory
      a := if fields.writesA then value else a
      d := if fields.writesD then value else d
      pc := if fields.jumps value then a.toNat else pc + 1
      steps }

/-- Execute an instruction. -/
def execute (op : Op) (m : Machine) : Machine × Cycle :=
  match op with
  | .load value => ({ m with a := BitVec.ofNat 16 value, pc := m.pc + 1 }, .ran)
  | .compute fields =>
    if fields.usesMemory && m.a.cell?.isNone then (m, .fault m.a m.pc)
    else (m.compute fields, .ran)

/-- One cycle of the machine. -/
def step (rom : Rom) (m : Machine) : Machine × Cycle :=
  match rom.code[m.pc]? with
  | none => (m, .halted)
  | some op => execute op { m with steps := m.steps + 1 }

end Machine

end HackStack
