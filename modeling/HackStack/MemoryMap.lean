/-!
# The memory map

The Hack machine has 32768 words of memory, and an address instruction can load any number that
addresses one of them. The first cells have fixed tasks:

```text
0         SP     the first free slot of the stack
1         LCL    where the locals of the current function start
2         ARG    where its arguments start
3         THIS   pointer 0
4         THAT   pointer 1
5  ..  12        the temporary segment
13 ..  15        scratch cells R13, R14, R15
16 .. 255        variables of the assembler
256 ..           the stack
```

A call saves five words below the locals of the function it enters: the return address and the four
pointers, in the order of `HackStack.Pointer.all`.
-/

namespace HackStack

namespace MemoryMap

/-- The number of words of the memory. -/
def size : Nat := 32768

/-- The largest number that an address instruction can load. -/
def maxAddress : Nat := 32767

/-- The symbol of the stack pointer's cell. -/
def stackPointer : String := "SP"

/-- The first cell of the temporary segment. -/
def tempBase : Nat := 5

/-- The number of cells of the temporary segment. -/
def tempSize : Nat := 8

/-- The scratch cell that holds the target of a `pop` while the value is fetched. -/
def popTarget : String := "R13"

/-- The scratch cell that walks down the saved words during a `return`. -/
def frameBase : String := "R14"

/-- The scratch cell that holds the return address during a `return`. -/
def returnAddress : String := "R15"

/-- The first cell that the assembler gives to a variable. -/
def firstVariable : Nat := 16

/-- Where the stack starts unless told otherwise. -/
def stackBase : Nat := 256

/-- The number of words that a call saves. -/
def frameSize : Nat := 5

/-- The function that a program starts with unless told otherwise. -/
def defaultEntry : String := "Sys.init"

/-- The symbols that every assembler knows, with the numbers they stand for. -/
def predefined : List (String × Nat) :=
  [("SP", 0), ("LCL", 1), ("ARG", 2), ("THIS", 3), ("THAT", 4),
   ("R0", 0), ("R1", 1), ("R2", 2), ("R3", 3), ("R4", 4), ("R5", 5), ("R6", 6), ("R7", 7),
   ("R8", 8), ("R9", 9), ("R10", 10), ("R11", 11), ("R12", 12), ("R13", 13), ("R14", 14),
   ("R15", 15), ("SCREEN", 16384), ("KBD", 24576)]

/-- The number a predefined symbol stands for. -/
def predefined? (symbol : String) : Option Nat := predefined.lookup symbol

end MemoryMap

/-- The four cells that say where a segment starts, and that a call saves. -/
inductive Pointer
  | locals
  | arguments
  | this
  | that
  deriving DecidableEq, Repr

namespace Pointer

/-- The pointers in the order in which a call saves them. -/
def all : List Pointer := [locals, arguments, this, that]

/-- The pointers in the order in which a `return` restores them, the last saved first. -/
def restored : List Pointer := all.reverse

/-- The symbol of a pointer's cell. -/
def symbol : Pointer → String
  | locals => "LCL"
  | arguments => "ARG"
  | this => "THIS"
  | that => "THAT"

/-- The address of a pointer's cell. -/
def cell : Pointer → Nat
  | locals => 1
  | arguments => 2
  | this => 3
  | that => 4

/-- How far below the locals of the function entered a call saves the pointer. -/
def frameOffset : Pointer → Nat
  | locals => 4
  | arguments => 3
  | this => 2
  | that => 1

/-- A pointer's symbol and its cell agree. -/
theorem predefined?_symbol (p : Pointer) : MemoryMap.predefined? p.symbol = some p.cell := by
  cases p <;> decide

end Pointer

end HackStack
