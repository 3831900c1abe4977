import HackStack.Assembly.Statement
import HackStack.MemoryMap

/-!
# Stack blocks

A block is a list of statements with one task. The blocks of this file move a word between the
register D and the stack; all others are built from them. The stack pointer always addresses the
first free slot.
-/

namespace HackStack

/-- A list of statements with one task. -/
abbrev Block := List Assembly.Statement

namespace Block

open Assembly Statement

/-- Point A at the topmost word. -/
def top : Block := [symbol MemoryMap.stackPointer, assign .a (.decY .m)]

/-- Push D. -/
def pushD : Block :=
  [symbol MemoryMap.stackPointer, assign .a (.y .m), assign .m .d,
   symbol MemoryMap.stackPointer, assign .m (.incY .m)]

/-- Pop into D, and leave A on the slot that becomes free. -/
def popD : Block :=
  [symbol MemoryMap.stackPointer, assign .am (.decY .m), assign .d (.y .m)]

/-- Pop into D, and point A at the word that becomes the topmost. -/
def popThenTop : Block := popD ++ [assign .a (.decY .a)]

/-- Copy D into the cell of a symbol. -/
def saveD (cell : String) : Block := [symbol cell, assign .m .d]

/-- Copy the cell of a symbol into D. -/
def loadD (cell : String) : Block := [symbol cell, assign .d (.y .m)]

end Block

end HackStack
