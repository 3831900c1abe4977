import HackStack.Block.Stack
import HackStack.Context

/-!
# Calls, returns and the start of a program

While a function runs, the stack holds its frame:

```text
ARG ->  argument 0
        ...
        argument n-1
        return address         frame - 5
        LCL  of the caller     frame - 4
        ARG  of the caller     frame - 3
        THIS of the caller     frame - 2
        THAT of the caller     frame - 1
LCL ->  local 0                frame
        ...
        local k-1
SP  ->  first free slot
```

A call pushes the five saved words, and a `return` restores the four pointers from the last to the
first and leaves the result where argument 0 was. Without arguments that is where the return address
was; hence the return address is fetched before the result is stored.
-/

namespace HackStack.Block

open Assembly Statement

/-- Push a zero for each local. -/
def zeros (locals : Nat) : Block :=
  if locals = 0 then [] else assign .d .zero :: (List.replicate locals pushD).flatten

/-- The code of `function`. -/
def function (name : String) (locals : Nat) : Lowering Block := do
  let name ← Context.enterFunction name
  return label name :: zeros locals

/-- Push the pointers of the caller. -/
def savePointers : Block := Pointer.all.flatMap fun pointer => loadD pointer.symbol ++ pushD

/-- Move the pointers to the frame of the function called, which lies `distance` below the stack
pointer with its arguments. -/
def enterFrame (distance : Nat) : Block :=
  loadD MemoryMap.stackPointer ++ [number distance, assign .d (.dSubY .a)] ++
  saveD Pointer.arguments.symbol ++
  loadD MemoryMap.stackPointer ++ saveD Pointer.locals.symbol

/-- The code of a call that returns to a label it has been given. -/
def callReturningTo (returnLabel name : String) (arguments : Nat) : Block :=
  [symbol returnLabel, assign .d (.y .a)] ++ pushD ++ savePointers ++
  enterFrame (arguments + MemoryMap.frameSize) ++
  [symbol name, branch .zero .always, label returnLabel]

/-- The code of `call`. The arguments and the saved words have to lie within reach of an address. -/
def call (name : String) (arguments : Nat) : Lowering Block :=
  if arguments + MemoryMap.frameSize ≤ MemoryMap.maxAddress then do
    let returnLabel ← Context.declare (← Context.nextReturn)
    return callReturningTo returnLabel name arguments
  else throw (.malformed (.tooManyArguments name arguments))

/-- Restore the pointers of the caller from the saved words. -/
def restorePointers : Block :=
  Pointer.restored.flatMap fun pointer =>
    [symbol MemoryMap.frameBase, assign .am (.decY .m), assign .d (.y .m)] ++ saveD pointer.symbol

/-- Tear the frame down and go back to the caller. -/
def leaveFrame : Block :=
  loadD Pointer.locals.symbol ++ saveD MemoryMap.frameBase ++
  [number MemoryMap.frameSize, assign .a (.dSubY .a), assign .d (.y .m)] ++
  saveD MemoryMap.returnAddress ++
  popD ++ [symbol Pointer.arguments.symbol, assign .a (.y .m), assign .m .d] ++
  [assign .d (.incY .a)] ++ saveD MemoryMap.stackPointer ++
  restorePointers ++
  [symbol MemoryMap.returnAddress, assign .a (.y .m), branch .zero .always]

/-- The code of `return`, which only a function can do. -/
def ret (context : Context) : Except Fault Block :=
  match context.scope.function? with
  | some _ => .ok leaveFrame
  | none => .error (.misuse .returnOutsideFunction)

/-- The code a program starts with: set up the stack and call the entry function. -/
def startUp (stackBase : Nat) (entry : String) : Lowering Block :=
  if stackBase ≤ MemoryMap.maxAddress then do
    let enter ← call entry 0
    return [number stackBase, assign .d (.y .a)] ++ saveD MemoryMap.stackPointer ++ enter
  else throw (.malformed (.stackBase stackBase))

end HackStack.Block
