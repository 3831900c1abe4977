import HackStack.Block.Stack
import HackStack.Command
import HackStack.Context

/-!
# Push and pop

A segment and an index denote a number, a cell with a fixed address, or a cell at a distance from
where a pointer points (`HackStack.Block.Target`). What they denote decides the code.

A target behind a pointer has to be computed, and the value to be popped needs both registers; so
`pop` keeps the target's address in a scratch cell while it fetches the value.
-/

namespace HackStack.Block

open Assembly Statement

/-- What a segment and an index denote. -/
inductive Target
  /-- A number. -/
  | immediate (value : Nat)
  /-- The cell with a known address or symbol. -/
  | direct (operand : Operand)
  /-- The cell at a distance from where a pointer points. -/
  | indirect (pointer : Pointer) (offset : Nat)
  deriving DecidableEq, Repr

/-- What a segment and an index within its bounds denote. -/
def targetInBounds (context : Context) (index : Nat) : Segment → Except Fault Target
  | .constant => .ok (.immediate index)
  | .based pointer => .ok (.indirect pointer index)
  | .temp => .ok (.direct (.number (MemoryMap.tempBase + index)))
  | .pointer =>
    let pointer := if index = 0 then Pointer.this else Pointer.that
    .ok (.direct (.symbol pointer.symbol))
  | .static => do
    let name ← context.staticSymbol index
    return .direct (.symbol name)

/-- What a segment and an index denote. -/
def target (context : Context) (segment : Segment) (index : Nat) : Except Fault Target :=
  if index ≤ segment.maxIndex then targetInBounds context index segment
  else .error (.indexOutOfRange segment.name index segment.maxIndex)

/-- Load what a target denotes into D. -/
def fetch : Target → Block
  | .immediate value => [number value, assign .d (.y .a)]
  | .direct operand => [instruction (.address operand), assign .d (.y .m)]
  | .indirect pointer offset =>
    loadD pointer.symbol ++ [number offset, assign .a (.add .a), assign .d (.y .m)]

/-- The code of `push`. -/
def push (context : Context) (segment : Segment) (index : Nat) : Except Fault Block := do
  let target ← target context segment index
  return fetch target ++ pushD

/-- Pop into what a target denotes. -/
def popTo : Target → Except Fault Block
  | .immediate _ => .error (.malformed .popConstant)
  | .direct operand => .ok (popD ++ [instruction (.address operand), assign .m .d])
  | .indirect pointer offset =>
    .ok (loadD pointer.symbol ++ [number offset, assign .d (.add .a)] ++
      saveD MemoryMap.popTarget ++ popD ++
      [symbol MemoryMap.popTarget, assign .a (.y .m), assign .m .d])

/-- The code of `pop`. -/
def pop (context : Context) (segment : Segment) (index : Nat) : Except Fault Block := do
  let target ← target context segment index
  popTo target

end HackStack.Block
