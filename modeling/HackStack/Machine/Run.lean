import HackStack.Machine

/-!
# Bounded runs

The machine may never halt, so a run is given a number of steps. It looks at the limit after each
instruction it has executed, and therefore executes one instruction even when the limit is zero.

* `HackStack.Machine.run` goes on until the program counter is behind the last instruction;
* `HackStack.Machine.runTo` goes on until the program counter is at a given address.

Both return the machine they have come to, whatever the outcome, and the number of instructions that
were executed.
-/

namespace HackStack

/-- Why a run ended before its goal. -/
inductive RunError
  /-- An instruction reached for a memory word outside the memory. -/
  | outsideMemory (address : Word) (pc : Nat)
  /-- The goal was not reached within this number of steps. -/
  | stepLimit (steps : Nat)
  deriving DecidableEq, Repr

/-- The wording of a run's error. -/
def RunError.message : RunError → String
  | outsideMemory address pc => s!"Memory access at {address.toInt} is outside RAM (pc={pc})"
  | stepLimit steps => s!"Stopped after {steps} steps without reaching the target"

namespace Machine

/-- Auxiliary to `run`: go on for at most `left` instructions, and for one at least. The machine had
tried `start` instructions before the run, and `limit` is what the run is allowed. -/
def runFor (rom : Rom) (start limit : Nat) : Nat → Machine → Machine × Except RunError Nat
  | left, m =>
    match step rom m with
    | (m, .halted) => (m, .ok (m.steps - start))
    | (m, .fault address pc) => (m, .error (.outsideMemory address pc))
    | (m, .ran) =>
      match left with
      | 0 | 1 => (m, .error (.stepLimit limit))
      | left + 2 => runFor rom start limit (left + 1) m

/-- Run until the program counter is behind the last instruction. -/
def run (rom : Rom) (limit : Nat) (m : Machine) : Machine × Except RunError Nat :=
  runFor rom m.steps limit limit m

/-- Auxiliary to `runTo`: go on for at most `left` instructions, and for one at least. -/
def runToFor (rom : Rom) (target start : Nat) : Nat → Machine → Machine × Except RunError Nat
  | left, m =>
    if m.pc = target then (m, .ok (m.steps - start))
    else
      match step rom m with
      | (m, .halted) => (m, .error (.stepLimit (m.steps - start)))
      | (m, .fault address pc) => (m, .error (.outsideMemory address pc))
      | (m, .ran) =>
        match left with
        | 0 | 1 => (m, .error (.stepLimit (m.steps - start)))
        | left + 2 => runToFor rom target start (left + 1) m

/-- Run until the program counter is at `target`. A machine that halts elsewhere has stopped without
reaching it. -/
def runTo (rom : Rom) (target limit : Nat) (m : Machine) : Machine × Except RunError Nat :=
  runToFor rom target m.steps limit m

end Machine

end HackStack
