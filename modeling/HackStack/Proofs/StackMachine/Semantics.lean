import HackStack.Proofs.Block.Task
import HackStack.Proofs.Machine.Memory
import HackStack.Rom

/-!
# The stack machine

What the commands of a program mean, said of the commands themselves and not of the code that they
are translated to. The stack machine has a memory and stands before one of the tasks of a program; a
task moves words between the stack and the segments, and says which task is next
(`HackStack.StackMachine.Program.perform`).

The stack machine and the machine that runs its programs have the same memory, in which the stack,
the pointers and the segments are where the memory map puts them. Two things are left to whoever
loads the program: the cells of its static variables, and the words that calls save as return
addresses. The scratch cells belong to the translation: a command that reaches for one of them, or
for a word outside the memory, ends in a `HackStack.StackMachine.Trap`.
-/

namespace HackStack

/-- Whether a word addresses a cell that the commands of a program may use: one that is not a
scratch cell. -/
def Word.Usable (w : Word) : Prop := w.Addresses ∧ ¬(13 ≤ w.toNat ∧ w.toNat ≤ 15)

instance (w : Word) : Decidable w.Usable := inferInstanceAs (Decidable (_ ∧ _))

namespace Standing

/-- The symbol of a static variable, where there is a namespace. -/
def static? (s : Standing) (index : Nat) : Option String :=
  s.space.map fun space => space ++ "." ++ toString index

/-- The symbol of the static variable that a command uses. -/
def usedStatic? (s : Standing) : Command → Option String
  | .push .static index | .pop .static index => s.static? index
  | _ => none

/-- The label at which a command goes on, for the commands that have one. -/
def target? (s : Standing) : Command → Option Label
  | .goto name | .ifGoto name => some (.user s.scope name)
  | .call name _ => some (.entry name)
  | .push _ _ | .pop _ _ | .operate _ | .label _ | .function _ _ | .ret => none

end Standing

namespace StackMachine

/-- Why a program stops before its end. -/
inductive Trap
  /-- A command reaches for a word that is a scratch cell or outside the memory. -/
  | memory (address : Word)
  /-- A function returns to a word that no call has saved. -/
  | strayReturn (address : Word)
  /-- There is no cell for a segment and an index. -/
  | noCell (segment : Segment) (index : Nat)
  /-- No command declares a label. -/
  | undeclared (label : Label)
  deriving DecidableEq, Repr

/-- A program in the memory of the stack machine. -/
structure Program where
  /-- The tasks, each with what stands before it. -/
  tasks : List (Standing × Task)
  /-- The number that the place before a task has as a return address. -/
  address : Nat → Nat
  /-- The cell of a static variable. -/
  cell? : String → Option Nat

/-- Where the stack machine stands: before a task. Behind the last task the program has ended. -/
structure State where
  index : Nat
  memory : Memory

/-- Something that is done to the memory. -/
abbrev Action := Step Trap Memory

/-! ### Words in the memory -/

/-- Read a word. -/
def load (w : Word) : Action Word := fun memory =>
  if w.Usable then (.ok (memory.read w), memory) else (.error (.memory w), memory)

/-- Write a word. -/
def store (w v : Word) : Action Unit := fun memory =>
  if w.Usable then (.ok (), memory.write w v) else (.error (.memory w), memory)

/-- Push a word: store it, and then move the stack pointer. -/
def push (v : Word) : Action Unit := do
  store (← load (Word.ofNat 0)) v
  store (Word.ofNat 0) ((← load (Word.ofNat 0)) + 1)

/-- Pop a word: move the stack pointer, and then read. -/
def pop : Action Word := do
  let sp ← load (Word.ofNat 0)
  store (Word.ofNat 0) (sp - 1)
  load (sp - 1)

/-- Read the topmost word. -/
def top : Action Word := do
  load ((← load (Word.ofNat 0)) - 1)

/-- Put a word in the place of the topmost one. -/
def replaceTop (v : Word) : Action Unit := do
  store ((← load (Word.ofNat 0)) - 1) v

/-- Push zeros. -/
def pushZeros : Nat → Action Unit
  | 0 => return ()
  | count + 1 => do
    push 0
    pushZeros count

/-- Push what pointers hold. -/
def savePointers : List Pointer → Action Unit
  | [] => return ()
  | p :: rest => do
    push (← load (Word.ofNat p.cell))
    savePointers rest

/-- Take pointers back from the words that a call has saved below a frame. -/
def restorePointers (frame : Word) : List Pointer → Action Unit
  | [] => return ()
  | p :: rest => do
    store (Word.ofNat p.cell) (← load (frame - Word.ofNat p.frameOffset))
    restorePointers frame rest

/-! ### Operators -/

/-- The word that an operator makes of a word. -/
def unary : Unary → Word → Word
  | .neg, x => -x
  | .not, x => ~~~x

/-- The word that an operator makes of two words, in the order in which they were pushed. -/
def binary : Binary → Word → Word → Word
  | .add, x, y => x + y
  | .sub, x, y => x - y
  | .and, x, y => x &&& y
  | .or, x, y => x ||| y

/-- Whether a comparison holds of two words whose difference is this word. Only its sign matters. -/
def holds : Comparison → Word → Bool
  | .eq, difference => difference.toInt = 0
  | .gt, difference => 0 < difference.toInt
  | .lt, difference => difference.toInt < 0

/-- The word for a truth value. -/
def truth (b : Bool) : Word := if b then -1 else 0

namespace Program

variable (P : Program)

/-! ### Commands -/

/-- The cell that a segment and an index denote. -/
def locate (s : Standing) (index : Nat) : Segment → Action Word
  | .constant => throw (.noCell .constant index)
  | .based p => do return (← load (Word.ofNat p.cell)) + Word.ofNat index
  | .temp => return Word.ofNat (MemoryMap.tempBase + index)
  | .pointer => return Word.ofNat (Pointer.this.cell + index)
  | .static =>
    match (s.static? index).bind P.cell? with
    | some cell => return Word.ofNat cell
    | none => throw (.noCell .static index)

/-- The word that a segment and an index denote. -/
def fetch (s : Standing) (index : Nat) : Segment → Action Word
  | .constant => return Word.ofNat index
  | segment => do load (← P.locate s index segment)

/-- Go on at the task that declares a label. -/
def goTo (label : Label) : Action Nat :=
  match P.tasks.findIdx? fun (s, task) => label ∈ s.labels task.command with
  | some index => return index
  | none => throw (.undeclared label)

/-- Whether the task with this index is a call that saves this word as its return address. -/
def Saves (back : Word) (k : Nat) : Prop :=
  (P.tasks[k]?.any fun (_, task) => task.command matches .call _ _) = true ∧
    Word.ofNat (P.address (k + 1)) = back

instance (back : Word) : DecidablePred (P.Saves back) := fun _ =>
  inferInstanceAs (Decidable (_ ∧ _))

/-- Go on behind the call that has saved this word as its return address. -/
def goBack (back : Word) : Action Nat :=
  match (List.range P.tasks.length).find? fun k => P.Saves back k with
  | some k => return k + 1
  | none => throw (.strayReturn back)

/-- Call a function from the task with index `k`: push the return address and the four pointers, and
point `ARG` at the arguments and `LCL` behind what was pushed. -/
def call (k : Nat) (name : String) (arguments : Nat) : Action Nat := do
  push (Word.ofNat (P.address (k + 1)))
  savePointers Pointer.all
  let sp ← load (Word.ofNat 0)
  store (Word.ofNat Pointer.arguments.cell) (sp - Word.ofNat (arguments + MemoryMap.frameSize))
  store (Word.ofNat Pointer.locals.cell) sp
  P.goTo (.entry name)

/-- Return from a function. The result is put where argument 0 is, and the stack ends behind it; the
return address is read before, since without arguments it is in the same place. -/
def ret : Action Nat := do
  let frame ← load (Word.ofNat Pointer.locals.cell)
  let back ← load (frame - Word.ofNat MemoryMap.frameSize)
  let result ← pop
  let argument ← load (Word.ofNat Pointer.arguments.cell)
  store argument result
  store (Word.ofNat 0) (argument + 1)
  restorePointers frame Pointer.restored
  P.goBack back

/-- **What a command does**, as the command with index `k`, and the index of the task that is
next. -/
def command (k : Nat) (s : Standing) : Command → Action Nat
  | .push segment index => do
    push (← P.fetch s index segment)
    return k + 1
  | .pop segment index => do
    let cell ← P.locate s index segment
    store cell (← pop)
    return k + 1
  | .operate (.unary op) => do
    replaceTop (unary op (← top))
    return k + 1
  | .operate (.binary op) => do
    let y ← pop
    replaceTop (binary op (← top) y)
    return k + 1
  | .operate (.comparison op) => do
    let y ← pop
    replaceTop (truth (holds op ((← top) - y)))
    return k + 1
  | .label _ => return k + 1
  | .goto name => P.goTo (.user s.scope name)
  | .ifGoto name => do
    if (← pop) = 0 then return k + 1 else P.goTo (.user s.scope name)
  | .function _ locals => do
    pushZeros locals
    return k + 1
  | .call name arguments => P.call k name arguments
  | .ret => P.ret

/-- What a task does. -/
def perform (k : Nat) (s : Standing) : Task → Action Nat
  | .startUp stackBase entry => do
    store (Word.ofNat 0) (Word.ofNat stackBase)
    P.call k entry 0
  | .written c => P.command k s c

/-! ### Runs -/

/-- **The stack machine makes a step**: it performs the task that it stands before. -/
def Steps (s s' : State) : Prop :=
  ∃ standing task, P.tasks[s.index]? = some (standing, task) ∧
    P.perform s.index standing task s.memory = (.ok s'.index, s'.memory)

/-- The stack machine makes a number of steps. -/
inductive RunsFor : Nat → State → State → Prop
  | zero (s : State) : RunsFor 0 s s
  | succ {n : Nat} {s s' s'' : State} (hstep : P.Steps s s') (h : RunsFor n s' s'') :
      RunsFor (n + 1) s s''

/-- The stack machine has come to the end of its program. -/
def Halted (s : State) : Prop := P.tasks.length ≤ s.index

/-- The stack machine cannot perform the task that it stands before. -/
def Traps (s : State) (why : Trap) : Prop :=
  ∃ standing task, P.tasks[s.index]? = some (standing, task) ∧
    (P.perform s.index standing task s.memory).1 = .error why

/-- **Everything that a program goes on at is declared**: the target of a call by a function, and
the target of a jump by a label in the same scope. -/
def Closed : Prop :=
  ∀ entry ∈ P.tasks, ∀ label, entry.1.target? entry.2.command = some label →
    ∃ declaring ∈ P.tasks, label ∈ declaring.1.labels declaring.2.command

end Program

end StackMachine

end HackStack
