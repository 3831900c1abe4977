import Std.Data.HashMap
import HackStack.Assembly.Reader
import HackStack.Text.Line

/-!
# Assembling a program

A `HackStack.Rom` is a program as the machine runs it: instructions whose operands are numbers. It
also remembers which number each symbol was given.

Assembling takes two passes, because a label may be used before it is declared:

* the first (`HackStack.Layout.ofText`) reads the lines, keeps the instructions, and gives every
  label the address of the instruction that follows it;
* the second (`HackStack.Layout.link`) replaces symbols by numbers. A symbol is predefined, or else
  a label, or else a variable; variables get their cells in the order of first use.

An error of the first pass is reported at the first line that has one. The size of the program is
looked at between the passes.
-/

namespace HackStack

open Assembly

/-- An instruction as the machine runs it. -/
inductive Op
  /-- Load the register A. -/
  | load (value : Nat)
  /-- Compute, store the result, jump. -/
  | compute (fields : Compute)
  deriving DecidableEq, Repr

/-- The written form of an instruction whose operand is a number. -/
def Op.render : Op → String
  | load value => "@" ++ toString value
  | compute fields => fields.render

/-- A program as the machine runs it, and the numbers its symbols stand for. -/
structure Rom where
  code : Array Op
  /-- The addresses that the labels have in the program. -/
  labels : Std.HashMap String Nat
  /-- The memory cells of the variables. -/
  cells : Std.HashMap String Nat

/-- Why a text cannot be assembled. -/
inductive AssemblyError
  | unreadable (line : Nat) (why : ReadError)
  | duplicateLabel (name : String)
  | tooLarge (instructions : Nat)
  deriving DecidableEq, Repr

/-- The wording of an assembly error. -/
def AssemblyError.message : AssemblyError → String
  | unreadable line why => s!"Line {line}: {why.message}"
  | duplicateLabel name => s!"Label '{name}' declared twice"
  | tooLarge instructions =>
    s!"Program needs {instructions} instruction slots, more than ROM holds"

/-! ### First pass -/

/-- What the first pass finds: the instructions, and where the labels stand among them. -/
structure Layout where
  code : Array Instruction := #[]
  labels : Std.HashMap String Nat := ∅

namespace Layout

/-- Add a statement behind the others. -/
def add (statement : Statement) : Layout → Except AssemblyError Layout
  | ⟨code, labels⟩ =>
    match statement with
    | .instruction i => .ok ⟨code.push i, labels⟩
    | .comment _ => .ok ⟨code, labels⟩
    | .label name =>
      let (taken, labels) := labels.containsThenInsertIfNew name code.size
      if taken then .error (.duplicateLabel name) else .ok ⟨code, labels⟩

/-- Read a numbered line, and add its statement. -/
def addLine (layout : Layout) (line : Nat × String) : Except AssemblyError Layout :=
  match Statement.read line.2 with
  | .ok statement => layout.add statement
  | .error why => .error (.unreadable line.1 why)

/-- The layout of a text. -/
def ofText (text : String) : Except AssemblyError Layout :=
  (Text.codeLines text).foldlM addLine {}

/-! ### Second pass -/

/-- The number an operand stands for. A symbol that is new becomes a variable, with the next cell
that is free. -/
def resolve (labels : Std.HashMap String Nat) (operand : Operand)
    (cells : Std.HashMap String Nat) : Nat × Std.HashMap String Nat :=
  match operand with
  | .number n => (n, cells)
  | .symbol name =>
    match MemoryMap.predefined? name <|> labels[name]? <|> cells[name]? with
    | some value => (value, cells)
    | none =>
      let cell := MemoryMap.firstVariable + cells.size
      (cell, cells.insert name cell)

/-- Replace the symbol of one instruction, and put the instruction behind those already done. -/
def linkNext (labels : Std.HashMap String Nat) :
    Array Op × Std.HashMap String Nat → Instruction → Array Op × Std.HashMap String Nat
  | (done, cells), .address operand =>
    let (value, cells) := resolve labels operand cells
    (done.push (.load value), cells)
  | (done, cells), .compute fields => (done.push (.compute fields), cells)

/-- The program with all its symbols replaced. -/
def link (layout : Layout) : Rom :=
  let (code, cells) := layout.code.foldl (linkNext layout.labels) (#[], ∅)
  ⟨code, layout.labels, cells⟩

end Layout

/-- Assemble a text. -/
def assemble (text : String) : Except AssemblyError Rom := do
  let layout ← Layout.ofText text
  if layout.code.size > MemoryMap.size then
    throw (.tooLarge layout.code.size)
  return layout.link

end HackStack
