import HackStack.Assembly.Field

/-!
# Assembly statements

A line of assembly is a `HackStack.Assembly.Statement`: an instruction, a label or a comment. Only
instructions take a slot of the instruction memory, so they have a type of their own,
`HackStack.Assembly.Instruction`.

The written form is `Statement.render`; a `HackStack.Assembly.listing` has one line per statement,
each ended by a line feed.
-/

namespace HackStack.Assembly

/-- What an address instruction loads. -/
inductive Operand
  | number (n : Nat)
  | symbol (name : String)
  deriving DecidableEq, Repr

/-- The fields of a compute instruction. -/
structure Compute where
  dest : Option Dest
  comp : Comp
  jump : Option Jump
  deriving DecidableEq, Repr

namespace Compute

/-- Whether the instruction stores its result in A. -/
def writesA (fields : Compute) : Bool := fields.dest.any Dest.writesA

/-- Whether the instruction stores its result in D. -/
def writesD (fields : Compute) : Bool := fields.dest.any Dest.writesD

/-- Whether the instruction stores its result in the memory word that A addresses. -/
def writesM (fields : Compute) : Bool := fields.dest.any Dest.writesM

/-- Whether the instruction reads or writes the memory word that A addresses. -/
def usesMemory (fields : Compute) : Bool := fields.comp.readsMemory || fields.writesM

/-- Whether the instruction jumps when the ALU has computed `value`. -/
def jumps (fields : Compute) (value : Word) : Bool := fields.jump.any (·.taken value)

end Compute

/-- An instruction of the machine, with symbols still in place of addresses. -/
inductive Instruction
  /-- Load the register A. -/
  | address (operand : Operand)
  /-- Compute, store the result, jump. -/
  | compute (fields : Compute)
  deriving DecidableEq, Repr

/-- A line of assembly. -/
inductive Statement
  | instruction (i : Instruction)
  /-- A name for the address of the instruction that follows. -/
  | label (name : String)
  | comment (text : String)
  deriving DecidableEq, Repr

/-! ### Written form -/

/-- How an operand is written. -/
def Operand.render : Operand → String
  | number n => toString n
  | symbol name => name

/-- How the fields are written: a field that is missing takes its separator along. -/
def Compute.render (fields : Compute) : String :=
  (match fields.dest with
    | some dest => dest.mnemonic ++ "="
    | none => "") ++
  fields.comp.mnemonic ++
  (match fields.jump with
    | some jump => ";" ++ jump.mnemonic
    | none => "")

/-- How an instruction is written. -/
def Instruction.render : Instruction → String
  | address operand => "@" ++ operand.render
  | compute fields => fields.render

namespace Statement

/-- How a statement is written. -/
def render : Statement → String
  | instruction i => i.render
  | label name => "(" ++ name ++ ")"
  | comment text => "// " ++ text

/-- The written form with the line feed that ends it. -/
def line (s : Statement) : String := s.render ++ "\n"

/-! ### Building statements -/

/-- Whether the statement takes a slot of the instruction memory. -/
def isInstruction : Statement → Bool
  | instruction _ => true
  | label _ | comment _ => false

/-- Load a number. -/
def number (n : Nat) : Statement := instruction (.address (.number n))

/-- Load what a symbol stands for. -/
def symbol (name : String) : Statement := instruction (.address (.symbol name))

/-- Store the result of a computation. -/
def assign (dest : Dest) (comp : Comp) : Statement :=
  instruction (.compute ⟨some dest, comp, none⟩)

/-- Jump on the result of a computation to where A points. -/
def branch (comp : Comp) (jump : Jump) : Statement :=
  instruction (.compute ⟨none, comp, some jump⟩)

end Statement

/-- The text of a list of statements. -/
def listing (statements : List Statement) : String := String.join (statements.map Statement.line)

end HackStack.Assembly
