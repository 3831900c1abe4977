import HackStack.MemoryMap

/-!
# Commands of the stack machine

A source is a list of commands, one on a line. `push` and `pop` move words between the stack and a
`HackStack.Segment`; an `HackStack.Operator` takes its operands from the stack and leaves its result
there; the other commands name places in the code. Names and numbers are not checked here: a command
that was built and not read may hold any name.

`HackStack.Command.words` is the written form of a command, word by word, and
`HackStack.Command.stackEffect?` the number of words by which it makes the stack grow.
-/

namespace HackStack

/-! ### Segments -/

/-- A range of values that `push` and `pop` address by an index. -/
inductive Segment
  /-- The index itself. -/
  | constant
  /-- The cells from where a pointer points. -/
  | based (pointer : Pointer)
  /-- The fixed temporary cells. -/
  | temp
  /-- The pointers `THIS` and `THAT` themselves. -/
  | pointer
  /-- The variables of a namespace. -/
  | static
  deriving DecidableEq, Repr

namespace Segment

/-- All segments. -/
def all : List Segment :=
  [constant, based .locals, based .arguments, based .this, based .that, temp, pointer, static]

/-- How a segment is written. -/
def name : Segment → String
  | constant => "constant"
  | based .locals => "local"
  | based .arguments => "argument"
  | based .this => "this"
  | based .that => "that"
  | temp => "temp"
  | pointer => "pointer"
  | static => "static"

/-- The segment that is written like this. -/
def ofName? (text : String) : Option Segment := all.find? (·.name = text)

/-- A segment is read back from its name. -/
theorem ofName?_name (segment : Segment) : ofName? segment.name = some segment := by
  cases segment <;> (try cases ‹Pointer›) <;> decide

/-- The largest index that the segment has. -/
def maxIndex : Segment → Nat
  | temp => MemoryMap.tempSize - 1
  | pointer => 1
  | constant | based _ | static => MemoryMap.maxAddress

end Segment

/-! ### Operators -/

/-- An operator that replaces the topmost word by another. -/
inductive Unary
  | neg | not
  deriving DecidableEq, Repr

/-- An operator that replaces the two topmost words by one. -/
inductive Binary
  | add | sub | and | or
  deriving DecidableEq, Repr

/-- An operator that replaces the two topmost words by a truth value. -/
inductive Comparison
  | eq | gt | lt
  deriving DecidableEq, Repr

/-- An operator on the stack. -/
inductive Operator
  | unary (op : Unary)
  | binary (op : Binary)
  | comparison (op : Comparison)
  deriving DecidableEq, Repr

namespace Operator

/-- All operators. -/
def all : List Operator :=
  [binary .add, binary .sub, unary .neg, comparison .eq, comparison .gt, comparison .lt,
   binary .and, binary .or, unary .not]

/-- How an operator is written. -/
def name : Operator → String
  | unary .neg => "neg"
  | unary .not => "not"
  | binary .add => "add"
  | binary .sub => "sub"
  | binary .and => "and"
  | binary .or => "or"
  | comparison .eq => "eq"
  | comparison .gt => "gt"
  | comparison .lt => "lt"

/-- The operator that is written like this. -/
def ofName? (text : String) : Option Operator := all.find? (·.name = text)

/-- An operator is read back from its name. -/
theorem ofName?_name (op : Operator) : ofName? op.name = some op := by
  rcases op with op | op | op <;> cases op <;> decide

/-- Whether the operator takes one word. -/
def isUnary : Operator → Bool
  | unary _ => true
  | binary _ | comparison _ => false

/-- Whether the operator compares two words. -/
def isComparison : Operator → Bool
  | comparison _ => true
  | unary _ | binary _ => false

end Operator

/-! ### Commands -/

/-- A command of the stack machine. -/
inductive Command
  | push (segment : Segment) (index : Nat)
  | pop (segment : Segment) (index : Nat)
  | operate (op : Operator)
  | label (name : String)
  | goto (target : String)
  /-- Jump if the word popped is not zero. -/
  | ifGoto (target : String)
  /-- The entry of a function and the number of its locals. -/
  | function (name : String) (locals : Nat)
  /-- Enter a function with a number of arguments from the stack. -/
  | call (name : String) (arguments : Nat)
  /-- Leave the function with the word on top of the stack. -/
  | ret
  deriving DecidableEq, Repr

namespace Command

/-- The words that a command is written with. -/
def words : Command → List String
  | push segment index => ["push", segment.name, toString index]
  | pop segment index => ["pop", segment.name, toString index]
  | operate op => [op.name]
  | label name => ["label", name]
  | goto target => ["goto", target]
  | ifGoto target => ["if-goto", target]
  | function name locals => ["function", name, toString locals]
  | call name arguments => ["call", name, toString arguments]
  | ret => ["return"]

/-- The written form of a command. -/
def render (command : Command) : String := " ".intercalate command.words

/-- By how much the command makes the stack of its issuer grow. A `return` tears the issuer's frame
down and leaves it no stack to measure. -/
def stackEffect? : Command → Option Int
  | push _ _ => some 1
  | pop _ _ => some (-1)
  | operate op => some (if op.isUnary then 0 else -1)
  | label _ => some 0
  | goto _ => some 0
  | ifGoto _ => some (-1)
  | function _ locals => some locals
  | call _ arguments => some (1 - arguments)
  | ret => none

end Command

end HackStack
