import HackStack.Command
import HackStack.Fault
import HackStack.Text.Blank
import HackStack.Text.Decimal

/-!
# Reading commands

A line is a sequence of words: the first names the command and the others are its arguments. Reading
checks, in this order, the name, the number of arguments, and the arguments from left to right; what
the names refer to is not its concern. Only when all arguments are well formed is a `pop` into the
constant segment refused.

`HackStack.Command.ofWords` reads words and `HackStack.Command.read` a line. What a command is
written with is read back to it as long as its symbols and numbers pass the same checks.
-/

namespace HackStack

/-! ### Arguments -/

/-- The characters of a symbol. -/
def isSymbolChar (c : Char) : Bool :=
  c.isAlphanum || c = '_' || c = '.' || c = ':' || c = '$'

/-- A symbol starts with no digit and holds symbol characters only. -/
def isSymbol (text : List Char) : Bool :=
  text.all isSymbolChar && !(text.head?.any Char.isDigit)

namespace Command

/-- The largest number that a command can be written with. -/
def maxNumber : Nat := 65535

/-- The symbol that an argument of `command` is. -/
def readSymbol (command text : String) : Except Fault String :=
  if isSymbol text.toList then .ok text else .error (.malformed (.notASymbol command text))

/-- The number that an argument of `command` is. -/
def readNumber (command text : String) : Except Fault Nat :=
  if text.toList.all Char.isDigit then
    match Text.decimal? maxNumber text.toList with
    | some n => .ok n
    | none => .error (.malformed (.numberTooLarge command text))
  else .error (.malformed (.notANumber command text))

/-- The segment that an argument is. -/
def readSegment (text : String) : Except Fault Segment :=
  match Segment.ofName? text with
  | some segment => .ok segment
  | none => .error (.unknownSegment text)

/-! ### Argument lists -/

/-- A command that takes no argument. -/
def readNone (command : String) (result : Command) : List String → Except Fault Command
  | [] => .ok result
  | arguments => .error (.malformed (.argumentCount command 0 arguments.length))

/-- A command that takes a symbol. -/
def readOne (command : String) (result : String → Command) :
    List String → Except Fault Command
  | [name] => return result (← readSymbol command name)
  | arguments => .error (.malformed (.argumentCount command 1 arguments.length))

/-- A command that takes a symbol and a number. -/
def readTwo (command : String) (result : String → Nat → Command) :
    List String → Except Fault Command
  | [name, count] => do
    let name ← readSymbol command name
    let count ← readNumber command count
    return result name count
  | arguments => .error (.malformed (.argumentCount command 2 arguments.length))

/-- A command that takes a segment and an index. -/
def readAccess (command : String) (result : Segment → Nat → Except Fault Command) :
    List String → Except Fault Command
  | [segment, index] => do
    let segment ← readSegment segment
    let index ← readNumber command index
    result segment index
  | arguments => .error (.malformed (.argumentCount command 2 arguments.length))

/-! ### Commands -/

/-- A `pop` whose segment has cells. -/
def popInto (segment : Segment) (index : Nat) : Except Fault Command :=
  if segment = .constant then .error (.malformed .popConstant) else .ok (pop segment index)

/-- The command that `word` names, with the words behind it as its arguments. -/
def ofName (word : String) (arguments : List String) : Except Fault Command :=
  match Operator.ofName? word with
  | some op => readNone word (operate op) arguments
  | none =>
    match word with
    | "push" => readAccess word (fun segment index => .ok (push segment index)) arguments
    | "pop" => readAccess word popInto arguments
    | "label" => readOne word label arguments
    | "goto" => readOne word goto arguments
    | "if-goto" => readOne word ifGoto arguments
    | "function" => readTwo word function arguments
    | "call" => readTwo word call arguments
    | "return" => readNone word ret arguments
    | _ => .error (.malformed (.unknownCommand word))

/-- The command that words denote. -/
def ofWords : List String → Except Fault Command
  | [] => .error (.malformed .empty)
  | word :: arguments => ofName word arguments

/-- The command on a line that holds no comment. -/
def read (line : String) : Except Fault Command :=
  ofWords ((Text.words line.toList).map String.ofList)

end Command

end HackStack
