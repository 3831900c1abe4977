import HackStack.Location

/-!
# Faults and failures

A `HackStack.Fault` is the reason why one command cannot be translated. It knows nothing of where
the command stands: whoever reads the source attaches the location, and the two together are a
`HackStack.Failure`. The other way to fail is that the output cannot be written; such a failure has
no place in any source.

Each cause is a constructor and its wording lives in one function per type: `Malformation.message`,
`Misuse.message` and `Failure.message`.
-/

namespace HackStack

/-- What is wrong with the form of a command. -/
inductive Malformation
  /-- There is no word on the line. -/
  | empty
  /-- The first word names no command. -/
  | unknownCommand (word : String)
  /-- The command takes another number of arguments. -/
  | argumentCount (word : String) (expected found : Nat)
  /-- A number was expected. -/
  | notANumber (word text : String)
  /-- The number does not fit in a word. -/
  | numberTooLarge (word text : String)
  /-- A symbol was expected. -/
  | notASymbol (word text : String)
  /-- A constant has no cell to pop into. -/
  | popConstant
  /-- The frame of a call is too large to be measured in an address. -/
  | tooManyArguments (function : String) (arguments : Nat)
  /-- The stack would start outside the memory that an address reaches. -/
  | stackBase (base : Nat)
  /-- A reason in words of the caller. -/
  | described (detail : String)
  deriving DecidableEq, Repr

/-- How a command can break the protocol of calls and files. -/
inductive Misuse
  /-- A `return` stands where no function has been entered. -/
  | returnOutsideFunction
  /-- A static variable is used before any file or function. -/
  | staticWithoutNamespace
  /-- A reason in words of the caller. -/
  | described (detail : String)
  deriving DecidableEq, Repr

/-- Why a command cannot be translated. -/
inductive Fault
  | malformed (why : Malformation)
  | unknownSegment (name : String)
  | indexOutOfRange (segment : String) (index maximum : Nat)
  | misuse (why : Misuse)
  | duplicateLabel (name : String)
  deriving DecidableEq, Repr

/-- Why a translation stops: a fault at a location, or an output that cannot be written. -/
inductive Failure
  | fault (place : Location) (why : Fault)
  | output (detail : String)
  deriving DecidableEq, Repr

/-! ### Wording -/

/-- The plural ending of a counted noun. -/
def pluralEnding (count : Nat) : String := if count = 1 then "" else "s"

/-- The wording of a malformation. -/
def Malformation.message : Malformation → String
  | empty => "empty command"
  | unknownCommand word => s!"unknown command '{word}'"
  | argumentCount word expected found =>
    s!"'{word}' takes {expected} argument{pluralEnding expected}, found {found}"
  | notANumber word text => s!"'{word}' expects a non-negative integer, found '{text}'"
  | numberTooLarge word text => s!"'{word}' argument {text} is too large"
  | notASymbol word text => s!"'{word}' expects a symbol, found '{text}'"
  | popConstant => "cannot pop into the constant segment"
  | tooManyArguments function arguments =>
    s!"call {function} passes too many arguments ({arguments})"
  | stackBase base => s!"stack base {base} is not addressable"
  | described detail => detail

/-- The wording of a misuse. -/
def Misuse.message : Misuse → String
  | returnOutsideFunction => "return outside of any function"
  | staticWithoutNamespace =>
    "static segment accessed before any file or function established a namespace"
  | described detail => detail

/-- The wording of a fault that was found at a location. -/
def Fault.message (place : Location) : Fault → String
  | malformed why => s!"Malformed command at {place.render}: {why.message}"
  | unknownSegment name => s!"Unknown segment '{name}' at {place.render}"
  | indexOutOfRange segment index maximum =>
    s!"Index {index} out of range for segment '{segment}' at {place.render} (maximum: {maximum})"
  | misuse why => s!"Call/return protocol misuse at {place.render}: {why.message}"
  | duplicateLabel name => s!"Duplicate label '{name}' at {place.render}"

namespace Failure

/-- The wording of a failure. -/
def message : Failure → String
  | fault place why => why.message place
  | output detail => s!"IO error: {detail}"

/-- Where the failure arose, if it arose in a source. -/
def location? : Failure → Option Location
  | fault place _ => some place
  | output _ => none

/-! ### Locating -/

/-- A fault whose place is still to be found out. -/
def ofFault (why : Fault) : Failure := fault .unknown why

/-- Say where a failure arose. The first place that is known stands. -/
def locate (here : Location) : Failure → Failure
  | fault place why => fault (if place.isUnknown then here else place) why
  | output detail => output detail

end Failure

end HackStack
