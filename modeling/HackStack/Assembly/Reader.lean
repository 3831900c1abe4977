import HackStack.Assembly.Statement
import HackStack.MemoryMap
import HackStack.Text.Blank
import HackStack.Text.Decimal

/-!
# Reading assembly

`HackStack.Assembly.Statement.read` reads one line, whatever blanks stand around it. The first
characters decide what the line is:

* `//` starts a comment;
* `@` starts an address instruction, whose operand is a number if it starts with a digit and a
  symbol otherwise – any symbol, since nothing follows it on the line;
* `(` starts a label, which the line's last character `)` closes;
* everything else is a compute instruction. The first `=` ends the destination and the first `;`
  behind it starts the jump; the fields are read from left to right, and the first that is no
  mnemonic is reported.
-/

namespace HackStack.Assembly

/-- Why a line is no assembly. -/
inductive ReadError
  | missingOperand
  | numericAddress (text : String)
  | addressTooLarge (n : Nat)
  | malformedLabel (line : String)
  | destination (text : String)
  | computation (text : String)
  | jumpCondition (text : String)
  deriving DecidableEq, Repr

/-- The wording of a reading error. -/
def ReadError.message : ReadError → String
  | missingOperand => "address instruction without operand"
  | numericAddress text => s!"invalid numeric address '{text}'"
  | addressTooLarge n => s!"address {n} exceeds {MemoryMap.maxAddress}"
  | malformedLabel line => s!"malformed label declaration '{line}'"
  | destination text => s!"invalid destination '{text}'"
  | computation text => s!"invalid compute expression '{text}'"
  | jumpCondition text => s!"invalid jump condition '{text}'"

/-! ### Fields -/

/-- The destination that a text is. -/
def Dest.read (text : String) : Except ReadError Dest :=
  match ofMnemonic? text with
  | some dest => .ok dest
  | none => .error (.destination text)

/-- The computation that a text is. -/
def Comp.read (text : String) : Except ReadError Comp :=
  match ofMnemonic? text with
  | some comp => .ok comp
  | none => .error (.computation text)

/-- The jump condition that a text is. -/
def Jump.read (text : String) : Except ReadError Jump :=
  match ofMnemonic? text with
  | some jump => .ok jump
  | none => .error (.jumpCondition text)

/-- What stands before the first `separator` and what stands behind it, if there is one. -/
def cutAt (separator : Char) (text : List Char) : Option (List Char × List Char) :=
  match text.dropWhile (· ≠ separator) with
  | [] => none
  | _ :: rest => some (text.takeWhile (· ≠ separator), rest)

/-- The fields behind the destination. -/
def Compute.readTail (dest : Option Dest) (text : List Char) : Except ReadError Compute :=
  match cutAt ';' text with
  | some (comp, jump) => do
    let comp ← Comp.read (String.ofList comp)
    let jump ← Jump.read (String.ofList jump)
    return ⟨dest, comp, some jump⟩
  | none => do
    let comp ← Comp.read (String.ofList text)
    return ⟨dest, comp, none⟩

/-- The three fields. -/
def Compute.read (text : List Char) : Except ReadError Compute :=
  match cutAt '=' text with
  | some (dest, rest) => do
    let dest ← Dest.read (String.ofList dest)
    readTail (some dest) rest
  | none => readTail none text

/-! ### Operands and labels -/

/-- The largest number that an operand can be read as, whether or not it can be loaded. -/
def Operand.maxNumber : Nat := 65535

/-- An operand of digits. -/
def Operand.readNumber (digits : List Char) : Except ReadError Operand :=
  if digits.all Char.isDigit then
    match Text.decimal? maxNumber digits with
    | none => .error (.numericAddress (String.ofList digits))
    | some n =>
      if n ≤ MemoryMap.maxAddress then .ok (.number n) else .error (.addressTooLarge n)
  else .error (.numericAddress (String.ofList digits))

/-- The operand of an address instruction. -/
def Operand.read : List Char → Except ReadError Operand
  | [] => .error .missingOperand
  | c :: rest =>
    if c.isDigit then readNumber (c :: rest) else .ok (.symbol (String.ofList (c :: rest)))

/-- The name between a label's parentheses, of which the first has been read. -/
def labelName? (rest : List Char) : Option (List Char) :=
  if rest.getLast? = some ')' ∧ rest.dropLast ≠ [] then some rest.dropLast else none

/-! ### Statements -/

namespace Statement

/-- A statement without blanks around it. -/
def readTrimmed : List Char → Except ReadError Statement
  | '/' :: '/' :: text => .ok (.comment (String.ofList (Text.trim text)))
  | '@' :: operand => do
    let operand ← Operand.read operand
    return .instruction (.address operand)
  | '(' :: rest =>
    match labelName? rest with
    | some name => .ok (.label (String.ofList name))
    | none => .error (.malformedLabel (String.ofList ('(' :: rest)))
  | line => do
    let fields ← Compute.read line
    return .instruction (.compute fields)

/-- The statement on a line. -/
def read (line : String) : Except ReadError Statement := readTrimmed (Text.trim line.toList)

end Statement

end HackStack.Assembly
