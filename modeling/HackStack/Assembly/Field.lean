import HackStack.Word

/-!
# The fields of a compute instruction

A compute instruction `dest=comp;jump` has three fields, and each takes its values from a closed
set:

* `HackStack.Assembly.Dest` – which of A, D and M the result is stored in;
* `HackStack.Assembly.Comp` – what the ALU computes from D and from its second input, which is
  either A or M (`HackStack.Assembly.Input`);
* `HackStack.Assembly.Jump` – for which results the machine jumps.

Every value has a mnemonic, and every text is the mnemonic of at most one value: reading a field
(`Dest.ofMnemonic?` and its two companions) looks it up in the list of all values.
-/

namespace HackStack.Assembly

/-! ### Destinations -/

/-- Where a compute instruction stores its result, if it stores it at all. -/
inductive Dest
  | m | d | md | a | am | ad | amd
  deriving DecidableEq, Repr

namespace Dest

/-- All destinations. -/
def all : List Dest := [m, d, md, a, am, ad, amd]

/-- How a destination is written. -/
def mnemonic : Dest → String
  | m => "M"
  | d => "D"
  | md => "MD"
  | a => "A"
  | am => "AM"
  | ad => "AD"
  | amd => "AMD"

/-- Whether the result goes to A. -/
def writesA : Dest → Bool
  | a | am | ad | amd => true
  | m | d | md => false

/-- Whether the result goes to D. -/
def writesD : Dest → Bool
  | d | md | ad | amd => true
  | m | a | am => false

/-- Whether the result goes to the memory word that A addresses. -/
def writesM : Dest → Bool
  | m | md | am | amd => true
  | d | a | ad => false

/-- The destination that is written like this. -/
def ofMnemonic? (text : String) : Option Dest := all.find? (·.mnemonic = text)

/-- A destination is read back from its mnemonic. -/
theorem ofMnemonic?_mnemonic (dest : Dest) : ofMnemonic? dest.mnemonic = some dest := by
  cases dest <;> decide

end Dest

/-! ### Computations -/

/-- The second input of the ALU: the register A, or the memory word that A addresses. -/
inductive Input
  | a | m
  deriving DecidableEq, Repr

/-- What the ALU computes, from D and from a second input where the constructor names one. -/
inductive Comp
  /-- The constant 0. -/
  | zero
  /-- The constant 1. -/
  | one
  /-- The constant −1. -/
  | negOne
  /-- D itself. -/
  | d
  /-- The second input itself. -/
  | y (input : Input)
  /-- The complement of D. -/
  | notD
  /-- The complement of the second input. -/
  | notY (input : Input)
  /-- The negative of D. -/
  | negD
  /-- The negative of the second input. -/
  | negY (input : Input)
  /-- D and one more. -/
  | incD
  /-- The second input and one more. -/
  | incY (input : Input)
  /-- D less one. -/
  | decD
  /-- The second input less one. -/
  | decY (input : Input)
  /-- The sum. -/
  | add (input : Input)
  /-- D less the second input. -/
  | dSubY (input : Input)
  /-- The second input less D. -/
  | ySubD (input : Input)
  /-- The bitwise conjunction. -/
  | and (input : Input)
  /-- The bitwise disjunction. -/
  | or (input : Input)
  deriving DecidableEq, Repr

namespace Comp

/-- All computations. -/
def all : List Comp :=
  [zero, one, negOne, d, y .a, y .m, notD, notY .a, notY .m, negD, negY .a, negY .m,
   incD, incY .a, incY .m, decD, decY .a, decY .m,
   add .a, add .m, dSubY .a, dSubY .m, ySubD .a, ySubD .m, and .a, and .m, or .a, or .m]

/-- How a computation is written. -/
def mnemonic : Comp → String
  | zero => "0"
  | one => "1"
  | negOne => "-1"
  | d => "D"
  | y .a => "A"
  | y .m => "M"
  | notD => "!D"
  | notY .a => "!A"
  | notY .m => "!M"
  | negD => "-D"
  | negY .a => "-A"
  | negY .m => "-M"
  | incD => "D+1"
  | incY .a => "A+1"
  | incY .m => "M+1"
  | decD => "D-1"
  | decY .a => "A-1"
  | decY .m => "M-1"
  | add .a => "D+A"
  | add .m => "D+M"
  | dSubY .a => "D-A"
  | dSubY .m => "D-M"
  | ySubD .a => "A-D"
  | ySubD .m => "M-D"
  | and .a => "D&A"
  | and .m => "D&M"
  | or .a => "D|A"
  | or .m => "D|M"

/-- The second input that the computation uses, if it uses one. -/
def input? : Comp → Option Input
  | zero | one | negOne | d | notD | negD | incD | decD => none
  | y i | notY i | negY i | incY i | decY i | add i | dSubY i | ySubD i | and i | or i => some i

/-- Whether the computation reads the memory word that A addresses. -/
def readsMemory (comp : Comp) : Bool := comp.input? = some .m

/-- The result, from D and the second input. -/
def eval (comp : Comp) (dValue yValue : Word) : Word :=
  match comp with
  | zero => 0
  | one => 1
  | negOne => -1
  | d => dValue
  | y _ => yValue
  | notD => ~~~dValue
  | notY _ => ~~~yValue
  | negD => -dValue
  | negY _ => -yValue
  | incD => dValue + 1
  | incY _ => yValue + 1
  | decD => dValue - 1
  | decY _ => yValue - 1
  | add _ => dValue + yValue
  | dSubY _ => dValue - yValue
  | ySubD _ => yValue - dValue
  | and _ => dValue &&& yValue
  | or _ => dValue ||| yValue

/-- The computation that is written like this. -/
def ofMnemonic? (text : String) : Option Comp := all.find? (·.mnemonic = text)

/-- A computation is read back from its mnemonic. -/
theorem ofMnemonic?_mnemonic (comp : Comp) : ofMnemonic? comp.mnemonic = some comp := by
  cases comp <;> (try cases ‹Input›) <;> decide

end Comp

/-! ### Jumps -/

/-- For which results, read as signed numbers, the machine jumps. -/
inductive Jump
  | gt | eq | ge | lt | ne | le | always
  deriving DecidableEq, Repr

namespace Jump

/-- All jump conditions. -/
def all : List Jump := [gt, eq, ge, lt, ne, le, always]

/-- How a jump condition is written. -/
def mnemonic : Jump → String
  | gt => "JGT"
  | eq => "JEQ"
  | ge => "JGE"
  | lt => "JLT"
  | ne => "JNE"
  | le => "JLE"
  | always => "JMP"

/-- Whether the machine jumps when the ALU has computed `value`. -/
def taken (jump : Jump) (value : Word) : Bool :=
  match jump with
  | gt => 0 < value.toInt
  | eq => value.toInt = 0
  | ge => 0 ≤ value.toInt
  | lt => value.toInt < 0
  | ne => value.toInt ≠ 0
  | le => value.toInt ≤ 0
  | always => true

/-- The jump condition that is written like this. -/
def ofMnemonic? (text : String) : Option Jump := all.find? (·.mnemonic = text)

/-- A jump condition is read back from its mnemonic. -/
theorem ofMnemonic?_mnemonic (jump : Jump) : ofMnemonic? jump.mnemonic = some jump := by
  cases jump <;> decide

end Jump

end HackStack.Assembly
