import HackStack.Block.Stack
import HackStack.Command
import HackStack.Context

/-!
# Operators

An operator on one word replaces the top of the stack in place. An operator on two words pops the
second into D and combines it with the first where that one lies.

A comparison branches on the sign of the difference and writes −1 or 0. The difference has sixteen
bits like every word, so `gt` and `lt` are right exactly for words whose difference is a word.
-/

namespace HackStack.Block

open Assembly Statement

/-- The computation of an operator on one word. -/
def unaryComp : Unary → Comp
  | .neg => .negY .m
  | .not => .notY .m

/-- The computation of an operator on two words, the second in D. -/
def binaryComp : Binary → Comp
  | .add => .add .m
  | .sub => .ySubD .m
  | .and => .and .m
  | .or => .or .m

/-- For which differences a comparison holds. -/
def condition : Comparison → Jump
  | .eq => .eq
  | .gt => .gt
  | .lt => .lt

/-- The code of a comparison, between the two labels it has been given. -/
def branches (jump : Jump) (holds done : String) : Block :=
  popThenTop ++ [assign .d (.ySubD .m), symbol holds, branch .d jump] ++
  top ++ [assign .m .zero, symbol done, branch .zero .always] ++
  [label holds] ++ top ++ [assign .m .negOne, label done]

/-- The code of a comparison. Both its labels are declared, the one for the outcome first. -/
def comparison (op : Comparison) : Lowering Block := do
  let ordinal ← Context.nextComparison
  let holds ← Context.declare (.compare ordinal .holds)
  let done ← Context.declare (.compare ordinal .done)
  return branches (condition op) holds done

/-- The code of an operator. -/
def operate : Operator → Lowering Block
  | .unary op => return top ++ [assign .m (unaryComp op)]
  | .binary op => return popThenTop ++ [assign .m (binaryComp op)]
  | .comparison op => comparison op

end HackStack.Block
