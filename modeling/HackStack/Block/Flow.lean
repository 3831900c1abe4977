import HackStack.Block.Stack
import HackStack.Context

/-!
# Labels and jumps of the source

A label of the source is named after the scope it stands in. A jump names its target the same way,
whether or not the target exists: it may be declared later.
-/

namespace HackStack.Block

open Assembly Statement

/-- The code of `label`. -/
def place (name : String) : Lowering Block := do
  let name ← Context.declareUser name
  return [label name]

/-- The code of `goto`. -/
def goto (context : Context) (name : String) : Block :=
  [symbol (context.userLabel name).render, branch .zero .always]

/-- The code of `if-goto`. -/
def ifGoto (context : Context) (name : String) : Block :=
  popD ++ [symbol (context.userLabel name).render, branch .d .ne]

end HackStack.Block
