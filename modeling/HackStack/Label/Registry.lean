import Std.Data.HashSet
import HackStack.Fault
import HackStack.Label
import HackStack.Step

/-!
# The registry of names

The registry hands out ordinals and remembers every name that has been declared. Whether a name is
unique is checked at each declaration and does not follow from how names are built: a function may
well be called like the label of a comparison.

Comparisons are numbered through the whole program. Calls are numbered within their scope, so the
counter starts again whenever the scope changes.

Ordinals are natural numbers. A registry with counters of 32 bits hands out the same ones as long as
they are below `2 ^ 32`, and a session that is given fewer than `2 ^ 32 - 1` commands comes to no
other (`HackStack.Session.ordinals_le`). What is said of more commands than that is said of the
unbounded counters only.
-/

namespace HackStack

/-- The ordinals handed out and the names declared. -/
structure Registry where
  /-- The ordinal of the latest comparison. -/
  comparisons : Nat := 0
  /-- The ordinal of the latest call in the current scope. -/
  calls : Nat := 0
  /-- The names declared so far. -/
  declared : Std.HashSet String := ∅

namespace Registry

/-- Whether a name has been declared. -/
def isDeclared (registry : Registry) (name : String) : Bool := registry.declared.contains name

/-- A comparison takes the next ordinal. -/
def nextComparison : Step Fault Registry Nat := fun registry =>
  (.ok (registry.comparisons + 1), { registry with comparisons := registry.comparisons + 1 })

/-- A call in `scope` takes the next return address. -/
def nextReturn (scope : Scope) : Step Fault Registry Label := fun registry =>
  (.ok (.returnTo scope (registry.calls + 1)), { registry with calls := registry.calls + 1 })

/-- Start numbering calls again. -/
def resetCalls (registry : Registry) : Registry := { registry with calls := 0 }

/-- Declare a label, and answer with its name. A name that is taken is a fault, and leaves the
registry as it was. -/
def declare (label : Label) : Step Fault Registry String := fun
  | ⟨comparisons, calls, declared⟩ =>
    let name := label.render
    let (taken, declared) := declared.containsThenInsert name
    (if taken then .error (.duplicateLabel name) else .ok name, ⟨comparisons, calls, declared⟩)

end Registry

end HackStack
