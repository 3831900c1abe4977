import HackStack.Label.Registry

/-!
# The translation context

What the meaning of a command depends on besides the command itself: the scope it stands in, the
namespace of its static variables, and the registry of names.

A command that changes the context is a `HackStack.Lowering`. It may fault half way, and then what
it has changed stays changed: an ordinal that was taken is not taken twice.
-/

namespace HackStack

/-- The state of a translation that its commands see. -/
structure Context where
  registry : Registry := {}
  scope : Scope := .startUp
  /-- The namespace of static variables. There is none before the first file or function. -/
  statics : Option String := none

/-- A computation that reads and changes the context, and that may fault. -/
abbrev Lowering := Step Fault Context

namespace Context

/-! ### Reading the context -/

/-- The label of the source with this name in the current scope. -/
def userLabel (context : Context) (name : String) : Label := .user context.scope name

/-- The symbol of a static variable. -/
def staticSymbol (context : Context) (index : Nat) : Except Fault String :=
  match context.statics with
  | some space => .ok (space ++ "." ++ toString index)
  | none => .error (.misuse .staticWithoutNamespace)

/-! ### Changing the context -/

/-- Enter a new file, whose static variables live in `space`. -/
def beginFile (space : String) : Context → Context
  | ⟨registry, _, _⟩ => ⟨registry.resetCalls, .file space, some space⟩

/-- Do something with the registry. -/
def withRegistry {α : Type} (step : Step Fault Registry α) : Lowering α := fun
  | ⟨registry, scope, statics⟩ =>
    match step registry with
    | (result, registry) => (result, ⟨registry, scope, statics⟩)

/-- Declare a label, and answer with its name. -/
def declare (label : Label) : Lowering String := withRegistry (Registry.declare label)

/-- Declare a label of the source in the current scope. -/
def declareUser (name : String) : Lowering String :=
  Step.within fun context => declare (context.userLabel name)

/-- The return address of the next call in the current scope. -/
def nextReturn : Lowering Label :=
  Step.within fun context => withRegistry (Registry.nextReturn context.scope)

/-- The ordinal of the next comparison. -/
def nextComparison : Lowering Nat := withRegistry Registry.nextComparison

/-- The namespace of a function's static variables: its name before the first dot. -/
def functionSpace (name : String) : String :=
  String.ofList (name.toList.takeWhile (· ≠ '.'))

/-- Go on in the body of a function. -/
def enterBody (name : String) : Context → Context
  | ⟨registry, _, _⟩ => ⟨registry.resetCalls, .function name, some (functionSpace name)⟩

/-- Declare the entry of a function, and enter its body if the name was free. -/
def enterFunction (name : String) : Lowering String := do
  let label ← declare (.entry name)
  Step.change (enterBody name)
  return label

end Context

end HackStack
