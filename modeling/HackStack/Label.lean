/-!
# Labels

Every label of a translated program is a value of `HackStack.Label` before it is a name. Its name is
built from the scope it belongs to, so that equal labels of different functions have different
names:

* the entry of a function is named like the function;
* a label of the source and a return address are named after their scope, with a `$` between;
* the two labels of a comparison are numbered through the whole program.
-/

namespace HackStack

/-- The part of a program that labels and return addresses belong to. -/
inductive Scope
  /-- The code before the first file. -/
  | startUp
  /-- The commands of a file before its first function. -/
  | file (name : String)
  /-- The body of a function. -/
  | function (name : String)
  deriving DecidableEq, Repr

namespace Scope

/-- What stands before the `$` in the names of the scope's labels. -/
def qualifier : Scope → String
  | startUp => ""
  | file name | function name => name

/-- The function whose body the scope is. -/
def function? : Scope → Option String
  | function name => some name
  | startUp | file _ => none

end Scope

/-- The two labels of a comparison. -/
inductive Branch
  /-- Where the comparison writes that it holds. -/
  | holds
  /-- Where both outcomes meet. -/
  | done
  deriving DecidableEq, Repr

/-- The last part of the name of a comparison's label. -/
def Branch.suffix : Branch → String
  | .holds => "TRUE"
  | .done => "END"

/-- A label of a translated program. -/
inductive Label
  /-- The entry of a function. -/
  | entry (function : String)
  /-- A label of the source. -/
  | user (scope : Scope) (name : String)
  /-- The return address of a call. -/
  | returnTo (scope : Scope) (ordinal : Nat)
  /-- A label inside the code of a comparison. -/
  | compare (ordinal : Nat) (branch : Branch)
  deriving DecidableEq, Repr

/-- The name of a label. -/
def Label.render : Label → String
  | entry function => function
  | user scope name => scope.qualifier ++ "$" ++ name
  | returnTo scope ordinal => scope.qualifier ++ "$ret." ++ toString ordinal
  | compare ordinal branch => "CMP." ++ toString ordinal ++ "." ++ branch.suffix

end HackStack
