import HackStack.Session

/-!
# Translating a program

A program is a list of sources. Its translation is the code of all of them, in order, behind the
code that starts the program up; the first failure is all that is left of a program that has one.
-/

namespace HackStack

open Assembly

/-- The code of a program, and what was counted while it was made. -/
structure Translation where
  code : Array Statement
  statistics : Statistics

/-- The text of a translation. -/
def Translation.text (translation : Translation) : String := listing translation.code.toList

/-- The session that has translated a program. -/
def Session.ofSources (sources : List Source) (options : Options) :
    Except Failure (Session (Array Statement)) := do
  match Session.sources sources (← Session.start #[] options) with
  | (.ok (), session) => return session
  | (.error e, _) => throw e

/-- Translate a program. -/
def translate (sources : List Source) (options : Options) : Except Failure Translation := do
  let session ← Session.ofSources sources options
  return ⟨session.sink, session.statistics⟩

end HackStack
