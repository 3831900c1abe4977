import HackStack.Json
import HackStack.Session
import HackStack.Text.Raw

/-!
# Summaries

After a translation the command line can print what it has read and written and what was counted, as
an object of JSON with one field on a line. JSON is text, so a path that is none cannot be part of
it.
-/

namespace HackStack

/-- What a run of the command line has done. -/
structure Summary where
  inputs : List RawText
  output : RawText
  startUp : Bool
  statistics : Statistics
  deriving DecidableEq, Repr

/-- The text of a summary, if its paths are texts. -/
def Summary.render? (summary : Summary) : Option String := do
  let inputs ← summary.inputs.mapM RawText.text?
  let output ← RawText.text? summary.output
  let counted := summary.statistics
  return Json.object
    [("inputs", Json.list "  " (inputs.map Json.quote)),
     ("output", Json.quote output),
     ("bootstrap", if summary.startUp then "true" else "false"),
     ("files", toString counted.files),
     ("commands", toString counted.commands),
     ("instructions", toString counted.instructions),
     ("functions", toString counted.functions),
     ("calls", toString counted.calls),
     ("comparisons", toString counted.comparisons)]

end HackStack
