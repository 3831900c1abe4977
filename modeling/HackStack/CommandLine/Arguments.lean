import HackStack.MemoryMap
import HackStack.Text.Decimal
import HackStack.Text.Raw

/-!
# Arguments

The arguments of the command line are options and one source, in any order. A flag stands alone, and
a setting takes a value: the next argument, or what follows `=` in the same argument. Short options
may be written together behind one dash, and the first setting among them takes the rest as its
value. Behind `--` nothing is an option any more. A path may be any bytes, and every other value has
to be a text.

Arguments are read from left to right up to the first that is wrong or that asks for something other
than a translation. What the arguments mean together is looked at in the end.
-/

namespace HackStack

/-- An option without a value. -/
inductive Flag
  | startUp | noStartUp | annotate | summary | verbose | help | version
  deriving DecidableEq, Repr

/-- An option with a value. -/
inductive Setting
  | output | entry | stackBase
  deriving DecidableEq, Repr

/-- An option. -/
inductive Switch
  | flag (flag : Flag)
  | setting (setting : Setting)
  deriving DecidableEq, Repr

/-- The option with a long name. -/
def Switch.ofName? : String → Option Switch
  | "bootstrap" => some (.flag .startUp)
  | "no-bootstrap" => some (.flag .noStartUp)
  | "annotate" => some (.flag .annotate)
  | "summary-json" => some (.flag .summary)
  | "verbose" => some (.flag .verbose)
  | "help" => some (.flag .help)
  | "version" => some (.flag .version)
  | "output" => some (.setting .output)
  | "entry" => some (.setting .entry)
  | "stack-base" => some (.setting .stackBase)
  | _ => none

/-- The option with a short name. -/
def Switch.ofLetter? : Char → Option Switch
  | 'o' => some (.setting .output)
  | 'v' => some (.flag .verbose)
  | 'h' => some (.flag .help)
  | 'V' => some (.flag .version)
  | _ => none

/-- What is wrong with the arguments. -/
inductive UsageError
  | unknownOption (argument : RawText)
  | repeated (argument : RawText)
  | missingValue (argument : RawText)
  | unexpectedValue (argument : RawText)
  | invalidValue (value : RawText)
  | extraArgument (argument : RawText)
  | missingSource
  /-- The code before the first file is both asked for and ruled out. -/
  | conflict
  deriving DecidableEq, Repr

/-- The wording of a usage error. -/
def UsageError.message : UsageError → String
  | unknownOption argument => s!"unknown option '{RawText.display argument}'"
  | repeated argument => s!"option given twice: '{RawText.display argument}'"
  | missingValue argument => s!"option without its value: '{RawText.display argument}'"
  | unexpectedValue argument => s!"option that takes no value: '{RawText.display argument}'"
  | invalidValue value => s!"invalid value '{RawText.display value}'"
  | extraArgument argument => s!"unexpected argument '{RawText.display argument}'"
  | missingSource => "no source given"
  | conflict => "--bootstrap and --no-bootstrap exclude each other"

/-- The arguments of a translation. -/
structure Arguments where
  source : RawText
  output : Option RawText
  /-- Whether to start the program up, if that is said. -/
  startUp : Option Bool
  entry : String
  stackBase : Nat
  annotate : Bool
  summary : Bool
  deriving DecidableEq, Repr

/-- What the arguments ask for. -/
inductive Request
  | translate (arguments : Arguments)
  | help
  | version
  deriving DecidableEq, Repr

namespace Arguments

/-- What has been read from the arguments. -/
structure Draft where
  source : Option RawText := none
  flags : List Flag := []
  output : Option RawText := none
  entry : Option String := none
  stackBase : Option Nat := none

/-- The number that digits denote, if there are any. -/
def readDigits? (limit : Nat) (digits : List Char) : Option Nat :=
  if digits ≠ [] ∧ digits.all Char.isDigit then Text.decimal? limit digits else none

/-- A signed number that is a word without its sign. -/
def readStackBase? (text : String) : Option Nat :=
  match text.toList with
  | '+' :: digits => readDigits? 65535 digits
  | '-' :: digits => readDigits? 0 digits
  | digits => readDigits? 65535 digits

/-- A path that is not empty. -/
def readPath? (value : RawText) : Option RawText := if value = [] then none else some value

namespace Draft

/-- Give a part its value, which it may be given once only. -/
def once {α : Type} (argument value : RawText) (old : Option α) (new : Option α) :
    Except UsageError (Option α) :=
  match new with
  | none => .error (.invalidValue value)
  | some new => if old.isSome then .error (.repeated argument) else .ok (some new)

/-- Read a flag. -/
def addFlag (draft : Draft) (argument : RawText) (flag : Flag) : Except UsageError Draft :=
  if flag ∈ draft.flags then .error (.repeated argument)
  else .ok { draft with flags := flag :: draft.flags }

/-- Read a setting. -/
def addSetting (draft : Draft) (argument : RawText) (setting : Setting) (value : RawText) :
    Except UsageError Draft :=
  match setting with
  | .output => return { draft with
      output := ← once argument value draft.output (readPath? value) }
  | .entry => return { draft with
      entry := ← once argument value draft.entry (RawText.text? value) }
  | .stackBase => return { draft with
      stackBase := ← once argument value draft.stackBase
        ((RawText.text? value).bind readStackBase?) }

/-- Read the source. -/
def addSource (draft : Draft) (argument : RawText) : Except UsageError Draft :=
  if draft.source.isSome then .error (.extraArgument argument)
  else return { draft with source := ← once argument argument draft.source (readPath? argument) }

/-- What the arguments mean together. -/
def complete (draft : Draft) : Except UsageError Request :=
  let has (flag : Flag) : Bool := flag ∈ draft.flags
  if has .startUp && has .noStartUp then .error .conflict
  else
    match draft.source with
    | none => .error .missingSource
    | some source => .ok (.translate {
        source
        output := draft.output
        startUp :=
          if has .startUp then some true else if has .noStartUp then some false else none
        entry := draft.entry.getD MemoryMap.defaultEntry
        stackBase := draft.stackBase.getD MemoryMap.stackBase
        annotate := has .annotate
        summary := has .summary })

end Draft

/-! ### Single arguments -/

/-- Where reading stands after an argument. -/
inductive Progress
  /-- The next argument stands for itself. -/
  | free (draft : Draft)
  /-- The next argument is the value of a setting. -/
  | waiting (draft : Draft) (setting : Setting)
  /-- Something other than a translation is asked for. -/
  | settled (request : Request)

/-- The byte of `-`. -/
@[match_pattern] def dash : UInt8 := 45

/-- The byte of `=`. -/
@[match_pattern] def equals : UInt8 := 61

/-- Read a flag that stands alone. -/
def readFlag (draft : Draft) (argument : RawText) : Flag → Except UsageError Progress
  | .help => .ok (.settled .help)
  | .version => .ok (.settled .version)
  | flag => return .free (← draft.addFlag argument flag)

/-- Read a long option, without its dashes. -/
def readLong (draft : Draft) (argument : RawText) (bytes : RawText) : Except UsageError Progress :=
  let name := bytes.takeWhile (· ≠ equals)
  match (RawText.text? name).bind Switch.ofName?, bytes.dropWhile (· ≠ equals) with
  | none, _ => .error (.unknownOption argument)
  | some (.flag flag), [] => readFlag draft argument flag
  | some (.flag _), _ :: _ => .error (.unexpectedValue argument)
  | some (.setting setting), [] => .ok (.waiting draft setting)
  | some (.setting setting), _ :: value => return .free (← draft.addSetting argument setting value)

/-- The value that is written together with a short setting, without the `=` before it. -/
def attachedValue : RawText → RawText
  | equals :: value => value
  | value => value

/-- Read short options, without their dash. -/
def readShort (argument : RawText) : RawText → Draft → Except UsageError Progress
  | [], draft => .ok (.free draft)
  | letter :: rest, draft =>
    match Switch.ofLetter? (Char.ofUInt8 letter) with
    | none => .error (.unknownOption argument)
    | some (.flag flag) => do
      match ← readFlag draft argument flag with
      | .free draft => readShort argument rest draft
      | other => return other
    | some (.setting setting) =>
      if rest = [] then .ok (.waiting draft setting)
      else return .free (← draft.addSetting argument setting (attachedValue rest))

/-- Read an argument that is not a value. -/
def readArgument (draft : Draft) (argument : RawText) : Except UsageError Progress :=
  match argument with
  | dash :: dash :: bytes => readLong draft argument bytes
  | dash :: letter :: rest => readShort argument (letter :: rest) draft
  | _ => return .free (← draft.addSource argument)

/-- Whether an argument can only be an option. A single dash is a name like any other. -/
def isOption (argument : RawText) : Bool :=
  match argument with
  | dash :: _ :: _ => true
  | _ => false

/-! ### All arguments -/

/-- Read arguments none of which is an option. -/
def readNames (names : List RawText) (draft : Draft) : Except UsageError Request := do
  let draft ← names.foldlM Draft.addSource draft
  draft.complete

/-- Read arguments up to the one that settles what is asked for. -/
def readAll : List RawText → Draft → Except UsageError Request
  | [], draft => draft.complete
  | [dash, dash] :: names, draft => readNames names draft
  | argument :: rest, draft => do
    match ← readArgument draft argument with
    | .settled request => return request
    | .free draft => readAll rest draft
    | .waiting draft setting =>
      match rest with
      | [] => throw (.missingValue argument)
      | value :: rest =>
        if isOption value then throw (.missingValue argument)
        else readAll rest (← draft.addSetting argument setting value)

/-- What the arguments ask for. -/
def read (arguments : List RawText) : Except UsageError Request := readAll arguments {}

end Arguments

end HackStack
