import HackStack.CommandLine.Arguments
import HackStack.CommandLine.Disk
import HackStack.CommandLine.Path
import HackStack.CommandLine.Summary
import HackStack.Translation

/-!
# The command line

One run of the command line translates a file of commands, or all files of commands in a directory,
into one file of assembly. It goes through six stages, and the first that fails ends it:

1. find the sources – `HackStack.CommandLine.discover`;
2. name the output – `HackStack.CommandLine.outputPath`;
3. read all sources;
4. translate them;
5. write the output;
6. print the summary, if that is asked for – `HackStack.CommandLine.conclude`.

Nothing is written before the fifth stage, so a run that fails up to there leaves the disk as it
was. Only the sixth can fail when the output has been written.
-/

namespace HackStack

/-- Why a run of the command line fails. -/
inductive Trouble
  | missing (path : RawText)
  | notASource (path : RawText)
  | noSources (directory : RawText)
  | unlisted (directory : RawText) (why : DiskError)
  /-- The stem of a source is no text, so it cannot be a namespace. -/
  | invalidName
  /-- The directory of the sources has no name to call the output by. -/
  | namelessDirectory
  | unresolved (why : DiskError)
  | unreadable (path : RawText) (why : DiskError)
  | untranslatable (path : RawText) (why : Failure)
  | unwritable (path : RawText) (why : DiskError)
  /-- A path in the summary is no text. -/
  | unprintable
  deriving DecidableEq, Repr

namespace Trouble

/-- What went wrong. -/
def message : Trouble → String
  | missing path => s!"Source not found: {RawText.display path}"
  | notASource path => s!"Not a .vm file or directory: {RawText.display path}"
  | noSources directory => s!"No .vm files in {RawText.display directory}"
  | unlisted directory _ => s!"Failed to read directory {RawText.display directory}"
  | invalidName => "Invalid source filename"
  | namelessDirectory => "Cannot name output for this directory"
  | unresolved why => why.message
  | unreadable path _ => s!"Failed to read {RawText.display path}"
  | untranslatable path _ => s!"Failed to translate {RawText.display path}"
  | unwritable path _ => s!"Failed to write {RawText.display path}"
  | unprintable => "path contains invalid UTF-8 characters"

/-- What was behind it. -/
def cause? : Trouble → Option String
  | unlisted _ why | unreadable _ why | unwritable _ why => some why.message
  | untranslatable _ why => some why.message
  | missing _ | notASource _ | noSources _ | invalidName | namelessDirectory | unresolved _
  | unprintable => none

/-- A text with all its lines set in. -/
def indented (text : String) : String :=
  "\n".intercalate ((text.toList.splitOn '\n').map fun line => "    " ++ String.ofList line)

/-- The report of a failed run. -/
def report (trouble : Trouble) : String :=
  match trouble.cause? with
  | none => "Error: " ++ trouble.message ++ "\n"
  | some cause => "Error: " ++ trouble.message ++ "\n\nCaused by:\n" ++ indented cause ++ "\n"

end Trouble

/-- How a run of the command line ends. -/
structure Exit where
  code : Nat
  output : String := ""
  errors : String := ""
  deriving DecidableEq, Repr

namespace CommandLine

variable {m : Type → Type} [Monad m] [Disk m]

/-- A stage of a run. -/
abbrev Stage (m : Type → Type) := ExceptT Trouble m

/-- Ask the disk for something that it may fail to do. -/
def ask {α : Type} (trouble : DiskError → Trouble) (question : m (Except DiskError α)) :
    Stage m α := do
  match ← question with
  | .ok answer => return answer
  | .error why => throw (trouble why)

/-! ### Sources -/

/-- The extension of files of commands. -/
def sourceExtension : RawText := Text.raw "vm"

/-- The extension of files of assembly. -/
def outputExtension : RawText := Text.raw "asm"

/-- A file of commands, and the namespace that its static variables live in. -/
structure SourceFile where
  path : RawText
  space : String
  deriving DecidableEq, Repr

/-- The file of commands at a path. Its namespace is named like it, which takes a text. -/
def sourceFile (path : RawText) : Except Trouble SourceFile :=
  match (Path.stem? path).bind RawText.text? with
  | some space => .ok ⟨path, space⟩
  | none => .error .invalidName

/-- Whether a path leads to a file of commands. -/
def isSource (path : RawText) : m Bool := do
  return (← Disk.kind? path) = some .file ∧ Path.extension? path = some sourceExtension

/-- The paths among these that lead to files of commands. -/
def keepSources : List RawText → m (List RawText)
  | [] => return []
  | path :: rest => do
    if ← isSource path then
      return path :: (← keepSources rest)
    else keepSources rest

/-- The paths of the files of commands in a directory, by the order of their names. -/
def listSources (directory : RawText) : Stage m (List RawText) := do
  let names ← ask (.unlisted directory) (Disk.names directory)
  let names := names.mergeSort fun a b => a ≤ b
  match ← (keepSources (names.map (Path.join directory)) : m _) with
  | [] => throw (.noSources directory)
  | paths => return paths

/-- The paths of the files of commands that a path asks for: the one that it leads to, or those of
the directory that it leads to. -/
def findSources (path : RawText) : Stage m (List RawText) := do
  match ← (Disk.kind? path : m _) with
  | some .directory => listSources path
  | some _ => if ← (isSource path : m _) then return [path] else throw (.notASource path)
  | none => throw (.missing path)

/-- The files of commands that a path asks for. -/
def discover (path : RawText) : Stage m (List SourceFile) := do
  let paths ← findSources path
  MonadExcept.ofExcept (paths.mapM sourceFile)

/-! ### Output -/

/-- The name of a directory, if need be by where it lies. -/
def directoryName (directory : RawText) : Stage m RawText := do
  match Path.fileName? directory with
  | some name => return name
  | none =>
    let absolute ← ask .unresolved (Disk.canonical directory)
    match Path.fileName? absolute with
    | some name => return name
    | none => throw .namelessDirectory

/-- The name of the output in a directory with a name. It is a text, even if that name is none. -/
def outputName (name : RawText) : RawText :=
  Path.extended (Text.raw (RawText.display name)) outputExtension

/-- Where the output goes unless told otherwise: next to the file of commands, or into the directory
and named like it. -/
def defaultOutput (path : RawText) : Stage m RawText := do
  match ← (Disk.kind? path : m _) with
  | some .directory => return Path.join path (outputName (← directoryName path))
  | _ => return Path.withExtension path outputExtension

/-- Where the output goes. -/
def outputPath (arguments : Arguments) : Stage m RawText :=
  match arguments.output with
  | some path => return path
  | none => defaultOutput arguments.source

/-! ### One run -/

/-- Read a file of commands. -/
def readSource (file : SourceFile) : Stage m Source := do
  let bytes ← ask (.unreadable file.path) (Disk.read file.path)
  match String.fromUTF8? bytes with
  | some text => return ⟨RawText.display file.path, file.space, text⟩
  | none => throw (.unreadable file.path .invalidText)

/-- Read files of commands. -/
def readSources : List SourceFile → Stage m (List Source)
  | [] => return []
  | file :: rest => do
    let source ← readSource file
    return source :: (← readSources rest)

/-- What a translation is asked for. Unless told otherwise, a program of several files is started
up. -/
def options (arguments : Arguments) (files : List SourceFile) : Options where
  startUp := arguments.startUp.getD (1 < files.length)
  entry := arguments.entry
  stackBase := arguments.stackBase
  annotate := arguments.annotate

/-- Translate what the arguments ask for. -/
def run (arguments : Arguments) : Stage m Summary := do
  let files ← discover arguments.source
  let output ← outputPath arguments
  let sources ← readSources files
  let options := options arguments files
  match translate sources options with
  | .error why => throw (.untranslatable arguments.source why)
  | .ok translation =>
    ask (.unwritable output) (Disk.write output translation.text.toUTF8)
    return ⟨files.map SourceFile.path, output, options.startUp, translation.statistics⟩

/-! ### Requests -/

/-- What is printed when the version is asked for. -/
def version : String := "vmt 0.1.0\n"

/-- What is printed when help is asked for. -/
def help : String :=
  "Hack VM to Hack assembly translator\n\n" ++
  "Usage: vmt [OPTIONS] <SOURCE>\n\n" ++
  "Arguments:\n" ++
  "  <SOURCE>  A .vm file, or a directory of .vm files\n\n" ++
  "Options:\n" ++
  "  -o, --output <OUTPUT>          Output assembly file\n" ++
  "      --bootstrap                Always emit the bootstrap sequence\n" ++
  "      --no-bootstrap             Never emit the bootstrap sequence\n" ++
  "      --entry <ENTRY>            Function called by the bootstrap sequence\n" ++
  "      --stack-base <STACK_BASE>  Initial stack pointer\n" ++
  "      --annotate                 Emit each VM command as a comment before its code\n" ++
  "      --summary-json             Print a JSON summary of the run\n" ++
  "  -v, --verbose                  Accepted, without effect\n" ++
  "  -h, --help                     Print help\n" ++
  "  -V, --version                  Print version\n"

/-- Print a text on which nothing depends. -/
def tell (text : String) : m Exit := do
  match ← Disk.print text with
  | .ok () => return ⟨0, text, ""⟩
  | .error _ => return ⟨0, "", ""⟩

/-- The exit code of a program that gives up where it was not prepared to fail. -/
def panicCode : Nat := 101

/-- End a run that has written its output. If the summary is asked for, then it is put together and
printed only now. -/
def conclude (arguments : Arguments) (summary : Summary) : m Exit := do
  if arguments.summary then
    match summary.render? with
    | none => return ⟨1, "", Trouble.unprintable.report⟩
    | some text =>
      match ← Disk.print (text ++ "\n") with
      | .ok () => return ⟨0, text ++ "\n", ""⟩
      | .error why => return ⟨panicCode, "", s!"failed printing to stdout: {why.message}\n"⟩
  else return ⟨0, "", ""⟩

/-- How a translation ends. -/
def exitOf (arguments : Arguments) : Except Trouble Summary → m Exit
  | .ok summary => conclude arguments summary
  | .error trouble => return ⟨1, "", trouble.report⟩

/-- Do what the arguments ask for. -/
def perform (arguments : List RawText) : m Exit := do
  match Arguments.read arguments with
  | .error e => return ⟨2, "", "error: " ++ e.message ++ "\n"⟩
  | .ok .version => tell version
  | .ok .help => tell help
  | .ok (.translate arguments) => exitOf arguments (← (run arguments : Stage m Summary).run)

end CommandLine

end HackStack
