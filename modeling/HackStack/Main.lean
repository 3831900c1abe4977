import HackStack.CommandLine

/-!
# The program

The command line on the disk of the computer. This is the only module that performs effects; what
they are for is decided by `HackStack.CommandLine.perform`.
-/

namespace HackStack.Main

/-- The error of a disk that the system reports. -/
def diskError : IO.Error → DiskError
  | .noFileOrDirectory _ _ _ => .notFound
  | .inappropriateType _ 20 _ => .notADirectory
  | .inappropriateType _ 21 _ => .isADirectory
  | .invalidArgument _ 36 _ => .nameTooLong
  | .resourceExhausted _ 28 _ => .noSpace
  | .permissionDenied _ _ _ => .other "Permission denied (os error 13)"
  | e => .other (toString e)

/-- Ask the system for something that it may fail to do. -/
def ask {α : Type} (question : IO α) : IO (Except DiskError α) := do
  match ← question.toBaseIO with
  | .ok answer => return .ok answer
  | .error e => return .error (diskError e)

/-- The path as the system is told it, which can be told texts only. -/
def named (path : RawText) : IO String :=
  match RawText.text? path with
  | some name => return name
  | none => throw (IO.userError "the path is no text")

/-- The disk of the computer. -/
instance : Disk IO where
  kind? path := do
    match ← ask (do (← IO.FS.realPath (← named path)).metadata) with
    | .ok data =>
      match data.type with
      | .file => return some .file
      | .dir => return some .directory
      | _ => return some .other
    | .error _ => return none
  names directory := ask do
    let entries ← (← IO.FS.realPath (← named directory)).readDir
    return entries.toList.map fun entry => Text.raw entry.fileName
  canonical path := ask do
    return Text.raw (← IO.FS.realPath (← named path)).toString
  read path := ask do IO.FS.readBinFile (← named path)
  write path bytes := ask do IO.FS.writeBinFile (← named path) bytes
  print text := ask do
    let output ← IO.getStdout
    output.putStr text
    output.flush

end HackStack.Main

/-- Run the command line. -/
def main (arguments : List String) : IO UInt32 := do
  let exit ← HackStack.CommandLine.perform (m := IO) (arguments.map HackStack.Text.raw)
  IO.eprint exit.errors
  return exit.code.toUInt32
