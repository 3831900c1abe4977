import HackStack.Text.Raw

/-!
# Disks

What the command line asks of a disk, and of the standard output, which may be a file on a disk like
any other. All its decisions are made over this interface, so they are the same on a computer and on
a `HackStack.FileTree`, about which one can reason.
-/

namespace HackStack

/-- Why a file cannot be read or written. -/
inductive DiskError
  | notFound
  | notADirectory
  | isADirectory
  | nameTooLong
  | noSpace
  /-- The bytes of the file are no text. -/
  | invalidText
  /-- A reason in words of the system. -/
  | other (text : String)
  deriving DecidableEq, Repr

/-- The wording of a disk's error. -/
def DiskError.message : DiskError → String
  | notFound => "No such file or directory (os error 2)"
  | notADirectory => "Not a directory (os error 20)"
  | isADirectory => "Is a directory (os error 21)"
  | nameTooLong => "File name too long (os error 36)"
  | noSpace => "No space left on device (os error 28)"
  | invalidText => "stream did not contain valid UTF-8"
  | other text => text

/-- What a path can lead to. -/
inductive FileKind
  | file
  | directory
  | other
  deriving DecidableEq, Repr

/-- What the command line asks of a disk. -/
class Disk (m : Type → Type) where
  /-- What the path leads to, if it leads anywhere. -/
  kind? (path : RawText) : m (Option FileKind)
  /-- The names in a directory, in any order. -/
  names (directory : RawText) : m (Except DiskError (List RawText))
  /-- The path from the root to what a path leads to. -/
  canonical (path : RawText) : m (Except DiskError RawText)
  /-- The bytes of a file. -/
  read (path : RawText) : m (Except DiskError ByteArray)
  /-- Create or replace a file. -/
  write (path : RawText) (bytes : ByteArray) : m (Except DiskError Unit)
  /-- Write a text to the standard output. -/
  print (text : String) : m (Except DiskError Unit)

end HackStack
