import HackStack.Text.Raw

/-!
# Paths

A path is a raw text whose pieces are separated by `/`. Empty pieces and `.` at its end do not
change what it names, so the last piece before them is its file name – unless that is `..`, which
names a directory by where it lies.

The operations are on the bytes alone. They keep the spelling of a path as far as they can, since
paths appear in messages.
-/

namespace HackStack.Path

/-- The byte of `/`. -/
def separator : UInt8 := 47

/-- The byte of `.`. -/
def dot : UInt8 := 46

/-- The piece that leads to the directory above. -/
def parent : RawText := [dot, dot]

/-- What stands between the separators. -/
def pieces (path : RawText) : List RawText := path.splitOn separator

/-- Whether a path starts at the root. -/
def isAbsolute (path : RawText) : Bool := path.head? = some separator

/-- Whether a path ends with a separator. -/
def endsOpen (path : RawText) : Bool := path.getLast? = some separator

/-- Whether a piece stays where it is. -/
def staysPut (piece : RawText) : Bool := piece = [] || piece = [dot]

/-- The pieces up to the one that names the file. -/
def namingPieces (path : RawText) : List RawText :=
  ((pieces path).reverse.dropWhile staysPut).reverse

/-- The name of the file that a path leads to. -/
def fileName? (path : RawText) : Option RawText :=
  (namingPieces path).getLast?.filter (· ≠ parent)

/-- A stem with an extension behind a dot. -/
def extended (stem extension : RawText) : RawText := stem ++ dot :: extension

/-- A file name before its last dot, and its extension behind it. The dot that starts a name starts
no extension. -/
def splitName (name : RawText) : RawText × Option RawText :=
  match name.reverse.dropWhile (· ≠ dot) with
  | [] | [_] => (name, none)
  | _ :: stem => (stem.reverse, some (name.reverse.takeWhile (· ≠ dot)).reverse)

/-- The file name of a path without its extension. -/
def stem? (path : RawText) : Option RawText := (fileName? path).map fun name => (splitName name).1

/-- The extension of a path. -/
def extension? (path : RawText) : Option RawText :=
  (fileName? path).bind fun name => (splitName name).2

/-- A file name with another extension. The old one is cut off behind its dot first. What is left is
then no file name if it is `..`, and takes no extension. -/
def withNameExtension (name extension : RawText) : RawText :=
  match splitName name with
  | (stem, old) => if stem = [dot] ∧ old.isSome then parent else extended stem extension

/-- The path with another extension. -/
def withExtension (path extension : RawText) : RawText :=
  match fileName? path with
  | some name =>
    [separator].intercalate ((namingPieces path).dropLast ++ [withNameExtension name extension])
  | none => path

/-- The path of a file in a directory. -/
def join (directory name : RawText) : RawText :=
  if directory = [] ∨ endsOpen directory then directory ++ name
  else directory ++ separator :: name

end HackStack.Path
