import HackStack.CommandLine.Disk
import HackStack.CommandLine.Path

/-!
# File trees

A file tree is a disk given as a value: the files and directories by their places, the directory
from which paths start, and whether anything can be printed. It is a `HackStack.Disk` through
`StateM`.

A path is followed piece by piece. Every piece but the last has to lead to a directory, and so has
the last when a separator follows it; only the place where a file is to be created may be empty. A
write that fails leaves the tree as it was.
-/

namespace HackStack

/-- The names from the root down. -/
abbrev Place := List RawText

/-- What lies at a place. -/
inductive Entry
  | file (bytes : ByteArray)
  | directory

/-- What kind of file an entry is. -/
def Entry.kind : Entry → FileKind
  | file _ => .file
  | directory => .directory

/-- Files and directories by their places. -/
structure FileTree where
  entries : List (Place × Entry)
  /-- Where paths start that do not start at the root. -/
  workingDirectory : Place
  /-- Why the standard output takes no text, if it takes none. -/
  refusal : Option DiskError := none

namespace FileTree

/-- The longest name of a file, in bytes. -/
def maxName : Nat := 255

/-- The longest path that can be followed, in bytes. -/
def maxPath : Nat := 4095

/-- What lies at a place. The root is always a directory. -/
def find? (tree : FileTree) (place : Place) : Option Entry :=
  if place = [] then some .directory else tree.entries.lookup place

/-- Follow one piece of a path. -/
def enter (tree : FileTree) (here : Place) (piece : RawText) : Except DiskError Place :=
  match tree.find? here with
  | none => .error .notFound
  | some (.file _) => .error .notADirectory
  | some .directory =>
    if Path.staysPut piece then .ok here
    else if piece = Path.parent then .ok here.dropLast
    else if piece.length > maxName then .error .nameTooLong
    else .ok (here ++ [piece])

/-- Follow pieces of a path from where it starts. -/
def follow (tree : FileTree) (path : RawText) (pieces : List RawText) : Except DiskError Place :=
  if path = [] then .error .notFound
  else if path.length > maxPath then .error .nameTooLong
  else
    let start := if Path.isAbsolute path then [] else tree.workingDirectory
    pieces.foldlM tree.enter start

/-- What a path leads to, and where that lies. -/
def resolve (tree : FileTree) (path : RawText) : Except DiskError (Place × Entry) := do
  let place ← tree.follow path (Path.pieces path)
  match tree.find? place with
  | some entry => return (place, entry)
  | none => throw .notFound

/-- Where a file is to be created or replaced. A path that ends with a separator asks for a
directory, and its last name is not looked at. -/
def resolveTarget (tree : FileTree) (path : RawText) : Except DiskError Place := do
  let pieces := ((Path.pieces path).reverse.dropWhile (· = [])).reverse
  let parent ← tree.follow path pieces.dropLast
  let last := if Path.endsOpen path then [Path.dot] else pieces.getLast?.getD []
  let place ← tree.enter parent last
  if Path.staysPut last ∨ last = Path.parent then
    throw .isADirectory
  match tree.find? place with
  | some .directory => throw .isADirectory
  | some (.file _) | none => return place

/-- The tree with an entry at a place. -/
def put (tree : FileTree) (place : Place) (entry : Entry) : FileTree :=
  { tree with entries := (place, entry) :: tree.entries.filter (·.1 ≠ place) }

/-- The names in the directory at a place. -/
def namesAt (tree : FileTree) (place : Place) : List RawText :=
  tree.entries.filterMap fun (inner, _) =>
    if inner.dropLast = place then inner.getLast? else none

/-! ### As a disk -/

/-- What a path leads to, if it leads anywhere. -/
def kind? (tree : FileTree) (path : RawText) : Option FileKind :=
  match tree.resolve path with
  | .ok (_, entry) => some entry.kind
  | .error _ => none

/-- The names in a directory. -/
def names (tree : FileTree) (directory : RawText) : Except DiskError (List RawText) := do
  match ← tree.resolve directory with
  | (place, .directory) => return tree.namesAt place
  | (_, .file _) => throw .notADirectory

/-- The path from the root to what a path leads to. -/
def canonical (tree : FileTree) (path : RawText) : Except DiskError RawText := do
  let (place, _) ← tree.resolve path
  return Path.separator :: [Path.separator].intercalate place

/-- The bytes of a file. -/
def read (tree : FileTree) (path : RawText) : Except DiskError ByteArray := do
  match ← tree.resolve path with
  | (_, .file bytes) => return bytes
  | (_, .directory) => throw .isADirectory

/-- Create or replace a file. -/
def write (path : RawText) (bytes : ByteArray) (tree : FileTree) :
    Except DiskError Unit × FileTree :=
  match tree.resolveTarget path with
  | .ok place => (.ok (), tree.put place (.file bytes))
  | .error e => (.error e, tree)

/-- A file tree is a disk whose state a run changes. -/
instance : Disk (StateM FileTree) where
  kind? path := return (← get).kind? path
  names directory := return (← get).names directory
  canonical path := return (← get).canonical path
  read path := return (← get).read path
  write path bytes := write path bytes
  print _ := return match (← get).refusal with
    | none => .ok ()
    | some why => .error why

end FileTree

end HackStack
