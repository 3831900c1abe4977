/-!
# Locations in a source

A source is line oriented, so a location is a file and a line. Line 0 stands for the file as a
whole, and `HackStack.Location.unknown` for no place at all. The line is a natural number; it fits
in 32 bits in every source of fewer than `2 ^ 32` lines.
-/

namespace HackStack

/-- A line of a file, counted from one; line 0 is the file as a whole. -/
structure Location where
  file : String
  line : Nat
  deriving DecidableEq, Repr

namespace Location

/-- The location of what has not been read from any file. -/
def unknown : Location := ⟨"<unknown>", 0⟩

instance : Inhabited Location := ⟨unknown⟩

/-- Whether a location says nothing. -/
def isUnknown (l : Location) : Bool := l = unknown

/-- Another line of the same file. -/
def withLine (l : Location) (line : Nat) : Location := { l with line }

/-- The file, followed by the line unless the file as a whole is meant. -/
def render (l : Location) : String :=
  if l.line = 0 then l.file else l.file ++ ":" ++ toString l.line

end Location

end HackStack
