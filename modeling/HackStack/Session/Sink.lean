import HackStack.Assembly.Statement
import HackStack.Step

/-!
# Sinks

A session hands its statements to a sink, one after the other, and never takes one back. A sink may
refuse a statement; what it has stored until then – even a part of the refused one – it keeps.

A sink refuses with a text, which becomes a `HackStack.Failure.output`. Both sinks here fail in this
way only. A sink that answers with a fault of its own, as if a command were wrong, is not covered:
with it, a fault would not say that nothing was written.

* An array of statements is a sink that never refuses.
* A `HackStack.ByteStore` is a sink for text. It takes bytes until its capacity is reached, keeps
  the part of a line that fits, and counts the lines that it holds whole.
-/

namespace HackStack

open Assembly

/-- Where a session puts its statements. -/
class Sink (σ : Type) where
  /-- Store one statement, or say why not: the text of a `HackStack.Failure.output`. -/
  write : Statement → Step String σ Unit

/-- Store statements until one is refused. -/
def Sink.writeAll {σ : Type} [Sink σ] : List Statement → Step String σ Unit
  | [] => return ()
  | statement :: rest => do
    write statement
    writeAll rest

/-- Statements are stored as they are. -/
instance : Sink (Array Statement) where
  write statement := Step.change fun stored => stored.push statement

/-- A store of bytes that may be bounded, and whose flushing may fail. -/
structure ByteStore where
  /-- The number of bytes that fit, if there is a limit. -/
  capacity : Option Nat := none
  /-- Whether flushing fails. -/
  flushFails : Bool := false
  /-- The bytes stored. -/
  bytes : ByteArray := .empty
  /-- The number of lines stored whole. -/
  lines : Nat := 0

namespace ByteStore

/-- The number of the next `wanted` bytes for which there is room. -/
def room (store : ByteStore) (wanted : Nat) : Nat :=
  match store.capacity with
  | none => wanted
  | some capacity => min wanted (capacity - store.bytes.size)

/-- Store a line, or the part of it that fits. -/
def writeLine (line : ByteArray) : Step String ByteStore Unit := fun store =>
  let room := store.room line.size
  match store with
  | ⟨capacity, flushFails, bytes, lines⟩ =>
    if room = line.size then (.ok (), ⟨capacity, flushFails, bytes ++ line, lines + 1⟩)
    else (.error "disk full", ⟨capacity, flushFails, bytes ++ line.extract 0 room, lines⟩)

/-- Statements are stored as lines of text. -/
instance : Sink ByteStore where
  write statement := writeLine statement.line.toUTF8

/-- Flush the store and hand out its bytes. -/
def finish (store : ByteStore) : Except String ByteArray :=
  if store.flushFails then .error "flush failed" else .ok store.bytes

end ByteStore

end HackStack
