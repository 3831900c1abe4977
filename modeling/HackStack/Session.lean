import HackStack.Block.Access
import HackStack.Block.Flow
import HackStack.Block.Frame
import HackStack.Block.Operation
import HackStack.Command.Reader
import HackStack.Session.Sink
import HackStack.Text.Line

/-!
# Translation sessions

A session turns commands into statements, one command at a time: it finds the code of the command in
the current context, hands it to its sink, and keeps count. Each of the steps

* `HackStack.Session.beginFile`,
* `HackStack.Session.command` – a command that has been read,
* `HackStack.Session.line` – a command that is to be read,
* `HackStack.Session.source` – a whole file,

is a `HackStack.SessionStep`: it may fail, and a session that has failed stays what it had become.
Nothing is rolled back, so one may look at it, and even go on.

With annotation, the code of a command follows a comment with the command's written form.
-/

namespace HackStack

open Assembly

/-- What a translation can be asked for. -/
structure Options where
  /-- Set up the stack and call the entry function before the first file. -/
  startUp : Bool := false
  /-- The function that a program starts with. -/
  entry : String := MemoryMap.defaultEntry
  /-- Where the stack starts. -/
  stackBase : Nat := MemoryMap.stackBase
  /-- Write each command as a comment ahead of its code. -/
  annotate : Bool := false
  deriving DecidableEq, Repr

/-- What a session counts. -/
structure Statistics where
  files : Nat := 0
  commands : Nat := 0
  /-- Statements that take a slot of the instruction memory. -/
  instructions : Nat := 0
  functions : Nat := 0
  calls : Nat := 0
  comparisons : Nat := 0
  deriving DecidableEq, Repr

/-- A source: its name in messages, the namespace of its static variables, and its text. -/
structure Source where
  file : String
  space : String
  text : String
  deriving DecidableEq, Repr

/-- The state of a translation. -/
structure Session (σ : Type) where
  sink : σ
  options : Options
  context : Context := {}
  statistics : Statistics := {}
  /-- Where the command stands that is being translated. -/
  location : Location := .unknown

/-- A step of a session, which may fail and leave the session changed. -/
abbrev SessionStep (σ : Type) := Step Failure (Session σ)

/-- The kinds of command that are counted before their code is found. -/
def Statistics.countKind (statistics : Statistics) : Command → Statistics
  | .operate (.comparison _) => { statistics with comparisons := statistics.comparisons + 1 }
  | .function _ _ => { statistics with functions := statistics.functions + 1 }
  | .call _ _ => { statistics with calls := statistics.calls + 1 }
  | _ => statistics

namespace Block

/-- The code of a command. -/
def ofCommand : Command → Lowering Block
  | .push segment index => Step.inspect fun context => push context segment index
  | .pop segment index => Step.inspect fun context => pop context segment index
  | .operate op => operate op
  | .label name => place name
  | .goto target => Step.inspect fun context => .ok (goto context target)
  | .ifGoto target => Step.inspect fun context => .ok (ifGoto context target)
  | .function name locals => function name locals
  | .call name arguments => call name arguments
  | .ret => Step.inspect ret

end Block

namespace Session

variable {σ : Type}

/-! ### Parts of a step -/

/-- Change what the session has counted. -/
def count (change : Statistics → Statistics) : SessionStep σ Unit :=
  Step.change fun session => { session with statistics := change session.statistics }

/-- Go to another line of the file. -/
def moveTo (number : Nat) : SessionStep σ Unit :=
  Step.change fun session => { session with location := session.location.withLine number }

/-- Find code in the session's context. A fault arises where the session stands. -/
def lower {α : Type} (lowering : Lowering α) : SessionStep σ α := fun
  | ⟨sink, options, context, statistics, location⟩ =>
    match lowering context with
    | (.ok result, context) => (.ok result, ⟨sink, options, context, statistics, location⟩)
    | (.error why, context) =>
      (.error ((Failure.ofFault why).locate location),
        ⟨sink, options, context, statistics, location⟩)

/-- Hand statements to the sink. -/
def write [Sink σ] (statements : List Statement) : SessionStep σ Unit := fun
  | ⟨sink, options, context, statistics, location⟩ =>
    match Sink.writeAll statements sink with
    | (.ok (), sink) => (.ok (), ⟨sink, options, context, statistics, location⟩)
    | (.error detail, sink) =>
      (.error (.output detail), ⟨sink, options, context, statistics, location⟩)

/-- Write a comment if the session annotates. -/
def annotate [Sink σ] (text : String) : SessionStep σ Unit :=
  Step.within fun session => write (if session.options.annotate then [.comment text] else [])

/-- Write code and, once it is written whole, count its instructions. -/
def emit [Sink σ] (block : Block) : SessionStep σ Unit := do
  write block
  count fun statistics => { statistics with
    instructions := statistics.instructions + block.countP Statement.isInstruction }

/-! ### Steps -/

/-- Enter a file, whose static variables live in `space`. -/
def beginFile (file space : String) : SessionStep σ Unit :=
  Step.change fun session => { session with
    context := session.context.beginFile space
    statistics := { session.statistics with files := session.statistics.files + 1 }
    location := ⟨file, 0⟩ }

/-- Translate a command. -/
def command [Sink σ] (command : Command) : SessionStep σ Unit := do
  count fun statistics => statistics.countKind command
  let block ← lower (Block.ofCommand command)
  annotate command.render
  emit block
  count fun statistics => { statistics with commands := statistics.commands + 1 }

/-- Read the command on a line that holds no comment, and translate it. -/
def line [Sink σ] (number : Nat) (text : String) : SessionStep σ Unit := do
  moveTo number
  command (← lower (Step.inspect fun _ => Command.read text))

/-- Translate numbered lines up to the first failure. -/
def lines [Sink σ] : List (Nat × String) → SessionStep σ Unit
  | [] => return ()
  | (number, text) :: rest => do
    line number text
    lines rest

/-- Translate a file. -/
def source [Sink σ] (source : Source) : SessionStep σ Unit := do
  beginFile source.file source.space
  lines (Text.codeLines source.text)

/-- Translate files up to the first failure. -/
def sources [Sink σ] : List Source → SessionStep σ Unit
  | [] => return ()
  | first :: rest => do
    source first
    sources rest

/-! ### Starting -/

/-- Write the code before the first file, which makes one call. -/
def startUp [Sink σ] (stackBase : Nat) (entry : String) : SessionStep σ Unit := do
  let block ← lower (Block.startUp stackBase entry)
  annotate "bootstrap"
  emit block
  count fun statistics => { statistics with calls := statistics.calls + 1 }

/-- Write the code before the first file if it is asked for. -/
def prologue [Sink σ] : SessionStep σ Unit :=
  Step.within fun session =>
    let options := session.options
    if options.startUp then startUp options.stackBase options.entry else return ()

/-- A session that has written the code before the first file. -/
def start [Sink σ] (sink : σ) (options : Options) : Except Failure (Session σ) :=
  match prologue { sink, options } with
  | (.ok (), session) => .ok session
  | (.error e, _) => .error e

end Session

end HackStack
