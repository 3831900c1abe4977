import HackStack.Session

/-!
# What stands before a line

What the code of a command looks like depends on what stands before it: on the scope and the
namespace that it stands in, on the number of calls in that scope and on the number of comparisons
in the program. This file says what these are without any regard to a translation, as functions of
the text alone.

* `HackStack.events` – a program as one list: its start, its files and their lines;
* `HackStack.standing` – what stands before an event of a program;
* `HackStack.Standing.names` – the names of the labels that a command renders there;
* `HackStack.Standing.rendered` – the names that are rendered by a list of events;
* `HackStack.Standing.tasks` – the tasks that a list of events comes to, each with its standing.
-/

namespace HackStack

/-! ### Events and tasks -/

/-- What a translation meets on its way through a program. -/
inductive Event
  /-- The start of the program, which sets up the stack and calls the entry function. -/
  | startUp (stackBase : Nat) (entry : String)
  /-- The beginning of a file. -/
  | file (source : Source)
  /-- A line that holds code. -/
  | line (number : Nat) (text : String)
  deriving DecidableEq, Repr

/-- A line of code as an event. -/
def Event.ofLine (line : Nat × String) : Event := .line line.1 line.2

/-- Something that a program does. -/
inductive Task
  /-- Set up the stack and call the entry function. -/
  | startUp (stackBase : Nat) (entry : String)
  /-- Carry out a command of a file. -/
  | written (c : Command)
  deriving DecidableEq, Repr

/-- The command that a task comes down to. -/
def Task.command : Task → Command
  | startUp _ entry => .call entry 0
  | written c => c

/-- The task that an event asks for, where it asks for one. -/
def Event.task? : Event → Option Task
  | .startUp stackBase entry => some (.startUp stackBase entry)
  | .file _ => none
  | .line _ text =>
    match Command.read text with
    | .ok c => some (.written c)
    | .error _ => none

/-- The events of a file. -/
def Source.events (source : Source) : List Event :=
  .file source :: (Text.codeLines source.text).map Event.ofLine

/-- The events before the first file. -/
def Options.events (options : Options) : List Event :=
  if options.startUp then [.startUp options.stackBase options.entry] else []

/-- **The events of a program**, in the order in which they are met. -/
def events (sources : List Source) (options : Options) : List Event :=
  options.events ++ sources.flatMap Source.events

theorem Options.mem_events {options : Options} {e : Event} :
    e ∈ options.events ↔
      options.startUp = true ∧ e = .startUp options.stackBase options.entry := by
  rw [events]
  split
  next hstart => simp [hstart]
  next hstart => simp [hstart]

/-- **The events of files** are their beginnings and their lines of code. -/
theorem mem_flatMap_events {sources : List Source} {e : Event} :
    e ∈ sources.flatMap Source.events ↔
      ∃ source ∈ sources, e = .file source ∨
        ∃ number text, (number, text) ∈ Text.codeLines source.text ∧ e = .line number text := by
  rw [List.mem_flatMap]
  refine exists_congr fun source => and_congr_right fun _ => List.mem_cons.trans ?_
  refine or_congr_right ⟨fun h => ?_, ?_⟩
  · obtain ⟨⟨number, text⟩, hline, rfl⟩ := List.mem_map.mp h
    exact ⟨number, text, hline, rfl⟩
  · rintro ⟨number, text, hline, rfl⟩
    exact List.mem_map.mpr ⟨_, hline, rfl⟩

/-- The start of a program is an event of no file. -/
theorem startUp_not_mem_flatMap_events {sources : List Source} {stackBase : Nat} {entry : String} :
    .startUp stackBase entry ∉ sources.flatMap Source.events := by
  intro h
  obtain ⟨source, -, he | ⟨number, text, -, he⟩⟩ := mem_flatMap_events.mp h
  · cases he
  · cases he

/-- The lines of a program are those of its files. -/
theorem line_mem_events {sources : List Source} {options : Options} {number : Nat} {text : String} :
    .line number text ∈ events sources options ↔
      ∃ source ∈ sources, (number, text) ∈ Text.codeLines source.text := by
  rw [events, List.mem_append, Options.mem_events, mem_flatMap_events]
  simp

/-- The files of a program are its sources. -/
theorem mem_of_file_mem_events {sources : List Source} {options : Options} {source : Source}
    (h : .file source ∈ events sources options) : source ∈ sources := by
  rw [events, List.mem_append, Options.mem_events, mem_flatMap_events] at h
  obtain ⟨-, he⟩ | ⟨source', hsource, he | ⟨number, text, -, he⟩⟩ := h
  · cases he
  · exact Event.file.inj he ▸ hsource
  · cases he

/-! ### Standings -/

/-- What the events before a command say of it. -/
structure Standing where
  scope : Scope := .startUp
  /-- The namespace of static variables. -/
  space : Option String := none
  /-- The number of calls in the scope so far. -/
  calls : Nat := 0
  /-- The number of comparisons in the program so far. -/
  comparisons : Nat := 0
  deriving DecidableEq, Repr

namespace Standing

/-- What stands behind a command. -/
def behind (s : Standing) : Command → Standing
  | .operate (.comparison _) => { s with comparisons := s.comparisons + 1 }
  | .function name _ =>
    { s with scope := .function name, space := some (Context.functionSpace name), calls := 0 }
  | .call _ _ => { s with calls := s.calls + 1 }
  | .push _ _ | .pop _ _ | .operate (.unary _) | .operate (.binary _) | .label _ | .goto _
  | .ifGoto _ | .ret => s

/-- What stands behind the beginning of a file. -/
def beginFile (s : Standing) (space : String) : Standing :=
  { s with scope := .file space, space := some space, calls := 0 }

/-- What stands behind an event. -/
def after (s : Standing) (e : Event) : Standing :=
  match e with
  | .file source => s.beginFile source.space
  | .startUp _ _ | .line _ _ => e.task?.elim s fun task => s.behind task.command

/-- **The labels that a command renders.** -/
def labels (s : Standing) : Command → List Label
  | .operate (.comparison _) =>
    [.compare (s.comparisons + 1) .holds, .compare (s.comparisons + 1) .done]
  | .label name => [.user s.scope name]
  | .function name _ => [.entry name]
  | .call _ _ => [.returnTo s.scope (s.calls + 1)]
  | .push _ _ | .pop _ _ | .operate (.unary _) | .operate (.binary _) | .goto _ | .ifGoto _ | .ret =>
    []

/-- The names of the labels that a command renders. -/
def names (s : Standing) (c : Command) : List String := (s.labels c).map Label.render

/-- What stands behind a line. -/
theorem after_line (s : Standing) (number : Nat) (text : String) :
    s.after (.line number text) =
      match Command.read text with
      | .ok c => s.behind c
      | .error _ => s := by
  have htask : s.after (.line number text) =
      (Event.line number text).task?.elim s fun task => s.behind task.command := rfl
  rw [htask, Event.task?]
  cases Command.read text <;> rfl

/-- The names of the labels that are rendered at an event. -/
def namesAt (s : Standing) (e : Event) : List String :=
  e.task?.elim [] fun task => s.names task.command

/-- **The names that are rendered by a list of events.** -/
def rendered (s : Standing) : List Event → List String
  | [] => []
  | e :: rest => s.namesAt e ++ (s.after e).rendered rest

/-- The tasks of a list of events, each with what stands before it. -/
def tasks (s : Standing) : List Event → List (Standing × Task)
  | [] => []
  | e :: rest => (e.task?.map (s, ·)).toList ++ (s.after e).tasks rest

end Standing

/-- **What stands behind a list of events** with which a program begins. -/
def standing (before : List Event) : Standing := before.foldl Standing.after {}

end HackStack
