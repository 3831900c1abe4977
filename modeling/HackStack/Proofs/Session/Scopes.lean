import Mathlib.Data.List.Induction
import Mathlib.Data.List.Nodup
import HackStack.Proofs.Block.Task
import HackStack.Proofs.Command.Written
import HackStack.Proofs.Label.Rendering

/-!
# The scopes of a program

A program goes from scope to scope: a file is a scope up to its first function, and every function
is one. Labels of the source and return addresses are named after the scope they stand in, and calls
are numbered within it. This file says which scopes and labels a program can have, and what the
counters know of the labels before.

* `HackStack.Standing.placed` – the labels that a list of events renders;
* `HackStack.Event.entered?` – the scope that an event enters;
* `HackStack.Label.OccursIn` – that a label, by its scope and its name, may be one of a program
  (`HackStack.occursIn_of_mem_placed`).

The counter of calls starts again in every scope, so a return address is new only as long as no
scope is entered twice (`HackStack.Standing.returnTo_le`). The counter of comparisons goes through
the whole program (`HackStack.Standing.compare_le`).

`HackStack.ScopesApart` is what it takes for scopes to be told apart by their names.
-/

namespace HackStack

/-! ### What a program holds -/

/-- The commands of a file. -/
def Source.commands (source : Source) : List Command :=
  (Text.codeLines source.text).filterMap fun line => (Command.read line.2).toOption

/-- **The commands of a program.** A line that cannot be read holds none. -/
def commandsOf (sources : List Source) : List Command := sources.flatMap Source.commands

/-- The function that a command declares. -/
def Command.declaredFunction? : Command → Option String
  | function name _ => some name
  | push _ _ | pop _ _ | operate _ | label _ | goto _ | ifGoto _ | call _ _ | ret => none

/-- The label of the source that a command declares. -/
def Command.declaredLabel? : Command → Option String
  | label name => some name
  | push _ _ | pop _ _ | operate _ | goto _ | ifGoto _ | function _ _ | call _ _ | ret => none

/-- The functions of a program. -/
def functionsOf (sources : List Source) : List String :=
  (commandsOf sources).filterMap Command.declaredFunction?

/-- The labels of a program, as they are called in the source. -/
def labelsOf (sources : List Source) : List String :=
  (commandsOf sources).filterMap Command.declaredLabel?

/-- A scope that a program can have. -/
def Scope.OccursIn (sources : List Source) : Scope → Prop
  | startUp => True
  | file space => ∃ source ∈ sources, source.space = space
  | function name => name ∈ functionsOf sources

/-- A label that a program can have. -/
def Label.OccursIn (sources : List Source) : Label → Prop
  | entry name => name ∈ functionsOf sources
  | user scope name => scope.OccursIn sources ∧ name ∈ labelsOf sources
  | returnTo scope _ => scope.OccursIn sources
  | compare _ _ => True

theorem Command.declaredFunction?_eq_some {c : Command} {name : String} :
    c.declaredFunction? = some name ↔ ∃ locals, c = .function name locals := by
  cases c <;> simp [declaredFunction?, eq_comm]

/-- A command of a file stands on one of its lines. -/
theorem Source.mem_commands {source : Source} {c : Command} :
    c ∈ source.commands ↔ ∃ line ∈ Text.codeLines source.text, Command.read line.2 = .ok c := by
  have hread : ∀ line : Nat × String,
      (Command.read line.2).toOption = some c ↔ Command.read line.2 = .ok c := by
    intro line
    cases Command.read line.2 <;> simp [Except.toOption]
  rw [commands, List.mem_filterMap]
  exact exists_congr fun line => and_congr_right fun _ => hread line

/-- The commands of a program have been read. -/
theorem written_of_mem_commandsOf {sources : List Source} {c : Command}
    (h : c ∈ commandsOf sources) : c.Written := by
  obtain ⟨source, -, h⟩ := List.mem_flatMap.mp h
  obtain ⟨line, -, hread⟩ := Source.mem_commands.mp h
  exact Command.written_of_read hread

/-- **The commands of a program are met on its lines.** -/
theorem mem_commandsOf {sources : List Source} (options : Options) {c : Command} :
    c ∈ commandsOf sources ↔
      ∃ number text, .line number text ∈ events sources options ∧ Command.read text = .ok c := by
  rw [commandsOf, List.mem_flatMap]
  simp only [line_mem_events, Source.mem_commands]
  constructor
  · rintro ⟨source, hsource, ⟨number, text⟩, hline, hread⟩
    exact ⟨number, text, ⟨source, hsource, hline⟩, hread⟩
  · rintro ⟨number, text, ⟨source, hsource, hline⟩, hread⟩
    exact ⟨source, hsource, (number, text), hline, hread⟩

/-- An event that comes to a task asks for it. -/
theorem Event.asks_of_task? {e : Event} {task : Task} (h : e.task? = some task) :
    e.Asks task := by
  cases e with
  | startUp stackBase entry =>
    obtain rfl := Option.some.inj h
    exact .startUp stackBase entry
  | file source => exact absurd h (by simp [Event.task?])
  | line number text =>
    rw [Event.task?] at h
    cases hread : Command.read text with
    | error why =>
      rw [hread] at h
      exact absurd h (by simp)
    | ok c =>
      rw [hread] at h
      obtain rfl := Option.some.inj h
      exact .line number hread

/-! ### Entering scopes -/

/-- The namespace of the file that an event begins. -/
def Event.begun? : Event → Option String
  | .file source => some source.space
  | .startUp _ _ | .line _ _ => none

/-- The function that an event declares. -/
def Event.declared? (e : Event) : Option String :=
  e.task?.bind fun task => task.command.declaredFunction?

/-- **The scope that an event enters.** -/
def Event.entered? (e : Event) : Option Scope :=
  (e.begun?.map Scope.file).or (e.declared?.map Scope.function)

/-- The scopes that a list of events enters. -/
def entered (all : List Event) : List Scope := all.filterMap Event.entered?

namespace Standing

/-- The labels that are rendered at an event. -/
def labelsAt (s : Standing) (e : Event) : List Label :=
  e.task?.elim [] fun task => s.labels task.command

/-- **The labels that a list of events renders.** -/
def placed (s : Standing) (all : List Event) : List Label :=
  (s.tasks all).flatMap fun entry => entry.1.labels entry.2.command

variable {s : Standing} {all : List Event}

theorem placed_cons (s : Standing) (e : Event) (rest : List Event) :
    s.placed (e :: rest) = s.labelsAt e ++ (s.after e).placed rest := by
  rw [placed, tasks, List.flatMap_append, labelsAt]
  cases e.task? with
  | none => rfl
  | some task => exact congrArg (· ++ _) (List.append_nil _)

/-- The names that are rendered are those of the labels. -/
theorem rendered_eq (s : Standing) (all : List Event) :
    s.rendered all = (s.placed all).map Label.render := by
  induction all generalizing s with
  | nil => rfl
  | cons e rest ih =>
    rw [rendered, placed_cons, List.map_append, ih, namesAt, labelsAt]
    cases e.task? <;> rfl

/-- The tasks of two lists of events, one after the other. -/
theorem tasks_append (s : Standing) (all rest : List Event) :
    s.tasks (all ++ rest) = s.tasks all ++ (all.foldl after s).tasks rest := by
  induction all generalizing s with
  | nil => rfl
  | cons e all ih => rw [List.cons_append, tasks, tasks, ih, List.foldl_cons, List.append_assoc]

/-- The labels of two lists of events, one after the other. -/
theorem placed_append (s : Standing) (all rest : List Event) :
    s.placed (all ++ rest) = s.placed all ++ (all.foldl after s).placed rest := by
  rw [placed, tasks_append, List.flatMap_append, placed, placed]

/-- The names that are rendered by two lists of events, one after the other. -/
theorem rendered_append (s : Standing) (all rest : List Event) :
    s.rendered (all ++ rest) = s.rendered all ++ (all.foldl after s).rendered rest := by
  rw [rendered_eq, placed_append, List.map_append, ← rendered_eq, ← rendered_eq]

/-- A label is rendered by one of the tasks. -/
theorem mem_placed {label : Label} :
    label ∈ s.placed all ↔ ∃ entry ∈ s.tasks all, label ∈ entry.1.labels entry.2.command :=
  List.mem_flatMap

/-- **A task is what one of the events asks for.** -/
theorem mem_tasks {task : Task} :
    (∃ s', (s', task) ∈ s.tasks all) ↔ ∃ e ∈ all, e.task? = some task := by
  induction all generalizing s with
  | nil => simp [tasks]
  | cons e rest ih =>
    rw [List.exists_mem_cons_iff, ← ih, tasks]
    constructor
    · rintro ⟨s', h⟩
      rcases List.mem_append.mp h with h | h
      · rw [Option.mem_toList] at h
        obtain ⟨other, htask, he⟩ := Option.map_eq_some_iff.mp h
        obtain ⟨-, rfl⟩ := Prod.mk.inj he
        exact Or.inl htask
      · exact Or.inr ⟨s', h⟩
    · rintro (htask | ⟨s', h⟩)
      · refine ⟨s, List.mem_append_left _ ?_⟩
        rw [htask, Option.mem_toList]
        rfl
      · exact ⟨s', List.mem_append_right _ h⟩

/-! ### The labels of one command -/

theorem entry_mem_labels {c : Command} {name : String} :
    .entry name ∈ s.labels c ↔ ∃ locals, c = .function name locals := by
  rcases c with _ | _ | (_ | _ | _) | _ | _ | _ | _ | _ | _ <;> simp [labels, eq_comm]

theorem user_mem_labels {c : Command} {scope : Scope} {name : String} :
    .user scope name ∈ s.labels c ↔ c = .label name ∧ scope = s.scope := by
  rcases c with _ | _ | (_ | _ | _) | _ | _ | _ | _ | _ | _ <;>
    simp [labels, eq_comm, and_comm]

theorem returnTo_mem_labels {c : Command} {scope : Scope} {ordinal : Nat} :
    .returnTo scope ordinal ∈ s.labels c ↔
      (∃ name arguments, c = .call name arguments) ∧ scope = s.scope ∧ ordinal = s.calls + 1 := by
  rcases c with _ | _ | (_ | _ | _) | _ | _ | _ | _ | _ | _ <;> simp [labels]

theorem compare_mem_labels {c : Command} {ordinal : Nat} {branch : Branch} :
    .compare ordinal branch ∈ s.labels c ↔
      (∃ op, c = .operate (.comparison op)) ∧ ordinal = s.comparisons + 1 := by
  rcases c with _ | _ | (_ | _ | _) | _ | _ | _ | _ | _ | _ <;> cases branch <;> simp [labels]

/-! ### Scopes -/

/-- The scope behind an event is the one that it enters, or else the one before. -/
theorem after_scope (s : Standing) (e : Event) :
    (s.after e).scope = e.entered?.getD s.scope := by
  cases e with
  | startUp stackBase entry => rfl
  | file source => rfl
  | line number text =>
    rw [after_line, Event.entered?, Event.declared?, Event.task?]
    cases Command.read text with
    | error why => rfl
    | ok c => rcases c with _ | _ | (_ | _ | _) | _ | _ | _ | _ | _ | _ <;> rfl

/-- **A scope is the first one or is entered**: what holds of these holds of all scopes. -/
theorem forall_scope {P : Scope → Prop} (hs : P s.scope) (hall : ∀ scope ∈ entered all, P scope) :
    (∀ entry ∈ s.tasks all, P entry.1.scope) ∧ P (all.foldl after s).scope := by
  induction all generalizing s with
  | nil => exact ⟨fun entry h => absurd h List.not_mem_nil, hs⟩
  | cons e rest ih =>
    have hafter : P (s.after e).scope := by
      rw [after_scope]
      cases he : e.entered? with
      | none => exact hs
      | some scope => exact hall scope (List.mem_filterMap.mpr ⟨e, List.mem_cons_self, he⟩)
    obtain ⟨htasks, hlast⟩ := ih hafter fun scope hscope => hall scope <| by
      obtain ⟨e', he', henters⟩ := List.mem_filterMap.mp hscope
      exact List.mem_filterMap.mpr ⟨e', List.mem_cons_of_mem _ he', henters⟩
    refine ⟨fun entry h => ?_, hlast⟩
    rcases List.mem_append.mp h with h | h
    · rw [Option.mem_toList] at h
      obtain ⟨task, -, rfl⟩ := Option.map_eq_some_iff.mp h
      exact hs
    · exact htasks entry h

end Standing

/-- Every scope of a program is one that it can have. -/
theorem occursIn_of_mem_entered {sources : List Source} {options : Options} {scope : Scope}
    (h : scope ∈ entered (events sources options)) : scope.OccursIn sources := by
  obtain ⟨e, he, henters⟩ := List.mem_filterMap.mp h
  cases e with
  | startUp stackBase entry => cases henters
  | file source =>
    obtain rfl := Option.some.inj henters
    exact ⟨source, mem_of_file_mem_events he, rfl⟩
  | line number text =>
    rw [Event.entered?, Event.begun?, Option.map_none, Option.none_or] at henters
    obtain ⟨name, hname, rfl⟩ := Option.map_eq_some_iff.mp henters
    obtain ⟨task, htask, hfunction⟩ := Option.bind_eq_some_iff.mp hname
    cases Event.asks_of_task? htask with
    | line number hread =>
      have hc := (mem_commandsOf options).mpr ⟨_, _, he, hread⟩
      exact List.mem_filterMap.mpr ⟨_, hc, hfunction⟩

/-- The written tasks of a program are its commands. -/
theorem mem_commandsOf_of_mem_tasks {sources : List Source} {options : Options} {s : Standing}
    {c : Command} (h : (s, .written c) ∈ Standing.tasks {} (events sources options)) :
    c ∈ commandsOf sources := by
  obtain ⟨e, he, htask⟩ := Standing.mem_tasks.mp ⟨_, h⟩
  cases Event.asks_of_task? htask with
  | line number hread => exact (mem_commandsOf options).mpr ⟨_, _, he, hread⟩

/-- Every command of a program stands in a scope that it can have. -/
theorem scope_occursIn {sources : List Source} {options : Options} {s : Standing} {task : Task}
    (h : (s, task) ∈ Standing.tasks {} (events sources options)) : s.scope.OccursIn sources :=
  (Standing.forall_scope (s := {}) (P := Scope.OccursIn sources) trivial
    fun _ hscope => occursIn_of_mem_entered hscope).1 _ h

/-- **Every label of a program** is one that it can have. -/
theorem occursIn_of_mem_placed {sources : List Source} {options : Options} {label : Label}
    (h : label ∈ Standing.placed {} (events sources options)) : label.OccursIn sources := by
  obtain ⟨⟨s, task⟩, hentry, hlabel⟩ := Standing.mem_placed.mp h
  have hscope : s.scope.OccursIn sources := scope_occursIn hentry
  -- A command that renders a label of the source is a command of the source.
  have hwritten : ∀ c, task.command = c → (∀ name arguments, c ≠ .call name arguments) →
      c ∈ commandsOf sources := by
    rintro c rfl hcall
    cases task with
    | startUp stackBase entry => exact absurd rfl (hcall entry 0)
    | written c => exact mem_commandsOf_of_mem_tasks hentry
  cases label with
  | entry name =>
    obtain ⟨locals, hc⟩ := Standing.entry_mem_labels.mp hlabel
    exact List.mem_filterMap.mpr ⟨_, hwritten _ hc (by simp), rfl⟩
  | user scope name =>
    obtain ⟨hc, rfl⟩ := Standing.user_mem_labels.mp hlabel
    exact ⟨hscope, List.mem_filterMap.mpr ⟨_, hwritten _ hc (by simp), rfl⟩⟩
  | returnTo scope ordinal =>
    obtain ⟨-, rfl, -⟩ := Standing.returnTo_mem_labels.mp hlabel
    exact hscope
  | compare ordinal branch => trivial

/-! ### Ordinals -/

/-- The code before the first file is entered by no event. -/
theorem startUp_not_mem_entered (all : List Event) : .startUp ∉ entered all := by
  intro h
  obtain ⟨e, -, henters⟩ := List.mem_filterMap.mp h
  rcases Option.or_eq_some_iff.mp henters with hbegun | ⟨-, hdeclared⟩
  · obtain ⟨space, -, hspace⟩ := Option.map_eq_some_iff.mp hbegun
    exact absurd hspace (by simp)
  · obtain ⟨name, -, hname⟩ := Option.map_eq_some_iff.mp hdeclared
    exact absurd hname (by simp)

theorem standing_concat (before : List Event) (e : Event) :
    standing (before ++ [e]) = (standing before).after e := List.foldl_concat ..

namespace Standing

theorem placed_concat (before : List Event) (e : Event) :
    placed {} (before ++ [e]) = placed {} before ++ (standing before).labelsAt e := by
  rw [placed_append, placed_cons]
  exact congrArg _ (List.append_nil _)

/-- The labels at an event are those of the command that it comes to. -/
theorem mem_labelsAt {s : Standing} {e : Event} {label : Label} (h : label ∈ s.labelsAt e) :
    ∃ task, e.Asks task ∧ label ∈ s.labels task.command := by
  rw [labelsAt] at h
  cases htask : e.task? with
  | none =>
    rw [htask] at h
    exact absurd h List.not_mem_nil
  | some task =>
    rw [htask] at h
    exact ⟨task, Event.asks_of_task? htask, h⟩

/-- An event that renders a return address is the next call of its scope. -/
theorem returnTo_mem_labelsAt {s : Standing} {e : Event} {scope : Scope} {ordinal : Nat}
    (h : .returnTo scope ordinal ∈ s.labelsAt e) :
    e.entered? = none ∧ ordinal = (s.after e).calls := by
  obtain ⟨task, hasks, hlabel⟩ := mem_labelsAt h
  obtain ⟨⟨name, arguments, hc⟩, -, rfl⟩ := returnTo_mem_labels.mp hlabel
  rw [hasks.after_eq, hc]
  refine ⟨?_, rfl⟩
  rw [Event.entered?, Event.declared?, hasks.task?_eq]
  cases hasks with
  | startUp stackBase entry => rfl
  | line number hread =>
    obtain rfl : _ = Command.call name arguments := hc
    rfl

/-- Within a scope, the counter of calls does not go back. -/
theorem calls_le_after {s : Standing} {e : Event} (h : e.entered? = none) :
    s.calls ≤ (s.after e).calls := by
  cases e with
  | startUp stackBase entry => exact Nat.le_succ _
  | file source => exact absurd h (by simp [Event.entered?, Event.begun?])
  | line number text =>
    rw [Event.entered?, Event.declared?, Event.task?] at h
    rw [after_line]
    cases hread : Command.read text with
    | error why => exact Nat.le_refl _
    | ok c =>
      -- Of all commands, only a function starts the counter again, and it enters a scope.
      rw [hread] at h
      cases c with
      | function name locals => cases h
      | call name arguments => exact Nat.le_succ _
      | operate op => cases op <;> exact Nat.le_refl _
      | _ => exact Nat.le_refl _

/-- The counter of comparisons does not go back. -/
theorem comparisons_le_after (s : Standing) (e : Event) :
    s.comparisons ≤ (s.after e).comparisons := by
  cases e with
  | startUp stackBase entry => exact Nat.le_refl _
  | file source => exact Nat.le_refl _
  | line number text =>
    rw [after_line]
    cases Command.read text with
    | error why => exact Nat.le_refl _
    | ok c =>
      cases c with
      | operate op =>
        cases op with
        | comparison op => exact Nat.le_succ _
        | _ => exact Nat.le_refl _
      | _ => exact Nat.le_refl _

/-- The scopes entered with one more event. -/
theorem entered_concat (before : List Event) (e : Event) :
    entered (before ++ [e]) = entered before ++ e.entered?.toList := by
  rw [entered, List.filterMap_append]
  cases he : e.entered? <;> simp [entered, he]

/-- A return address is of a scope that has been entered, or of the start-up code. -/
theorem mem_entered_of_returnTo_mem_placed {before : List Event} {scope : Scope} {ordinal : Nat}
    (h : .returnTo scope ordinal ∈ placed {} before) :
    scope = .startUp ∨ scope ∈ entered before := by
  obtain ⟨entry, hentry, hlabel⟩ := mem_placed.mp h
  obtain ⟨-, rfl, -⟩ := returnTo_mem_labels.mp hlabel
  exact (forall_scope (s := {}) (P := fun scope => scope = .startUp ∨ scope ∈ entered before)
    (Or.inl rfl) fun _ hscope => Or.inr hscope).1 entry hentry

/-- **The next return address is new**: those of the scope have been numbered up to the counter, as
long as no scope has been entered twice. -/
theorem returnTo_le {before : List Event} (hn : (entered before).Nodup) {ordinal : Nat}
    (h : .returnTo (standing before).scope ordinal ∈ placed {} before) :
    ordinal ≤ (standing before).calls := by
  -- The scope is that of the last event or of one before, so the induction is from the end.
  induction before using List.reverseRecOn with
  | nil => exact absurd h List.not_mem_nil
  | append_singleton before e ih =>
    rw [standing_concat] at h ⊢
    rw [placed_concat, List.mem_append, after_scope] at h
    have hentered := entered_concat before e
    rw [hentered] at hn
    cases he : e.entered? with
    | none =>
      rw [he, Option.getD_none] at h
      rcases h with h | h
      · exact (ih (List.nodup_append.mp hn).1 h).trans (calls_le_after he)
      · exact (returnTo_mem_labelsAt h).2.le
    | some scope =>
      -- The counter starts again, but a scope that is new has no return address yet.
      rw [he, Option.getD_some] at h
      rw [he, Option.toList_some] at hentered hn
      rcases h with h | h
      · rcases mem_entered_of_returnTo_mem_placed h with rfl | hold
        · refine absurd ?_ (startUp_not_mem_entered (before ++ [e]))
          rw [hentered]
          exact List.mem_append_right _ (List.mem_singleton_self _)
        · exact absurd rfl ((List.nodup_append.mp hn).2.2 _ hold _ (List.mem_singleton_self _))
      · exact absurd ((returnTo_mem_labelsAt h).1.symm.trans he) (by simp)

/-- **The labels of the next comparison are new**: those of the program have been numbered up to the
counter. -/
theorem compare_le {before : List Event} {ordinal : Nat} {branch : Branch}
    (h : .compare ordinal branch ∈ placed {} before) :
    ordinal ≤ (standing before).comparisons := by
  induction before using List.reverseRecOn with
  | nil => exact absurd h List.not_mem_nil
  | append_singleton before e ih =>
    rw [standing_concat]
    rw [placed_concat, List.mem_append] at h
    rcases h with h | h
    · exact (ih h).trans (comparisons_le_after _ e)
    · obtain ⟨task, hasks, hlabel⟩ := mem_labelsAt h
      obtain ⟨⟨op, hc⟩, rfl⟩ := compare_mem_labels.mp hlabel
      rw [hasks.after_eq, hc]
      exact Nat.le_refl _

end Standing

/-! ### Scopes with different names -/

/-- The functions of a list of events are among the names that are rendered. -/
theorem Standing.declared_sublist (s : Standing) (all : List Event) :
    (all.filterMap Event.declared?).Sublist (s.rendered all) := by
  induction all generalizing s with
  | nil => exact .slnil
  | cons e rest ih =>
    rw [rendered]
    cases he : e.declared? with
    | none =>
      rw [List.filterMap_cons_none he]
      exact (ih (s.after e)).trans (List.sublist_append_right _ _)
    | some name =>
      obtain ⟨task, htask, hfunction⟩ := Option.bind_eq_some_iff.mp he
      obtain ⟨locals, hc⟩ := Command.declaredFunction?_eq_some.mp hfunction
      have hnames : s.namesAt e = [name] := by
        rw [namesAt, htask, Option.elim_some, hc]
        rfl
      rw [List.filterMap_cons_some he, hnames]
      exact (ih (s.after e)).cons_cons name

/-- **No scope is entered twice** when the files have different namespaces and the labels different
names. -/
theorem nodup_entered {all : List Event} (hspaces : (all.filterMap Event.begun?).Nodup)
    (hrendered : (Standing.rendered {} all).Nodup) : (entered all).Nodup := by
  have hfunctions := (Standing.declared_sublist {} all).nodup hrendered
  rw [List.Nodup, List.pairwise_filterMap] at hspaces hfunctions
  rw [entered, List.Nodup, List.pairwise_filterMap]
  refine (hspaces.and hfunctions).imp ?_
  rintro e e' ⟨hspace, hfunction⟩ scope henters _ henters' rfl
  rcases Option.or_eq_some_iff.mp henters with hbegun | ⟨-, hdeclared⟩ <;>
    rcases Option.or_eq_some_iff.mp henters' with hbegun' | ⟨-, hdeclared'⟩
  · obtain ⟨space, hfirst, rfl⟩ := Option.map_eq_some_iff.mp hbegun
    obtain ⟨_, hsecond, he⟩ := Option.map_eq_some_iff.mp hbegun'
    exact hspace _ hfirst _ hsecond (Scope.file.inj he).symm
  · obtain ⟨space, -, rfl⟩ := Option.map_eq_some_iff.mp hbegun
    obtain ⟨_, -, he⟩ := Option.map_eq_some_iff.mp hdeclared'
    exact absurd he (by simp)
  · obtain ⟨name, -, rfl⟩ := Option.map_eq_some_iff.mp hdeclared
    obtain ⟨_, -, he⟩ := Option.map_eq_some_iff.mp hbegun'
    exact absurd he (by simp)
  · obtain ⟨name, hfirst, rfl⟩ := Option.map_eq_some_iff.mp hdeclared
    obtain ⟨_, hsecond, he⟩ := Option.map_eq_some_iff.mp hdeclared'
    exact hfunction _ hfirst _ hsecond (Scope.function.inj he).symm

/-- The files that a program begins. -/
theorem filterMap_begun_events (sources : List Source) (options : Options) :
    (events sources options).filterMap Event.begun? = sources.map Source.space := by
  have hstart : options.events.filterMap Event.begun? = [] := by
    rw [Options.events]
    split <;> rfl
  have hlines : ∀ lines : List (Nat × String),
      (lines.map Event.ofLine).filterMap Event.begun? = [] := fun lines => by
    rw [List.filterMap_map]
    exact List.filterMap_eq_nil_iff.mpr fun _ _ => rfl
  rw [events, List.filterMap_append, hstart, List.nil_append]
  induction sources with
  | nil => rfl
  | cons first rest ih =>
    have hfile : Event.begun? (.file first) = some first.space := rfl
    rw [List.flatMap_cons, List.filterMap_append, ih, Source.events,
      List.filterMap_cons_some hfile, hlines]
    rfl

/-- The commands of a program stand in its files. -/
theorem scope_ne_startUp {sources : List Source} {options : Options} {s : Standing} {c : Command}
    (h : (s, .written c) ∈ Standing.tasks {} (events sources options)) : s.scope ≠ .startUp := by
  rw [events, Standing.tasks_append] at h
  rcases List.mem_append.mp h with h | h
  · rw [Options.events] at h
    split at h
    · exact absurd (List.mem_singleton.mp h) (by simp)
    · exact absurd h List.not_mem_nil
  · cases sources with
    | nil => exact absurd h List.not_mem_nil
    | cons first rest =>
      -- The first file is begun before its commands, and from then on every scope is entered.
      change _ ∈ Standing.tasks (Standing.after _ (.file first)) _ at h
      refine (Standing.forall_scope (P := (· ≠ .startUp)) ?_ ?_).1 _ h
      · exact Scope.noConfusion
      · rintro _ hscope rfl
        exact startUp_not_mem_entered _ hscope

/-- **The scopes of a program are told apart by their names**: files and functions all have
different names, and no name holds the `$` that stands behind it in the names of labels. That no
function is declared twice is left to the translation, which refuses it. -/
structure ScopesApart (sources : List Source) : Prop where
  spaces : (sources.map Source.space).Nodup
  functions : ∀ source ∈ sources, source.space ∉ functionsOf sources
  dollar_space : ∀ source ∈ sources, '$' ∉ source.space.toList
  dollar_function : ∀ name ∈ functionsOf sources, '$' ∉ name.toList

namespace ScopesApart

variable {sources : List Source}

/-- **No scope is entered twice** as long as a program is translated. -/
theorem nodup_entered {options : Options} {before after : List Event} {sites : List Site}
    {context : Context} (h : ScopesApart sources)
    (hevents : events sources options = before ++ after)
    (htranslates : Translates {} before sites context) : (entered before).Nodup := by
  refine HackStack.nodup_entered ?_ ?_
  · have hspaces := h.spaces
    rw [← filterMap_begun_events sources options, hevents, List.filterMap_append] at hspaces
    exact (List.nodup_append.mp hspaces).1
  · have hnodup := htranslates.nodup.1
    rw [htranslates.labelNames_eq] at hnodup
    exact hnodup

/-- No name of a scope holds a `$`. -/
theorem dollar_not_mem_qualifier (h : ScopesApart sources) {scope : Scope}
    (hscope : scope.OccursIn sources) : '$' ∉ scope.qualifier.toList := by
  cases scope with
  | startUp => exact List.not_mem_nil
  | file space =>
    obtain ⟨source, hsource, rfl⟩ := hscope
    exact h.dollar_space source hsource
  | function name => exact h.dollar_function name hscope

/-- **The first `$` in the name of a label** is the one that was put there. -/
theorem dollar_not_mem_head (h : ScopesApart sources) {label : Label}
    (hlabel : label.OccursIn sources) : '$' ∉ label.head.toList := by
  cases label with
  | entry name => exact h.dollar_function name hlabel
  | user scope name => exact h.dollar_not_mem_qualifier hlabel.1
  | returnTo scope ordinal => exact h.dollar_not_mem_qualifier hlabel
  | compare ordinal branch => exact Label.dollar_not_mem_compare ordinal branch

/-- **Scopes with one name are one scope.** -/
theorem eq_of_qualifier_eq (h : ScopesApart sources) {scope other : Scope}
    (hscope : scope.OccursIn sources) (hother : other.OccursIn sources)
    (hne : scope ≠ .startUp) (hne' : other ≠ .startUp)
    (he : scope.qualifier = other.qualifier) : scope = other := by
  cases scope with
  | startUp => exact absurd rfl hne
  | file space =>
    cases other with
    | startUp => exact absurd rfl hne'
    | file space' => exact congrArg Scope.file he
    | function name =>
      obtain ⟨source, hsource, rfl⟩ := hscope
      obtain rfl : source.space = name := he
      exact absurd hother (h.functions source hsource)
  | function name =>
    cases other with
    | startUp => exact absurd rfl hne'
    | file space =>
      obtain ⟨source, hsource, rfl⟩ := hother
      obtain rfl : name = source.space := he
      exact absurd hscope (h.functions source hsource)
    | function name' => exact congrArg Scope.function he

end ScopesApart

end HackStack
