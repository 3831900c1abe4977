import HackStack.Proofs.Block.Determined
import HackStack.Proofs.Session.Annotation

/-!
# What a translation counts

The statistics of a session are a sum: every event adds what it stands for, and a session that has
met events has added them all (`HackStack.Session.statistics_of_meetAll`). So the statistics of a
program can be read off its text, but for the number of its instructions, which is the size of its
code (`HackStack.statistics_of_translate`).

A call is counted for every call command and for the start of the program, which is a call too.
-/

namespace HackStack

open Assembly

/-! ### Sums -/

namespace Statistics

instance : Add Statistics where
  add first second :=
    { files := first.files + second.files
      commands := first.commands + second.commands
      instructions := first.instructions + second.instructions
      functions := first.functions + second.functions
      calls := first.calls + second.calls
      comparisons := first.comparisons + second.comparisons }

theorem add_def (first second : Statistics) :
    first + second =
      ⟨first.files + second.files, first.commands + second.commands,
        first.instructions + second.instructions, first.functions + second.functions,
        first.calls + second.calls, first.comparisons + second.comparisons⟩ := rfl

theorem add_assoc (first second third : Statistics) :
    first + second + third = first + (second + third) := by
  simp only [add_def, Nat.add_assoc]

theorem empty_add (statistics : Statistics) : {} + statistics = statistics := by
  simp only [add_def, Nat.zero_add]

/-- What a command is counted as is added to what was counted before. -/
theorem countKind_eq (statistics : Statistics) (c : Command) :
    statistics.countKind c = statistics + ({} : Statistics).countKind c := by
  rcases c with _ | _ | (_ | _ | _) | _ | _ | _ | _ | _ | _ <;> rfl

end Statistics

/-! ### What is counted -/

/-- A task is a command of a file. -/
def Task.isWritten : Task → Bool
  | written _ => true
  | startUp _ _ => false

/-- **What is counted for a task** with this many instructions. -/
def Task.tally (task : Task) (instructions : Nat) : Statistics where
  commands := if task.isWritten then 1 else 0
  instructions
  functions := task.command.declaredFunction?.toList.length
  calls := if task.command.isCall then 1 else 0
  comparisons := if task.command.isComparison then 1 else 0

/-- **What is counted for events** with this many instructions. -/
def tally (all : List Event) (instructions : Nat) : Statistics where
  files := (all.filterMap Event.begun?).length
  commands := (all.filterMap Event.task?).countP Task.isWritten
  instructions
  functions := (all.filterMap Event.declared?).length
  calls := (all.filterMap Event.task?).countP fun task => task.command.isCall
  comparisons := (all.filterMap Event.task?).countP fun task => task.command.isComparison

theorem tally_file (source : Source) (rest : List Event) (instructions : Nat) :
    tally (.file source :: rest) instructions = { files := 1 } + tally rest instructions := by
  have hbegun : Event.begun? (.file source) = some source.space := rfl
  have htask : Event.task? (.file source) = none := rfl
  have hdeclared : Event.declared? (.file source) = none := rfl
  simp [tally, Statistics.add_def, hbegun, htask, hdeclared, Nat.add_comm]

/-- An event that asks for a task counts as the task. -/
theorem tally_task {e : Event} {task : Task} (h : e.Asks task) (rest : List Event)
    (first second : Nat) :
    tally (e :: rest) (first + second) = task.tally first + tally rest second := by
  have hbegun : e.begun? = none := by cases h <;> rfl
  have hdeclared : e.declared? = task.command.declaredFunction? := by
    rw [Event.declared?, h.task?_eq]
    rfl
  have hfunctions : ((e :: rest).filterMap Event.declared?).length =
      task.command.declaredFunction?.toList.length + (rest.filterMap Event.declared?).length := by
    cases hf : task.command.declaredFunction? with
    | none => simp [hdeclared, hf]
    | some name => simp [hdeclared, hf, Nat.add_comm]
  rw [tally, hfunctions, List.filterMap_cons_none hbegun, List.filterMap_cons_some h.task?_eq,
    List.countP_cons, List.countP_cons, List.countP_cons, Statistics.add_def]
  simp only [tally, Task.tally, Nat.zero_add, Nat.add_comm (List.countP _ _)]

/-! ### Sessions -/

namespace Session

variable {session session' : Session (Array Statement)}

/-- **A session counts a task** that it has done. -/
theorem statistics_of_meet {e : Event} {task : Task} {block : Block} {context : Context}
    (hasks : e.Asks task) (hlowers : task.Lowers session.context block context)
    (hmeet : meet e session = (.ok (), session')) :
    session'.statistics = session.statistics + task.tally (size block) := by
  cases hasks with
  | startUp stackBase entry =>
    rw [meet, startUp_ok hlowers.lowering] at hmeet
    obtain rfl := (Prod.mk.inj hmeet).2
    rfl
  | @line number text c hread =>
    have hcommand : command c { session with location := session.location.withLine number } =
        (.ok (), _) := command_ok hlowers.lowering
    rw [meet, line_apply, hread] at hmeet
    obtain rfl := (Prod.mk.inj (hcommand.symm.trans hmeet)).2
    rw [wrote, Statistics.countKind_eq]
    rcases c with _ | _ | (_ | _ | _) | _ | _ | _ | _ | _ | _ <;> rfl

/-- **A session counts all that it meets.** -/
theorem statistics_of_meetAll {all : List Event} {sites : List Site} {context : Context}
    (h : Translates session.context all sites context)
    (hrun : meetAll all session = (.ok (), session')) :
    session'.statistics = session.statistics + tally all (size (sites.flatMap Site.block)) := by
  induction all generalizing session sites with
  | nil =>
    cases h
    obtain rfl := (Prod.mk.inj hrun).2
    rfl
  | cons e rest ih =>
    rw [meetAll] at hrun
    obtain ⟨⟨⟩, between, hmeet, hrest⟩ := Step.bind_eq_ok.mp hrun
    cases h with
    | @file _ _ source _ _ h =>
      obtain rfl := (Prod.mk.inj hmeet).2
      rw [ih h hrest, tally_file, ← Statistics.add_assoc]
      rfl
    | task hasks hlowers h =>
      obtain ⟨between', hmeet', hdone⟩ := meet_task hasks hlowers
      obtain rfl := (Prod.mk.inj (hmeet.symm.trans hmeet')).2
      rw [← hdone.context] at h
      rw [ih h hrest, statistics_of_meet hasks hlowers hmeet, List.flatMap_cons, size_append,
        tally_task hasks, Statistics.add_assoc]

end Session

/-! ### Programs -/

/-- **The statistics of a program** with this many instructions. -/
def statisticsOf (sources : List Source) (options : Options) (instructions : Nat) :
    Statistics where
  files := sources.length
  commands := (commandsOf sources).length
  instructions
  functions := (functionsOf sources).length
  calls := (if options.startUp then 1 else 0) + (commandsOf sources).countP Command.isCall
  comparisons := (commandsOf sources).countP Command.isComparison

/-- What is counted for the events of a program can be read off its files. -/
theorem tally_events (sources : List Source) (options : Options) (instructions : Nat) :
    tally (events sources options) instructions = statisticsOf sources options instructions := by
  have hfunctions : (events sources options).filterMap Event.declared? = functionsOf sources := by
    have hdeclared : Event.declared? =
        fun e => e.task?.bind fun task => task.command.declaredFunction? := rfl
    rw [hdeclared, ← List.filterMap_filterMap, filterMap_task?_events, List.filterMap_append,
      List.filterMap_map, Options.tasks]
    cases options.startUp <;> rfl
  have hwritten : ∀ cs : List Command, (cs.map Task.written).countP Task.isWritten = cs.length :=
    fun cs => by
      rw [List.countP_map, List.countP_eq_length]
      exact fun _ _ => rfl
  have hcalls : (options.tasks.countP fun task => task.command.isCall) =
      if options.startUp then 1 else 0 := by
    rw [Options.tasks]
    cases options.startUp <;> rfl
  have hothers : options.tasks.countP Task.isWritten = 0 ∧
      (options.tasks.countP fun task => task.command.isComparison) = 0 := by
    rw [Options.tasks]
    cases options.startUp <;> exact ⟨rfl, rfl⟩
  rw [tally, statisticsOf, filterMap_begun_events, hfunctions, filterMap_task?_events,
    List.countP_append, List.countP_append, List.countP_append, hwritten, hcalls, hothers.1,
    hothers.2, List.countP_map, List.countP_map, List.length_map, Nat.zero_add, Nat.zero_add]
  rfl

/-- A session that has translated a program has met its events. -/
theorem Session.meetAll_of_ofSources {sources : List Source} {options : Options}
    {session : Session (Array Statement)} (h : ofSources sources options = .ok session) :
    meetAll (events sources options) (.fresh options) = (.ok (), session) := by
  have hfresh : ({ sink := #[], options } : Session (Array Statement)) = .fresh options := rfl
  rw [ofSources_eq, hfresh] at h
  rcases hrun : meetAll (events sources options) (.fresh options) with ⟨why | _, session'⟩
  · rw [hrun] at h
    exact absurd h (by simp)
  · rw [hrun] at h
    rw [Except.ok.inj h]

/-- **The statistics of a translated program** are those of its files, its commands and its
code. -/
theorem Translates.statistics_eq {sources : List Source} {options : Options} {sites : List Site}
    {context : Context} (h : Translates {} (events sources options) sites context)
    {session : Session (Array Statement)} (hof : Session.ofSources sources options = .ok session) :
    session.statistics = statisticsOf sources options (size (sites.flatMap Site.block)) := by
  have hcounted := @Session.statistics_of_meetAll (.fresh options) _ _ _ _ h
    (Session.meetAll_of_ofSources hof)
  rw [hcounted, ← tally_events]
  exact Statistics.empty_add _

/-- **The statistics of a translation.** The files, the commands, the functions, the calls and the
comparisons are those of the sources, with one more call for the start of the program, and the
instructions are those of the code. -/
theorem statistics_of_translate {sources : List Source} {options : Options} {t : Translation}
    (ht : translate sources options = .ok t) :
    t.statistics = statisticsOf sources options (size t.code.toList) := by
  obtain ⟨sites, context, session, htranslates, hof, rfl, hdone⟩ := translates_of_translate ht
  rw [htranslates.statistics_eq hof, hdone.code_eq, size_codeOf]

end HackStack
