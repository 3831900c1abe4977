import HackStack.Proofs.Block.Lowering

/-!
# What a program is lowered to

A program is a list of tasks: the start of the program, if there is one, and then the commands of
its files. `HackStack.Translates` says that events are translated from a context on, and which tasks
they come to. Each task is kept with its block and with the context that the block was found in, as
a `HackStack.Site`; the sites are a function of the events (`HackStack.Translates.sitesOf_eq`).

Events are translated up to the first that stops the translation (`HackStack.translates_or_stops`).
As long as they are, the context keeps track of what stands before, and the labels that were
declared are those that were rendered (`HackStack.Translates.standing_eq`,
`HackStack.Translates.mem_declared`).
-/

namespace HackStack

open Assembly Statement

namespace Task

/-- The comment ahead of a task's code. -/
def note : Task → String
  | startUp _ _ => "bootstrap"
  | written c => c.render

/-- The code of a task. -/
def lowering : Task → Lowering Block
  | startUp stackBase entry => Block.startUp stackBase entry
  | written c => Block.ofCommand c

end Task

/-- What an event asks a program to do. -/
inductive Event.Asks : Event → Task → Prop
  | startUp (stackBase : Nat) (entry : String) :
      Asks (.startUp stackBase entry) (.startUp stackBase entry)
  | line (number : Nat) {text : String} {c : Command} (h : Command.read text = .ok c) :
      Asks (.line number text) (.written c)

namespace Block

/-- The code that sets up the stack. -/
def setUp (stackBase : Nat) : Block :=
  [number stackBase, assign .d (.y .a)] ++ saveD MemoryMap.stackPointer

end Block

namespace Task

/-! ### The two outcomes -/

/-- **A task is lowered** in a context to a block, and leaves another context behind. -/
inductive Lowers (context : Context) : Task → Block → Context → Prop
  | startUp {stackBase : Nat} {entry : String} {block : Block} {context' : Context}
      (hbase : stackBase ≤ MemoryMap.maxAddress)
      (h : Block.Lowers context (.call entry 0) block context') :
      Lowers context (.startUp stackBase entry) (Block.setUp stackBase ++ block) context'
  | written {c : Command} {block : Block} {context' : Context}
      (h : Block.Lowers context c block context') : Lowers context (.written c) block context'

/-- **A task cannot be lowered** in a context, and leaves another context behind all the same. -/
inductive Faults (context : Context) : Task → Fault → Context → Prop
  | stackBase {stackBase : Nat} {entry : String} (h : ¬stackBase ≤ MemoryMap.maxAddress) :
      Faults context (.startUp stackBase entry) (.malformed (.stackBase stackBase)) context
  | startUp {stackBase : Nat} {entry : String} {why : Fault} {context' : Context}
      (hbase : stackBase ≤ MemoryMap.maxAddress)
      (h : Block.Faults context (.call entry 0) why context') :
      Faults context (.startUp stackBase entry) why context'
  | written {c : Command} {why : Fault} {context' : Context}
      (h : Block.Faults context c why context') : Faults context (.written c) why context'

variable {context context' : Context} {task : Task}

/-- The start of a program, once its stack is set up, is a call. -/
theorem startUp_apply {stackBase : Nat} (h : stackBase ≤ MemoryMap.maxAddress) (entry : String) :
    Block.startUp stackBase entry context =
      (Block.ofCommand (.call entry 0) >>= fun enter => pure (Block.setUp stackBase ++ enter))
        context := by
  rw [Block.startUp, if_pos h]
  rfl

theorem Lowers.lowering {block : Block} (h : Lowers context task block context') :
    task.lowering context = (.ok block, context') := by
  cases h with
  | startUp hbase h =>
    rw [Task.lowering, startUp_apply hbase, Step.bind_apply, h.ofCommand]
    rfl
  | written h => exact h.ofCommand

theorem Faults.lowering {why : Fault} (h : Faults context task why context') :
    task.lowering context = (.error why, context') := by
  cases h with
  | stackBase h => rw [Task.lowering, Block.startUp, if_neg h, Step.throw_apply]
  | startUp hbase h => rw [Task.lowering, startUp_apply hbase, Step.bind_apply, h.ofCommand]
  | written h => exact h.ofCommand

/-- **Every task** is lowered or faults. -/
theorem lowers_or_faults (context : Context) (task : Task) :
    (∃ block context', Lowers context task block context') ∨
      ∃ why context', Faults context task why context' := by
  cases task with
  | startUp stackBase entry =>
    by_cases hbase : stackBase ≤ MemoryMap.maxAddress
    · rcases Block.lowers_or_faults context (.call entry 0) with
        ⟨block, context', h⟩ | ⟨why, context', h⟩
      · exact Or.inl ⟨_, _, .startUp hbase h⟩
      · exact Or.inr ⟨_, _, .startUp hbase h⟩
    · exact Or.inr ⟨_, _, .stackBase hbase⟩
  | written c =>
    rcases Block.lowers_or_faults context c with ⟨block, context', h⟩ | ⟨why, context', h⟩
    · exact Or.inl ⟨_, _, .written h⟩
    · exact Or.inr ⟨_, _, .written h⟩

/-- What the code of a task is lowered to. -/
theorem lowers_of_lowering {block : Block} (h : task.lowering context = (.ok block, context')) :
    Lowers context task block context' := by
  rcases lowers_or_faults context task with ⟨block₁, context₁, hl⟩ | ⟨why, context₁, hf⟩
  · rw [hl.lowering, Prod.mk.injEq, Except.ok.injEq] at h
    obtain ⟨rfl, rfl⟩ := h
    exact hl
  · rw [hf.lowering] at h
    exact absurd (Prod.mk.inj h).1 (by simp)

namespace Lowers

variable {block : Block}

/-- **A task places the labels of its command.** -/
theorem labelNames_eq (h : Lowers context task block context') :
    labelNames block = context.standing.names task.command := by
  cases h with
  | startUp hbase h => exact h.labelNames_eq
  | written h => exact h.labelNames_eq

/-- **The labels of a task were free.** -/
theorem free (h : Lowers context task block context') {name : String}
    (hname : name ∈ context.standing.names task.command) :
    name ∉ context.registry.declared := by
  cases h with
  | startUp hbase h => exact h.free hname
  | written h => exact h.free hname

/-- **The labels of a task are declared by it**, and nothing else is. -/
theorem mem_declared (h : Lowers context task block context') {name : String} :
    name ∈ context'.registry.declared ↔
      name ∈ context.registry.declared ∨ name ∈ context.standing.names task.command := by
  cases h with
  | startUp hbase h => exact h.mem_declared
  | written h => exact h.mem_declared

/-- The labels of a task are all different. -/
theorem nodup (h : Lowers context task block context') :
    (context.standing.names task.command).Nodup := by
  cases h with
  | startUp hbase h => exact h.nodup
  | written h => exact h.nodup

/-- **A task changes the standing** as its command does. -/
theorem standing_eq (h : Lowers context task block context') :
    context'.standing = context.standing.behind task.command := by
  cases h with
  | startUp hbase h => exact h.standing_eq
  | written h => exact h.standing_eq

end Lowers

end Task

namespace Event.Asks

variable {e : Event} {task : Task}

theorem task?_eq (h : e.Asks task) : e.task? = some task := by
  cases h with
  | startUp stackBase entry => rfl
  | line number h => rw [Event.task?, h]

/-- The standing changes as the command does. -/
theorem after_eq (h : e.Asks task) (s : Standing) : s.after e = s.behind task.command := by
  cases h with
  | startUp stackBase entry => rfl
  | line number h => rw [Standing.after, Event.task?, h]; rfl

/-- The names rendered at the event are those of the command. -/
theorem namesAt_eq (h : e.Asks task) (s : Standing) : s.namesAt e = s.names task.command := by
  rw [Standing.namesAt, h.task?_eq]
  rfl

end Event.Asks

/-! ### Programs -/

/-- A task in its place: the context in which its code was found, and the code. -/
structure Site where
  context : Context
  task : Task
  block : Block

/-- The site with a given property, such as its task. -/
theorem exists_site {α : Type} {property : Site → α} {sites : List Site} {values : List α}
    {k : Nat} {value : α} (hsites : sites.map property = values) (h : values[k]? = some value) :
    ∃ site, sites[k]? = some site ∧ property site = value := by
  rw [← hsites, List.getElem?_map] at h
  exact Option.map_eq_some_iff.mp h

/-- The sites that events come to from a context on, up to the first event that cannot be
translated. -/
def sitesOf : Context → List Event → List Site
  | _, [] => []
  | context, .file source :: rest => sitesOf (context.beginFile source.space) rest
  | context, e :: rest =>
    match e.task? with
    | none => []
    | some task =>
      match task.lowering context with
      | (.ok block, between) => ⟨context, task, block⟩ :: sitesOf between rest
      | (.error _, _) => []

/-- **Events are translated** from a context on: the sites they come to, and the context behind
them. -/
inductive Translates : Context → List Event → List Site → Context → Prop
  | nil (context : Context) : Translates context [] [] context
  | file {context context' : Context} {source : Source} {rest : List Event} {sites : List Site}
      (h : Translates (context.beginFile source.space) rest sites context') :
      Translates context (.file source :: rest) sites context'
  | task {context between context' : Context} {e : Event} {task : Task} {block : Block}
      {rest : List Event} {sites : List Site} (hasks : e.Asks task)
      (hlowers : task.Lowers context block between) (h : Translates between rest sites context') :
      Translates context (e :: rest) (⟨context, task, block⟩ :: sites) context'

/-- **An event stops a translation**: its line cannot be read, or its task cannot be lowered. -/
inductive Event.Stops (context : Context) : Event → Fault → Prop
  | unread {number : Nat} {text : String} {why : Fault} (h : Command.read text = .error why) :
      Stops context (.line number text) why
  | task {e : Event} {task : Task} {why : Fault} {context' : Context} (hasks : e.Asks task)
      (hfaults : task.Faults context why context') : Stops context e why

/-- **Events are translated up to the first that stops the translation.** -/
theorem translates_or_stops (context : Context) (all : List Event) :
    (∃ sites context', Translates context all sites context') ∨
      ∃ before e after sites context' why, all = before ++ e :: after ∧
        Translates context before sites context' ∧ e.Stops context' why := by
  induction all generalizing context with
  | nil => exact Or.inl ⟨_, _, .nil context⟩
  | cons e rest ih =>
    -- An event that asks for a task either stops here or leads on to the rest.
    have step : ∀ task, e.Asks task →
        (∃ sites context', Translates context (e :: rest) sites context') ∨
          ∃ before e' after sites context' why, e :: rest = before ++ e' :: after ∧
            Translates context before sites context' ∧ e'.Stops context' why := by
      intro task hasks
      rcases Task.lowers_or_faults context task with
        ⟨block, between, hlowers⟩ | ⟨why, between, hfaults⟩
      · rcases ih between with
          ⟨sites, context', h⟩ | ⟨before, e', after, sites, context', why, rfl, h, hstops⟩
        · exact Or.inl ⟨_, _, .task hasks hlowers h⟩
        · exact Or.inr ⟨e :: before, e', after, _, _, why, rfl, .task hasks hlowers h, hstops⟩
      · exact Or.inr ⟨[], e, rest, [], context, why, rfl, .nil context, .task hasks hfaults⟩
    cases e with
    | startUp stackBase entry => exact step _ (.startUp stackBase entry)
    | file source =>
      rcases ih (context.beginFile source.space) with
        ⟨sites, context', h⟩ | ⟨before, e', after, sites, context', why, rfl, h, hstops⟩
      · exact Or.inl ⟨_, _, .file h⟩
      · exact Or.inr ⟨.file source :: before, e', after, _, _, why, rfl, .file h, hstops⟩
    | line number text =>
      cases hread : Command.read text with
      | ok c => exact step _ (.line number hread)
      | error why =>
        exact Or.inr ⟨[], _, rest, [], context, why, rfl, .nil context, .unread hread⟩

namespace Translates

variable {context context' : Context} {all : List Event} {sites : List Site}

/-- The sites are a function of the events. -/
theorem sitesOf_eq (h : Translates context all sites context') : sitesOf context all = sites := by
  induction h with
  | nil context => rfl
  | file h ih => exact ih
  | @task context between context' e task block rest sites hasks hlowers h ih =>
    have hstep : sitesOf context (e :: rest) =
        match e.task? with
        | none => []
        | some task =>
          match task.lowering context with
          | (.ok block, between) => ⟨context, task, block⟩ :: sitesOf between rest
          | (.error _, _) => [] := by
      cases hasks <;> rfl
    rw [hstep, hasks.task?_eq, ← ih]
    simp only [hlowers.lowering]

/-- **The context keeps track of the standing.** -/
theorem standing_eq (h : Translates context all sites context') :
    context'.standing = all.foldl Standing.after context.standing := by
  induction h with
  | nil context => rfl
  | file h ih => exact ih
  | task hasks hlowers h ih => rw [ih, List.foldl_cons, hasks.after_eq, hlowers.standing_eq]

/-- **The sites are the tasks of the events**, each in a context with what stands before it. -/
theorem tasks_eq (h : Translates context all sites context') :
    sites.map (fun site => (site.context.standing, site.task)) = context.standing.tasks all := by
  induction h with
  | nil context => rfl
  | file h ih => exact ih
  | task hasks hlowers h ih =>
    rw [List.map_cons, ih, hlowers.standing_eq, Standing.tasks, hasks.task?_eq, hasks.after_eq]
    rfl

/-- The sites are those of the tasks that the events ask for. -/
theorem map_task (h : Translates context all sites context') :
    sites.map Site.task = all.filterMap Event.task? := by
  induction h with
  | nil context => rfl
  | file h ih => rwa [List.filterMap_cons_none rfl]
  | task hasks hlowers h ih =>
    rw [List.filterMap_cons_some hasks.task?_eq, List.map_cons, ih]

/-- Every line of a program that is translated can be read. -/
theorem exists_of_line (h : Translates context all sites context') {number : Nat} {text : String}
    (hline : .line number text ∈ all) : ∃ c, Command.read text = .ok c := by
  induction h with
  | nil context => exact absurd hline List.not_mem_nil
  | file h ih => exact ih ((List.mem_cons.mp hline).resolve_left (by simp))
  | task hasks hlowers h ih =>
    rcases List.mem_cons.mp hline with rfl | hline
    · cases hasks with
      | line number hread => exact ⟨_, hread⟩
    · exact ih hline

/-- **What is declared** is what was rendered. -/
theorem mem_declared (h : Translates context all sites context') {name : String} :
    name ∈ context'.registry.declared ↔
      name ∈ context.registry.declared ∨ name ∈ context.standing.rendered all := by
  induction h with
  | nil context => exact (or_iff_left List.not_mem_nil).symm
  | file h ih => exact ih
  | task hasks hlowers h ih =>
    rw [ih, hlowers.mem_declared, hlowers.standing_eq, Standing.rendered, List.mem_append,
      hasks.namesAt_eq, hasks.after_eq, or_assoc]

/-- The labels of the blocks are those that were rendered. -/
theorem labelNames_eq (h : Translates context all sites context') :
    labelNames (sites.flatMap Site.block) = context.standing.rendered all := by
  induction h with
  | nil context => rfl
  | file h ih => exact ih
  | task hasks hlowers h ih =>
    rw [List.flatMap_cons, labelNames_append, ih, hlowers.labelNames_eq, hlowers.standing_eq,
      Standing.rendered, hasks.namesAt_eq, hasks.after_eq]

/-- **The labels of a program are all different**, and different from those declared before. -/
theorem nodup (h : Translates context all sites context') :
    (labelNames (sites.flatMap Site.block)).Nodup ∧
      ∀ name ∈ labelNames (sites.flatMap Site.block), name ∉ context.registry.declared := by
  induction h with
  | nil context => exact ⟨List.nodup_nil, fun name h => absurd h List.not_mem_nil⟩
  | file h ih => exact ih
  | @task context between context' e task block rest sites hasks hlowers h ih =>
    obtain ⟨hnodup, hfree⟩ := ih
    rw [List.flatMap_cons, labelNames_append, hlowers.labelNames_eq]
    refine ⟨List.nodup_append.mpr ⟨hlowers.nodup, hnodup, ?_⟩, fun name hname => ?_⟩
    · rintro name hname _ hrest rfl
      exact hfree name hrest (hlowers.mem_declared.mpr (Or.inr hname))
    · rcases List.mem_append.mp hname with hname | hname
      · exact hlowers.free hname
      · exact fun hdeclared => hfree name hname (hlowers.mem_declared.mpr (Or.inl hdeclared))

/-- **The block of each site** is what its task is lowered to. -/
theorem lowers (h : Translates context all sites context') :
    ∀ site ∈ sites, ∃ between, site.task.Lowers site.context site.block between := by
  induction h with
  | nil context => exact fun site hsite => absurd hsite List.not_mem_nil
  | file h ih => exact ih
  | task hasks hlowers h ih => exact List.forall_mem_cons.mpr ⟨⟨_, hlowers⟩, ih⟩

/-- A translation can be cut in two. -/
theorem split {rest : List Event} (h : Translates context (all ++ rest) sites context') :
    ∃ first second between, sites = first ++ second ∧ Translates context all first between ∧
      Translates between rest second context' := by
  induction all generalizing context sites with
  | nil => exact ⟨[], sites, context, rfl, .nil context, h⟩
  | cons e all ih =>
    cases h with
    | file h =>
      obtain ⟨first, second, between, rfl, h₁, h₂⟩ := ih h
      exact ⟨first, second, between, rfl, .file h₁, h₂⟩
    | task hasks hlowers h =>
      obtain ⟨first, second, between, rfl, h₁, h₂⟩ := ih h
      exact ⟨_ :: first, second, between, rfl, .task hasks hlowers h₁, h₂⟩

end Translates

end HackStack
