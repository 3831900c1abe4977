import HackStack.Proofs.Block.Task

/-!
# What decides the code of a task

A context holds a standing and the names that are taken. The standing alone decides what the code of
a task is (`HackStack.Standing.code`), and the names decide only whether the task gets it: a task is
lowered exactly if its standing allows for it and its labels are free
(`HackStack.Task.exists_lowers_iff`).

So two contexts with the same standing lower a task to the same code, or refuse it for the same
reason, as long as the labels of the task are free or taken in both
(`HackStack.Block.Lowers.of_standing`, `HackStack.Block.Faults.of_standing`). The number of
comparisons is seen by comparisons alone. Of a whole list of events the same is true of all the
labels that they render (`HackStack.Translates.of_standing`), and whether the events can be
translated at all can be read off the list (`HackStack.exists_translates_iff`).
-/

namespace HackStack

open Assembly

/-! ### What a command sees -/

/-- A command compares two words. -/
def Command.isComparison : Command → Bool
  | operate (.comparison _) => true
  | operate (.unary _) | operate (.binary _) | push _ _ | pop _ _ | label _ | goto _ | ifGoto _
  | function _ _ | call _ _ | ret => false

/-- A command is a call. -/
def Command.isCall : Command → Bool
  | call _ _ => true
  | push _ _ | pop _ _ | operate _ | label _ | goto _ | ifGoto _ | function _ _ | ret => false

/-- A task that compares two words is a command of a file. -/
theorem Task.eq_comparison {task : Task} (h : task.command.isComparison = true) :
    ∃ op, task = .written (.operate (.comparison op)) := by
  rcases task with _ | (_ | _ | (_ | _ | op) | _ | _ | _ | _ | _ | _)
  case written.operate.comparison => exact ⟨op, rfl⟩
  all_goals exact Bool.noConfusion h

/-- What stands before a command, but for the number of comparisons. -/
def Standing.unnumbered (s : Standing) : Standing := { s with comparisons := 0 }

/-! ### Contexts with the same standing -/

namespace Block

/-- What a segment and an index denote depends on the namespace alone. -/
theorem target_congr {context other : Context} (h : other.statics = context.statics)
    (segment : Segment) (index : Nat) :
    target other segment index = target context segment index := by
  rw [target, target]
  cases segment with
  | static => rw [targetInBounds, targetInBounds, Context.staticSymbol, Context.staticSymbol, h]
  | _ => rfl

variable {context context' other : Context} {c : Command}

/-- **The standing decides the code**: a command that is lowered has the same code wherever it
stands alike and its labels are free. Only a comparison sees the number of comparisons. -/
theorem Lowers.of_standing {block : Block} (h : Lowers context c block context')
    (hs : other.standing.unnumbered = context.standing.unnumbered)
    (hnumber : c.isComparison = true → other.standing.comparisons = context.standing.comparisons)
    (hfree : ∀ name ∈ context.standing.names c, name ∉ other.registry.declared) :
    ∃ other', Lowers other c block other' := by
  obtain ⟨⟨comparisons, calls, declared⟩, scope, statics⟩ := context
  obtain ⟨⟨comparisons', calls', declared'⟩, scope', statics'⟩ := other
  obtain ⟨rfl, rfl, rfl, -⟩ := Standing.mk.inj hs
  cases h with
  | push htarget => exact ⟨_, .push ((target_congr rfl _ _).trans htarget)⟩
  | pop htarget hp => exact ⟨_, .pop ((target_congr rfl _ _).trans htarget) hp⟩
  | unary op => exact ⟨_, .unary op⟩
  | binary op => exact ⟨_, .binary op⟩
  | comparison op hholds hdone =>
    obtain rfl : comparisons' = comparisons := hnumber rfl
    exact ⟨_, .comparison op (hfree _ List.mem_cons_self)
      (hfree _ (List.mem_cons_of_mem _ List.mem_cons_self))⟩
  | label h => exact ⟨_, .label (hfree _ List.mem_cons_self)⟩
  | goto target => exact ⟨_, .goto target⟩
  | ifGoto target => exact ⟨_, .ifGoto target⟩
  | function h => exact ⟨_, .function (hfree _ List.mem_cons_self)⟩
  | call hreach h => exact ⟨_, .call hreach (hfree _ List.mem_cons_self)⟩
  | ret h => exact ⟨_, .ret h⟩

/-- **A command that faults** does so for the same reason wherever it stands alike and the same of
its labels are taken. -/
theorem Faults.of_standing {why : Fault} (h : Faults context c why context')
    (hs : other.standing = context.standing)
    (hsame : ∀ name ∈ context.standing.names c,
      name ∈ other.registry.declared ↔ name ∈ context.registry.declared) :
    ∃ other', Faults other c why other' := by
  obtain ⟨⟨comparisons, calls, declared⟩, scope, statics⟩ := context
  obtain ⟨⟨comparisons', calls', declared'⟩, scope', statics'⟩ := other
  obtain ⟨rfl, rfl, rfl, rfl⟩ := Standing.mk.inj hs
  cases h with
  | push htarget => exact ⟨_, .push ((target_congr rfl _ _).trans htarget)⟩
  | pop htarget => exact ⟨_, .pop ((target_congr rfl _ _).trans htarget)⟩
  | popTo htarget hp => exact ⟨_, .popTo ((target_congr rfl _ _).trans htarget) hp⟩
  | comparisonHolds op h =>
    exact ⟨_, .comparisonHolds op ((hsame _ List.mem_cons_self).mpr h)⟩
  | comparisonDone op hholds h =>
    exact ⟨_, .comparisonDone op (fun htaken => hholds ((hsame _ List.mem_cons_self).mp htaken))
      ((hsame _ (List.mem_cons_of_mem _ List.mem_cons_self)).mpr h)⟩
  | label h => exact ⟨_, .label ((hsame _ List.mem_cons_self).mpr h)⟩
  | function h => exact ⟨_, .function ((hsame _ List.mem_cons_self).mpr h)⟩
  | arguments h => exact ⟨_, .arguments h⟩
  | call hreach h => exact ⟨_, .call hreach ((hsame _ List.mem_cons_self).mpr h)⟩
  | ret h => exact ⟨_, .ret h⟩

end Block

namespace Task

variable {context context' other : Context} {task : Task}

theorem Lowers.of_standing {block : Block} (h : task.Lowers context block context')
    (hs : other.standing.unnumbered = context.standing.unnumbered)
    (hnumber : task.command.isComparison = true →
      other.standing.comparisons = context.standing.comparisons)
    (hfree : ∀ name ∈ context.standing.names task.command, name ∉ other.registry.declared) :
    ∃ other', task.Lowers other block other' := by
  cases h with
  | startUp hbase h =>
    obtain ⟨other', h⟩ := h.of_standing hs hnumber hfree
    exact ⟨other', .startUp hbase h⟩
  | written h =>
    obtain ⟨other', h⟩ := h.of_standing hs hnumber hfree
    exact ⟨other', .written h⟩

theorem Faults.of_standing {why : Fault} (h : task.Faults context why context')
    (hs : other.standing = context.standing)
    (hsame : ∀ name ∈ context.standing.names task.command,
      name ∈ other.registry.declared ↔ name ∈ context.registry.declared) :
    ∃ other', task.Faults other why other' := by
  cases h with
  | stackBase hbase => exact ⟨_, .stackBase hbase⟩
  | startUp hbase h =>
    obtain ⟨other', h⟩ := h.of_standing hs hsame
    exact ⟨other', .startUp hbase h⟩
  | written h =>
    obtain ⟨other', h⟩ := h.of_standing hs hsame
    exact ⟨other', .written h⟩

end Task

/-- **An event that stops a translation** does so for the same reason wherever it stands alike and
the same of its labels are taken. -/
theorem Event.Stops.of_standing {context other : Context} {e : Event} {why : Fault}
    (h : e.Stops context why) (hs : other.standing = context.standing)
    (hsame : ∀ name ∈ context.standing.namesAt e,
      name ∈ other.registry.declared ↔ name ∈ context.registry.declared) :
    e.Stops other why := by
  cases h with
  | unread h => exact .unread h
  | task hasks hfaults =>
    rw [hasks.namesAt_eq] at hsame
    obtain ⟨other', hfaults⟩ := hfaults.of_standing hs hsame
    exact .task hasks hfaults

/-- **Events are translated to the same code** wherever they stand alike and the labels that they
render are free. -/
theorem Translates.of_standing {context context' other : Context} {all : List Event}
    {sites : List Site} (h : Translates context all sites context')
    (hs : other.standing = context.standing)
    (hfree : ∀ name ∈ context.standing.rendered all, name ∉ other.registry.declared) :
    ∃ sites' other', Translates other all sites' other' ∧
      sites'.map (fun site => (site.task, site.block)) =
        sites.map fun site => (site.task, site.block) := by
  induction h generalizing other with
  | nil context => exact ⟨[], other, .nil other, rfl⟩
  | @file context context' source rest sites h ih =>
    have hbegun : (other.beginFile source.space).standing =
        (context.beginFile source.space).standing := by
      change other.standing.beginFile source.space = context.standing.beginFile source.space
      rw [hs]
    obtain ⟨sites', other', h', hsites⟩ := ih hbegun hfree
    exact ⟨sites', other', .file h', hsites⟩
  | @task context between context' e task block rest sites hasks hlowers h ih =>
    rw [Standing.rendered, hasks.namesAt_eq, hasks.after_eq] at hfree
    obtain ⟨otherBetween, hlowers'⟩ := hlowers.of_standing (congrArg Standing.unnumbered hs)
      (fun _ => congrArg Standing.comparisons hs)
      fun name hname => hfree name (List.mem_append_left _ hname)
    have hbehind : otherBetween.standing = between.standing := by
      rw [hlowers'.standing_eq, hlowers.standing_eq, hs]
    -- A label further down is free: it was neither taken before, nor is it one of this task.
    obtain ⟨sites', other', h', hsites⟩ := ih hbehind fun name hname hdeclared => by
      rcases hlowers'.mem_declared.mp hdeclared with hold | hnew
      · rw [hlowers.standing_eq] at hname
        exact hfree name (List.mem_append_right _ hname) hold
      · rw [hs] at hnew
        exact h.nodup.2 name (h.labelNames_eq.symm ▸ hname) (hlowers.mem_declared.mpr (Or.inr hnew))
    exact ⟨_, other', .task hasks hlowers' h', congrArg (_ :: ·) hsites⟩

/-! ### The code behind a standing -/

namespace Standing

/-- The context with this standing in which no name is taken. -/
def context (s : Standing) : Context where
  registry := { comparisons := s.comparisons, calls := s.calls }
  scope := s.scope
  statics := s.space

/-- No name is taken there. -/
theorem not_mem_declared_context (s : Standing) (name : String) :
    name ∉ s.context.registry.declared := Std.HashSet.not_mem_empty

/-- **The code of a task** behind a standing, as long as the labels of the task are free. -/
def code (s : Standing) (task : Task) : Except Fault Block := (task.lowering s.context).1

end Standing

/-- A task is lowered to the code that it has behind its standing. -/
theorem Task.Lowers.code_eq {context context' : Context} {task : Task} {block : Block}
    (h : task.Lowers context block context') : context.standing.code task = .ok block := by
  obtain ⟨other', h'⟩ : ∃ other', task.Lowers context.standing.context block other' :=
    h.of_standing rfl (fun _ => rfl) fun name _ => context.standing.not_mem_declared_context name
  rw [Standing.code, h'.lowering]

/-- A task that has code behind a standing is lowered to it where no name is taken. -/
theorem Standing.lowers_of_code {s : Standing} {task : Task} {block : Block}
    (h : s.code task = .ok block) : ∃ context', task.Lowers s.context block context' := by
  rcases task.lowers_or_faults s.context with ⟨block', context', hl⟩ | ⟨why, context', hf⟩
  · rw [code, hl.lowering, Except.ok.injEq] at h
    exact ⟨context', h ▸ hl⟩
  · rw [code, hf.lowering] at h
    exact absurd h (by simp)

/-- **A task is lowered** exactly if it has code behind its standing and its labels are free. -/
theorem Task.exists_lowers_iff {context : Context} {task : Task} {block : Block} :
    (∃ context', task.Lowers context block context') ↔
      context.standing.code task = .ok block ∧
        ∀ name ∈ context.standing.names task.command, name ∉ context.registry.declared := by
  constructor
  · rintro ⟨context', h⟩
    exact ⟨h.code_eq, fun name hname => h.free hname⟩
  · rintro ⟨hcode, hfree⟩
    obtain ⟨other', h⟩ := Standing.lowers_of_code hcode
    exact h.of_standing rfl (fun _ => rfl) hfree

/-- **Which events can be translated**: all their lines can be read, all their tasks have code
behind their standings, and all the labels that they render are different from each other and from
those declared before. -/
theorem exists_translates_iff {context : Context} {all : List Event} :
    (∃ sites context', Translates context all sites context') ↔
      (∀ number text, .line number text ∈ all → ∃ c, Command.read text = .ok c) ∧
      (∀ entry ∈ context.standing.tasks all, ∃ block, entry.1.code entry.2 = .ok block) ∧
      (context.standing.rendered all).Nodup ∧
        ∀ name ∈ context.standing.rendered all, name ∉ context.registry.declared := by
  constructor
  · rintro ⟨sites, context', h⟩
    refine ⟨fun number text hline => h.exists_of_line hline, fun entry hentry => ?_,
      h.labelNames_eq ▸ h.nodup.1,
      fun name hname => h.nodup.2 name (h.labelNames_eq.symm ▸ hname)⟩
    rw [← h.tasks_eq] at hentry
    obtain ⟨site, hsite, rfl⟩ := List.mem_map.mp hentry
    obtain ⟨between, hlowers⟩ := h.lowers site hsite
    exact ⟨_, hlowers.code_eq⟩
  · rintro ⟨hread, hcode, hnodup, hfree⟩
    induction all generalizing context with
    | nil => exact ⟨[], context, .nil context⟩
    | cons e rest ih =>
      have hrest : ∀ number text, .line number text ∈ rest → ∃ c, Command.read text = .ok c :=
        fun number text hline => hread number text (List.mem_cons_of_mem _ hline)
      -- An event that asks for a task leads on to the rest, whose labels are not those of the task.
      have step : ∀ task, e.Asks task →
          ∃ sites context', Translates context (e :: rest) sites context' := by
        intro task hasks
        rw [Standing.tasks, hasks.task?_eq, hasks.after_eq] at hcode
        rw [Standing.rendered, hasks.namesAt_eq, hasks.after_eq] at hnodup hfree
        obtain ⟨-, hnodup, hapart⟩ := List.nodup_append.mp hnodup
        obtain ⟨block, hblock⟩ := hcode _ (List.mem_append_left _ List.mem_cons_self)
        obtain ⟨between, hlowers⟩ := Task.exists_lowers_iff.mpr
          ⟨hblock, fun name hname => hfree name (List.mem_append_left _ hname)⟩
        rw [← hlowers.standing_eq] at hcode hnodup hfree hapart
        obtain ⟨sites, context', h⟩ := ih hrest
          (fun entry hentry => hcode entry (List.mem_append_right _ hentry)) hnodup
          fun name hname hdeclared => by
            rcases hlowers.mem_declared.mp hdeclared with hold | hnew
            · exact hfree name (List.mem_append_right _ hname) hold
            · exact hapart name hnew name hname rfl
        exact ⟨_, context', .task hasks hlowers h⟩
      cases e with
      | startUp stackBase entry => exact step _ (.startUp stackBase entry)
      | file source =>
        obtain ⟨sites, context', h⟩ := @ih (context.beginFile source.space) hrest hcode hnodup hfree
        exact ⟨sites, context', .file h⟩
      | line number text =>
        obtain ⟨c, hc⟩ := hread number text List.mem_cons_self
        exact step _ (.line number hc)

end HackStack
