import HackStack.Proofs.Block.Task
import HackStack.Translation

/-!
# What a session does with a program

A session that writes into an array does with events what `HackStack.Translates` says: it appends
the code of the sites to its sink, counts the instructions of their blocks, and stands behind the
last event (`HackStack.Session.meetAll_translates`). An event that stops the translation makes the
session fail, with the fault at the location of the event (`HackStack.Session.meetAll_stops`).

The translation of a program is what a session does with the program's events: it succeeds when they
are translated (`HackStack.translate_of_translates`), and fails with the first that stops the
translation (`HackStack.translate_of_stops`).
-/

namespace HackStack

open Assembly

/-- A second step runs on the state that has been changed. -/
theorem Step.change_bind {ε σ α : Type} (f : σ → σ) (next : Unit → Step ε σ α) (state : σ) :
    (Step.change f >>= next) state = next () (f state) := rfl

/-- Statements are stored one part after the other. -/
theorem Sink.writeAll_append {σ : Type} [Sink σ] (code more : List Statement) :
    Sink.writeAll (σ := σ) (code ++ more) = Sink.writeAll code >>= fun _ => Sink.writeAll more := by
  induction code with
  | nil => rfl
  | cons s code ih => rw [List.cons_append, Sink.writeAll, Sink.writeAll, ih, bind_assoc]

/-- The statements of a site: its block, behind a comment if the session annotates. -/
def Site.code (annotate : Bool) (site : Site) : List Statement :=
  (if annotate then [.comment site.task.note] else []) ++ site.block

/-- The location at which a session stands after an event. -/
def Location.after (place : Location) : Event → Location
  | .startUp _ _ => place
  | .file source => ⟨source.file, 0⟩
  | .line number _ => place.withLine number

/-- A comment takes no slot. -/
theorem Site.size_code (annotate : Bool) (site : Site) :
    size (site.code annotate) = size site.block := by
  rw [Site.code, size_append]
  cases annotate
  · exact Nat.zero_add _
  · exact Nat.zero_add _

/-- A comment is no label. -/
theorem Site.labelNames_code (annotate : Bool) (site : Site) :
    labelNames (site.code annotate) = labelNames site.block := by
  rw [Site.code, labelNames_append]
  cases annotate <;> rfl

/-- **The code of a program**: that of all its sites. -/
def codeOf (annotate : Bool) (sites : List Site) : List Statement :=
  sites.flatMap (Site.code annotate)

theorem size_codeOf (annotate : Bool) (sites : List Site) :
    size (codeOf annotate sites) = size (sites.flatMap Site.block) := by
  induction sites with
  | nil => rfl
  | cons site sites ih =>
    rw [List.flatMap_cons, size_append, ← ih, ← site.size_code annotate, ← size_append]
    rfl

theorem labelNames_codeOf (annotate : Bool) (sites : List Site) :
    labelNames (codeOf annotate sites) = labelNames (sites.flatMap Site.block) := by
  induction sites with
  | nil => rfl
  | cons site sites ih =>
    rw [List.flatMap_cons, labelNames_append, ← ih, ← site.labelNames_code annotate,
      ← labelNames_append]
    rfl

namespace Session

/-! ### Events, one after the other -/

section Events

variable {σ : Type} [Sink σ]

/-- Do with an event what a translation does. -/
def meet : Event → SessionStep σ Unit
  | .startUp stackBase entry => startUp stackBase entry
  | .file source => beginFile source.file source.space
  | .line number text => line number text

/-- Do with events what a translation does, up to the first failure. -/
def meetAll : List Event → SessionStep σ Unit
  | [] => return ()
  | e :: rest => do
    meet e
    meetAll rest

/-- Events can be cut in two. -/
theorem meetAll_append (before after : List Event) (session : Session σ) :
    meetAll (before ++ after) session =
      (meetAll before >>= fun _ => meetAll after) session := by
  induction before generalizing session with
  | nil => rfl
  | cons e before ih =>
    rw [List.cons_append, meetAll, meetAll, Step.bind_apply, Step.bind_apply, Step.bind_apply]
    rcases meet e session with ⟨_ | _, session'⟩
    · rfl
    · exact (ih session').trans (Step.bind_apply ..)

/-- One event. -/
theorem meetAll_singleton (e : Event) (session : Session σ) :
    meetAll [e] session = meet e session := by
  rw [meetAll, Step.bind_apply]
  rcases meet e session with ⟨_ | _, session'⟩ <;> rfl

/-- The lines of a file are events. -/
theorem lines_eq (code : List (Nat × String)) :
    lines (σ := σ) code = meetAll (code.map Event.ofLine) := by
  induction code with
  | nil => rfl
  | cons line rest ih => rw [List.map_cons, meetAll, ← ih]; rfl

/-- Files are events. -/
theorem sources_eq (all : List Source) (session : Session σ) :
    sources all session = meetAll (all.flatMap Source.events) session := by
  induction all generalizing session with
  | nil => rfl
  | cons first rest ih =>
    have hsource : source (σ := σ) first = meetAll first.events := by
      rw [source, lines_eq]
      rfl
    rw [List.flatMap_cons, meetAll_append, sources, hsource, Step.bind_apply, Step.bind_apply]
    rcases meetAll first.events session with ⟨_ | _, session'⟩
    · rfl
    · exact ih session'

/-- The code before the first file is an event. -/
theorem prologue_eq (sink : σ) (options : Options) :
    prologue { sink, options } = meetAll options.events { sink, options } := by
  have hprologue : prologue { sink, options } =
      (if options.startUp then startUp options.stackBase options.entry else return () :
        SessionStep σ Unit) { sink, options } := rfl
  rw [hprologue, Options.events]
  cases options.startUp
  · rfl
  · rw [if_pos rfl, if_pos rfl, meetAll_singleton]
    rfl

/-- A line is read where it stands. -/
theorem line_apply (number : Nat) (text : String) (session : Session σ) :
    line number text session =
      (match Command.read text with
        | .ok c => command c { session with location := session.location.withLine number }
        | .error why =>
          (.error (.fault (session.location.withLine number) why),
            { session with location := session.location.withLine number })) := by
  rw [line, moveTo, Step.change_bind, Step.bind_apply]
  cases Command.read text with
  | ok c => rfl
  | error why => rfl

/-- **Writing comes last**: code is found in the context as it is, the context is changed, and only
then the sink sees the code. -/
theorem lowered_apply (lowering : Lowering Block) (note : String)
    (counted : Statistics → Statistics) (session : Session σ) :
    (do
      let block ← lower lowering
      annotate note
      emit block
      count counted : SessionStep σ Unit) session =
      match lowering session.context with
      | (.ok block, context) =>
        match Sink.writeAll ((if session.options.annotate then [.comment note] else []) ++ block)
            session.sink with
        | (.ok (), sink) =>
          (.ok (), { session with
            sink, context
            statistics := counted { session.statistics with
              instructions := session.statistics.instructions + size block } })
        | (.error detail, sink) => (.error (.output detail), { session with sink, context })
      | (.error why, context) =>
        (.error (.fault session.location why), { session with context }) := by
  rw [Step.bind_apply, lower]
  rcases lowering session.context with ⟨why | block, context⟩
  · rfl
  · simp only [Step.bind_apply, Sink.writeAll_append, annotate, Step.within, emit, write]
    generalize (if session.options.annotate then [Statement.comment note] else []) = front
    rcases Sink.writeAll front session.sink with ⟨detail | _, sink⟩
    · rfl
    · dsimp only
      rcases Sink.writeAll block sink with ⟨detail | _, sink'⟩ <;> rfl

end Events

/-! ### Finding code -/

section

variable {σ α : Type} {session : Session σ} {lowering : Lowering α} {context : Context}

theorem lower_ok {result : α} (h : lowering session.context = (.ok result, context)) :
    lower lowering session = (.ok result, { session with context }) := by
  rw [lower, h]

/-- A fault arises where the session stands. -/
theorem lower_error {why : Fault} (h : lowering session.context = (.error why, context)) :
    lower lowering session = (.error (.fault session.location why), { session with context }) := by
  rw [lower, h]
  rfl

end

/-! ### Programs as events -/

/-- **A translation is what a session does with the events of the program.** -/
theorem ofSources_eq (sources : List Source) (options : Options) :
    ofSources sources options =
      match meetAll (events sources options) { sink := (#[] : Array Statement), options } with
      | (.ok (), session) => .ok session
      | (.error e, _) => .error e := by
  rw [ofSources, events, meetAll_append, Step.bind_apply, start, prologue_eq]
  rcases meetAll options.events _ with ⟨e | _, session⟩
  · rfl
  · simp only [bind, Except.bind]
    rw [sources_eq]
    rcases meetAll (sources.flatMap Source.events) session with ⟨_ | _, session'⟩ <;> rfl

/-! ### Sessions that write into an array -/

theorem writeAll_array (statements : List Statement) (stored : Array Statement) :
    Sink.writeAll statements stored = (.ok (), stored ++ statements.toArray) := by
  induction statements generalizing stored with
  | nil => simp [Sink.writeAll]
  | cons s rest ih =>
    rw [Sink.writeAll, Step.bind_apply]
    refine (ih (stored.push s)).trans ?_
    simp

variable {session session' session'' : Session (Array Statement)}

theorem write_apply (block : Block) (session : Session (Array Statement)) :
    write block session =
      (.ok (), { session with sink := session.sink ++ block.toArray }) := by
  rw [write, writeAll_array]

theorem annotate_apply (text : String) (session : Session (Array Statement)) :
    annotate text session = (.ok (), { session with
      sink := session.sink ++
        (if session.options.annotate then [.comment text] else []).toArray }) :=
  write_apply _ _

theorem emit_apply (block : Block) (session : Session (Array Statement)) :
    emit block session = (.ok (), { session with
      sink := session.sink ++ block.toArray
      statistics := { session.statistics with
        instructions := session.statistics.instructions + size block } }) := by
  rw [emit, Step.bind_apply, write_apply]
  rfl

/-- **What a session has done with events**: it has appended the code of these sites, counted their
instructions, and stands in this context behind the last event. -/
structure Done (session : Session (Array Statement)) (all : List Event) (sites : List Site)
    (context : Context) (session' : Session (Array Statement)) : Prop where
  sink : session'.sink = session.sink ++ (codeOf session.options.annotate sites).toArray
  options : session'.options = session.options
  context : session'.context = context
  instructions : session'.statistics.instructions =
    session.statistics.instructions + size (sites.flatMap Site.block)
  location : session'.location = all.foldl Location.after session.location

/-- What has been done can be gone on with. -/
theorem Done.append {all rest : List Event} {sites more : List Site} {context context' : Context}
    (h : Done session all sites context session')
    (h' : Done session' rest more context' session'') :
    Done session (all ++ rest) (sites ++ more) context' session'' where
  sink := by
    rw [h'.sink, h.sink, h.options, codeOf, codeOf, codeOf, List.flatMap_append]
    simp
  options := h'.options.trans h.options
  context := h'.context
  instructions := by
    rw [h'.instructions, h.instructions, List.flatMap_append, size_append, Nat.add_assoc]
  location := by rw [h'.location, h.location, List.foldl_append]

/-- A session that has written what a site holds, and has counted this. -/
def wrote (session : Session (Array Statement)) (site : Site) (context : Context)
    (statistics : Statistics) : Session (Array Statement) where
  sink := session.sink ++ (site.code session.options.annotate).toArray
  options := session.options
  context := context
  statistics := statistics
  location := session.location

theorem startUp_ok {stackBase : Nat} {entry : String} {block : Block} {context : Context}
    (h : Block.startUp stackBase entry session.context = (.ok block, context)) :
    startUp stackBase entry session =
      (.ok (), session.wrote ⟨session.context, .startUp stackBase entry, block⟩ context
        { session.statistics with
          instructions := session.statistics.instructions + size block
          calls := session.statistics.calls + 1 }) := by
  rw [startUp, Step.bind_apply, lower_ok h]
  simp only [Step.bind_apply, annotate_apply, emit_apply, count, Step.change]
  simp [wrote, Site.code, Task.note]

/-- What was counted before a command's code was found. -/
theorem instructions_countKind (statistics : Statistics) (c : Command) :
    (statistics.countKind c).instructions = statistics.instructions := by
  rcases c with _ | _ | (_ | _ | _) | _ | _ | _ | _ | _ | _ <;> rfl

theorem command_ok {c : Command} {block : Block} {context : Context}
    (h : Block.ofCommand c session.context = (.ok block, context)) :
    command c session =
      (.ok (), session.wrote ⟨session.context, .written c, block⟩ context
        { session.statistics.countKind c with
          instructions := session.statistics.instructions + size block
          commands := (session.statistics.countKind c).commands + 1 }) := by
  have hlower : lower (Block.ofCommand c)
      { session with statistics := session.statistics.countKind c } = (.ok block, _) := lower_ok h
  rw [command, count, Step.change_bind, Step.bind_apply, hlower]
  simp only [Step.bind_apply, annotate_apply, emit_apply, count, Step.change]
  simp [wrote, Site.code, Task.note, instructions_countKind]

/-- **A session does a task** that can be lowered. -/
theorem meet_task {e : Event} {task : Task} {block : Block} {context : Context}
    (hasks : e.Asks task) (hlowers : task.Lowers session.context block context) :
    ∃ session', meet e session = (.ok (), session') ∧
      Done session [e] [⟨session.context, task, block⟩] context session' := by
  cases hasks with
  | startUp stackBase entry =>
    refine ⟨_, startUp_ok hlowers.lowering, ?_, rfl, rfl, ?_, rfl⟩
    · simp [wrote, codeOf]
    · simp [wrote]
  | @line number text c hread =>
    have hmeet : meet (.line number text) session =
        command c { session with location := session.location.withLine number } := by
      rw [meet, line_apply, hread]
    refine ⟨_, hmeet.trans (command_ok hlowers.lowering), ?_, rfl, rfl, ?_, rfl⟩
    · simp [wrote, codeOf]
    · simp [wrote]

/-- **A session does what events are translated to.** -/
theorem meetAll_translates {all : List Event} {sites : List Site} {context : Context}
    (h : Translates session.context all sites context) :
    ∃ session', meetAll all session = (.ok (), session') ∧
      Done session all sites context session' := by
  induction all generalizing session sites with
  | nil =>
    cases h
    exact ⟨session, rfl, by simp [codeOf], rfl, rfl, by simp, rfl⟩
  | cons e rest ih =>
    cases h with
    | @file _ _ source _ _ h =>
      let begun : Session (Array Statement) := { session with
        context := session.context.beginFile source.space
        statistics := { session.statistics with files := session.statistics.files + 1 }
        location := ⟨source.file, 0⟩ }
      obtain ⟨session', hrun, hdone⟩ := @ih begun _ h
      exact ⟨session', hrun, hdone.sink, hdone.options, hdone.context, hdone.instructions,
        hdone.location⟩
    | task hasks hlowers h =>
      obtain ⟨between, hmeet, hfirst⟩ := meet_task hasks hlowers
      rw [← hfirst.context] at h
      obtain ⟨session', hrun, hrest⟩ := ih h
      refine ⟨session', ?_, hfirst.append hrest⟩
      rw [meetAll, Step.bind_apply, hmeet]
      exact hrun

/-- **A session fails at an event** that stops the translation, with the fault at the location of
the event. -/
theorem meet_stops {e : Event} {why : Fault} (h : e.Stops session.context why) :
    (meet e session).1 = .error (.fault (session.location.after e) why) := by
  cases h with
  | unread h => rw [meet, line_apply, h]; rfl
  | task hasks hfaults =>
    cases hasks with
    | startUp stackBase entry =>
      have hlower : lower (Block.startUp stackBase entry) session =
          (.error (.fault session.location why), _) := lower_error hfaults.lowering
      rw [meet, startUp, Step.bind_apply, hlower]
      rfl
    | @line number text c hread =>
      have hlower : lower (Block.ofCommand c)
          { session with
            location := session.location.withLine number
            statistics := session.statistics.countKind c } =
          (.error (.fault (session.location.withLine number) why), _) :=
        lower_error hfaults.lowering
      rw [meet, line_apply, hread]
      simp only [command, count]
      rw [Step.change_bind, Step.bind_apply, hlower]
      rfl

/-- **A session fails with the first event** that stops the translation. -/
theorem meetAll_stops {before after : List Event} {e : Event} {sites : List Site}
    {context : Context} {why : Fault} (h : Translates session.context before sites context)
    (hstops : e.Stops context why) :
    (meetAll (before ++ e :: after) session).1 =
      .error (.fault ((before.foldl Location.after session.location).after e) why) := by
  obtain ⟨session', hrun, hdone⟩ := meetAll_translates h
  rw [meetAll_append, Step.bind_apply, hrun, meetAll]
  rw [← hdone.context] at hstops
  have hmeet := meet_stops hstops
  rw [← hdone.location]
  simp only [Step.bind_apply]
  rcases hfirst : meet e session' with ⟨why', session''⟩
  rw [hfirst] at hmeet
  obtain rfl : why' = _ := hmeet
  rfl

/-- **A session fails at an event** exactly if the event stops the translation. -/
theorem meet_fault_iff {e : Event} {place : Location} {why : Fault} :
    (meet e session).1 = .error (.fault place why) ↔
      place = session.location.after e ∧ e.Stops session.context why := by
  constructor
  · intro h
    rcases translates_or_stops session.context [e] with
      ⟨sites, context, htranslates⟩ | ⟨before, e', after, sites, context, why', he, hb, hstops⟩
    · obtain ⟨session', hrun, -⟩ := meetAll_translates htranslates
      rw [meetAll_singleton] at hrun
      rw [hrun] at h
      exact absurd h (by simp)
    · obtain ⟨rfl, rfl, rfl⟩ : before = [] ∧ e' = e ∧ after = [] := by
        cases before with
        | nil => exact ⟨rfl, (List.cons.inj he).1.symm, (List.cons.inj he).2.symm⟩
        | cons _ before => exact absurd (List.cons.inj he).2 (by simp)
      cases hb
      rw [meet_stops hstops, Except.error.injEq, Failure.fault.injEq] at h
      obtain ⟨rfl, rfl⟩ := h
      exact ⟨rfl, hstops⟩
  · rintro ⟨rfl, hstops⟩
    exact meet_stops hstops

/-- A session that has met events without a failure has translated them. -/
theorem translates_of_meetAll {all : List Event} (h : meetAll all session = (.ok (), session')) :
    ∃ sites, Translates session.context all sites session'.context ∧
      Done session all sites session'.context session' := by
  rcases translates_or_stops session.context all with
    ⟨sites, context, htranslates⟩ | ⟨before, e, after, sites, context, why, rfl, hb, hstops⟩
  · obtain ⟨session'', hrun, hdone⟩ := meetAll_translates htranslates
    obtain rfl := (Prod.mk.inj (h.symm.trans hrun)).2
    rw [← hdone.context] at htranslates hdone
    exact ⟨sites, htranslates, hdone⟩
  · have herror := @meetAll_stops _ before after _ _ _ _ hb hstops
    rw [h] at herror
    exact absurd herror (by simp)

end Session

/-! ### Programs -/

/-- A session before the first event. -/
def Session.fresh (options : Options) : Session (Array Statement) := { sink := #[], options }

/-- What a session has written from the first event on. -/
theorem Session.Done.code_eq {options : Options} {all : List Event} {sites : List Site}
    {context : Context} {session : Session (Array Statement)}
    (h : Done (.fresh options) all sites context session) :
    session.sink.toList = codeOf options.annotate sites := by
  rw [h.sink]
  simp [fresh]

/-- **A program that can be translated** comes to the sites of its events. -/
theorem translate_of_translates {sources : List Source} {options : Options} {sites : List Site}
    {context : Context} (h : Translates {} (events sources options) sites context) :
    ∃ session, Session.ofSources sources options = .ok session ∧
      translate sources options = .ok ⟨session.sink, session.statistics⟩ ∧
      Session.Done (.fresh options) (events sources options) sites context session := by
  obtain ⟨session, hrun, hdone⟩ := @Session.meetAll_translates (.fresh options) _ _ _ h
  have hof : Session.ofSources sources options = .ok session := by
    rw [Session.ofSources_eq]
    change (match Session.meetAll _ (Session.fresh options) with
      | (.ok (), session) => .ok session
      | (.error e, _) => .error e : Except Failure (Session (Array Statement))) = _
    rw [hrun]
  refine ⟨session, hof, ?_, hdone⟩
  rw [translate, hof]
  rfl

/-- **A program that cannot be translated** fails with the first event that stops the
translation. -/
theorem translate_of_stops {sources : List Source} {options : Options} {before after : List Event}
    {e : Event} {sites : List Site} {context : Context} {why : Fault}
    (hevents : events sources options = before ++ e :: after)
    (h : Translates {} before sites context) (hstops : e.Stops context why) :
    translate sources options =
      .error (.fault ((before.foldl Location.after .unknown).after e) why) := by
  have hrun := @Session.meetAll_stops (.fresh options) before after e sites context why h hstops
  rw [← hevents] at hrun
  have hof : Session.ofSources sources options =
      .error (.fault ((before.foldl Location.after .unknown).after e) why) := by
    rw [Session.ofSources_eq]
    change (match Session.meetAll _ (Session.fresh options) with
      | (.ok (), session) => .ok session
      | (.error e, _) => .error e : Except Failure (Session (Array Statement))) = _
    rcases hmeet : Session.meetAll (events sources options) (Session.fresh options) with
      ⟨result, session⟩
    rw [hmeet] at hrun
    obtain rfl : result = _ := hrun
    rfl
  rw [translate, hof]
  rfl

/-- **A translation comes from the sites of its events.** -/
theorem translates_of_translate {sources : List Source} {options : Options} {t : Translation}
    (h : translate sources options = .ok t) :
    ∃ sites context session, Translates {} (events sources options) sites context ∧
      Session.ofSources sources options = .ok session ∧ t = ⟨session.sink, session.statistics⟩ ∧
      Session.Done (.fresh options) (events sources options) sites context session := by
  rcases translates_or_stops {} (events sources options) with
    ⟨sites, context, htranslates⟩ | ⟨before, e, after, sites, context, why, hevents, hb, hstops⟩
  · obtain ⟨session, hof, htranslate, hdone⟩ := translate_of_translates htranslates
    rw [htranslate, Except.ok.injEq] at h
    exact ⟨sites, context, session, htranslates, hof, h.symm, hdone⟩
  · rw [translate_of_stops hevents hb hstops] at h
    exact absurd h (by simp)

/-- **The code of a translation** is that of the sites of its events. -/
theorem Translates.code_eq {sources : List Source} {options : Options} {sites : List Site}
    {context : Context} (h : Translates {} (events sources options) sites context)
    {t : Translation} (ht : translate sources options = .ok t) :
    t.code.toList = codeOf options.annotate sites := by
  obtain ⟨session, -, hok, hdone⟩ := translate_of_translates h
  obtain rfl := Except.ok.inj (hok.symm.trans ht)
  exact hdone.code_eq

end HackStack
