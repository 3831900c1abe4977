import HackStack.Proofs.Block.Plain
import HackStack.Proofs.Command.RoundTrip
import HackStack.Proofs.Rom.Comments
import HackStack.Proofs.Session.Scopes

/-!
# Annotated translations

With annotation, a session writes comments into its code and does nothing else in another way. A
session that has annotated and one that has not are the same but for the comments, at every step
(`HackStack.Session.Blind`, `HackStack.Session.blind_meetAll`); so a translation without annotation
is the annotated one without its comments (`HackStack.translate_unannotated`), and its text
assembles to the same program.

What the comments say is a statement about the sites of the program: every site has one, which is
the written form of its command and is read back to it. The main result is
`HackStack.annotation_is_silent`.
-/

namespace HackStack

open Assembly

/-! ### Blocks -/

/-- A block without comments. -/
def Block.Uncommented (block : Block) : Prop := block.all (!·.isComment) = true

namespace Block

theorem Uncommented.isComment_eq_false {block : Block} (h : block.Uncommented) :
    ∀ s ∈ block, s.isComment = false := by
  intro s hs
  simpa using List.all_eq_true.mp h s hs

theorem uncommented_zeros (locals : Nat) : (zeros locals).Uncommented := by
  rw [zeros]
  split
  · rfl
  · refine List.all_eq_true.mpr fun s hs => ?_
    rcases List.mem_cons.mp hs with rfl | hs
    · rfl
    · obtain ⟨block, hblock, hs⟩ := List.mem_flatten.mp hs
      rw [List.eq_of_mem_replicate hblock] at hs
      have hpush : Uncommented pushD := rfl
      exact List.all_eq_true.mp hpush s hs

/-- **The code of a command** holds no comment. -/
theorem Lowers.uncommented {context context' : Context} {c : Command} {block : Block}
    (h : Lowers context c block context') : block.Uncommented := by
  cases h with
  | @push segment index denoted htarget => cases denoted <;> rfl
  | @pop segment index denoted block htarget hp =>
    cases denoted with
    | immediate value => exact absurd hp (by simp [popTo])
    | direct operand => exact Except.ok.inj hp ▸ rfl
    | indirect pointer offset => exact Except.ok.inj hp ▸ rfl
  | unary op => rfl
  | binary op => rfl
  | comparison op hholds hdone => rfl
  | label hfree => rfl
  | goto target => rfl
  | ifGoto target => rfl
  | @function name locals hfree => exact uncommented_zeros locals
  | call hreach hfree => rfl
  | ret hfunction => rfl

end Block

/-- **The code of a task** holds no comment. -/
theorem Task.Lowers.uncommented {context context' : Context} {task : Task} {block : Block}
    (h : task.Lowers context block context') : block.Uncommented := by
  cases h with
  | startUp hbase h => exact h.uncommented
  | written h => exact h.uncommented

/-! ### Sessions -/

namespace Session

/-- The session that has done the same without annotation. -/
def uncommented (session : Session (Array Statement)) : Session (Array Statement) where
  sink := (Assembly.uncommented session.sink.toList).toArray
  options := { session.options with annotate := false }
  context := session.context
  statistics := session.statistics
  location := session.location

/-- **A step is blind to annotation** if it does the same without, but for the comments. -/
def Blind (step : SessionStep (Array Statement) Unit) : Prop :=
  ∀ session : Session (Array Statement),
    step session.uncommented = ((step session).1, (step session).2.uncommented)

/-- Steps that are blind to annotation are so one after the other. -/
theorem Blind.bind {first second : SessionStep (Array Statement) Unit} (h : Blind first)
    (h' : Blind second) : Blind (first >>= fun _ => second) := by
  intro session
  rw [Step.bind_apply, Step.bind_apply, h session]
  rcases first session with ⟨why | _, between⟩
  · rfl
  · exact h' between

/-- **Writing code is blind to annotation**: what is written beside the block is a comment. -/
theorem blind_lowered {lowering : Lowering Block} (note : String)
    (counted : Statistics → Statistics)
    (h : ∀ context block context', lowering context = (.ok block, context') →
      block.Uncommented) :
    Blind (do
      let block ← lower lowering
      annotate note
      emit block
      count counted) := by
  intro session
  rw [lowered_apply, lowered_apply]
  have hcontext : session.uncommented.context = session.context := rfl
  rw [hcontext]
  rcases hlower : lowering session.context with ⟨why | block, context⟩
  · rfl
  · have hblock := uncommented_eq_self (h _ _ _ hlower).isComment_eq_false
    dsimp only
    rw [writeAll_array, writeAll_array]
    have hsink : session.uncommented.sink ++
        ((if session.uncommented.options.annotate then [Statement.comment note] else []) ++
          block).toArray =
        (Assembly.uncommented (session.sink ++ ((if session.options.annotate then
          [Statement.comment note] else []) ++ block).toArray).toList).toArray := by
      have hnote : Assembly.uncommented
          (if session.options.annotate then [Statement.comment note] else []) = [] := by
        cases session.options.annotate <;> rfl
      simp [uncommented, hnote, hblock]
    exact congrArg (fun sink => (Except.ok (), Session.mk sink _ _ _ _)) hsink

/-- **Every command** is blind to annotation. -/
theorem blind_command (c : Command) : Blind (command c) := by
  intro session
  refine blind_lowered c.render _ (fun context block context' hlower => ?_)
    { session with statistics := session.statistics.countKind c }
  exact (Block.ofCommand_eq_ok.mp hlower).uncommented

/-- **Every event** is blind to annotation. -/
theorem blind_meet (e : Event) : Blind (meet e) := by
  cases e with
  | startUp stackBase entry =>
    refine blind_lowered "bootstrap" _ fun context block context' hlower => ?_
    exact (@Task.lowers_of_lowering _ _ (.startUp stackBase entry) _ hlower).uncommented
  | file source => exact fun _ => rfl
  | line number text =>
    intro session
    rw [meet, line_apply, line_apply]
    cases Command.read text with
    | error why => rfl
    | ok c =>
      exact blind_command c { session with location := session.location.withLine number }

/-- **Events are blind to annotation.** -/
theorem blind_meetAll (all : List Event) : Blind (meetAll all) := by
  induction all with
  | nil => exact fun _ => rfl
  | cons e rest ih => exact (blind_meet e).bind ih

end Session

/-! ### Translations -/

/-- A translation without its comments. -/
def Translation.uncommented (t : Translation) : Translation where
  code := (Assembly.uncommented t.code.toList).toArray
  statistics := t.statistics

/-- **Annotation decides nothing but the comments.** -/
theorem translate_unannotated (sources : List Source) (options : Options) :
    translate sources { options with annotate := false } =
      (translate sources { options with annotate := true }).map Translation.uncommented := by
  have hevents : events sources { options with annotate := false } =
      events sources { options with annotate := true } := rfl
  have hblind := Session.blind_meetAll (events sources { options with annotate := true })
    (.fresh { options with annotate := true })
  rw [translate, translate, Session.ofSources_eq, Session.ofSources_eq, hevents]
  rcases hmeet : Session.meetAll (events sources { options with annotate := true })
    (.fresh { options with annotate := true }) with ⟨why | _, session⟩
  all_goals
    rw [hmeet] at hblind
    rw [show Session.meetAll _ { sink := #[], options := { options with annotate := true } } = _
        from hmeet,
      show Session.meetAll _ { sink := #[], options := { options with annotate := false } } = _
        from hblind]
    rfl

/-! ### Comments -/

/-- The tasks before the first file. -/
def Options.tasks (options : Options) : List Task :=
  if options.startUp then [.startUp options.stackBase options.entry] else []

/-- The tasks of a file are its commands. -/
theorem Source.filterMap_task?_events (source : Source) :
    source.events.filterMap Event.task? = source.commands.map Task.written := by
  rw [Source.events, List.filterMap_cons_none rfl, List.filterMap_map, Source.commands,
    List.map_filterMap]
  refine List.filterMap_congr fun line _ => ?_
  rw [Function.comp_apply, Event.ofLine, Event.task?]
  cases Command.read line.2 <;> rfl

/-- **The tasks of a program**: its start, and then its commands. -/
theorem filterMap_task?_events (sources : List Source) (options : Options) :
    (events sources options).filterMap Event.task? =
      options.tasks ++ (commandsOf sources).map Task.written := by
  have hstart : options.events.filterMap Event.task? = options.tasks := by
    rw [Options.events, Options.tasks]
    split <;> rfl
  rw [events, List.filterMap_append, hstart, List.filterMap_flatMap, commandsOf, List.map_flatMap]
  exact congrArg _ (List.flatMap_congr fun source _ => source.filterMap_task?_events)

/-- **The sites of a program** are its start, if it has one, and its commands. -/
theorem Translates.map_task_events {sources : List Source} {options : Options} {sites : List Site}
    {context context' : Context} (h : Translates context (events sources options) sites context') :
    sites.map Site.task = options.tasks ++ (commandsOf sources).map Task.written :=
  h.map_task.trans (filterMap_task?_events sources options)

/-- The comments of a program with annotation are the notes of its sites. -/
theorem comments_codeOf {sites : List Site} (h : ∀ site ∈ sites, site.block.Uncommented) :
    comments (codeOf true sites) = (sites.map Site.task).map Task.note := by
  induction sites with
  | nil => rfl
  | cons site rest ih =>
    obtain ⟨hsite, hrest⟩ := List.forall_mem_cons.mp h
    have hcode : comments (site.code true) = [site.task.note] := by
      rw [Site.code, comments_append, comments_eq_nil hsite.isComment_eq_false, List.append_nil]
      rfl
    rw [codeOf, List.flatMap_cons, comments_append, hcode]
    exact congrArg (site.task.note :: ·) (ih hrest)

/-- **What an annotated program looks like**: it is its commands, each as a comment immediately
before its code. -/
structure Annotates (sources : List Source) (options : Options) (code : List Statement) :
    Prop where
  /-- Every site begins with its comment. -/
  code_eq : code = (sitesOf {} (events sources options)).flatMap fun site =>
    .comment site.task.note :: site.block
  /-- There is no other comment. -/
  uncommented : ∀ site ∈ sitesOf {} (events sources options), site.block.Uncommented
  /-- The block of a site is the code of its task. -/
  lowers : ∀ site ∈ sitesOf {} (events sources options),
    ∃ behind, site.task.Lowers site.context site.block behind
  /-- There is a site for the start of the program, if it has one, and then one for each command. -/
  tasks_eq : (sitesOf {} (events sources options)).map Site.task =
    options.tasks ++ (commandsOf sources).map Task.written
  /-- The lines of the files are read to the commands. -/
  read_lines : (sources.flatMap fun source => Text.codeLines source.text).map
    (fun line => Command.read line.2) = (commandsOf sources).map Except.ok
  /-- The comments are the written forms of the commands. -/
  comments_eq : comments code =
    (if options.startUp then ["bootstrap"] else []) ++ (commandsOf sources).map Command.render
  /-- The comments are read back to the commands. -/
  read_comments : ((commandsOf sources).map Command.render).map Command.read =
    (commandsOf sources).map Except.ok

/-- The lines of a program that is translated are read to its commands. -/
theorem Translates.read_lines {sources : List Source} {options : Options} {sites : List Site}
    {context : Context} (h : Translates {} (events sources options) sites context) :
    (sources.flatMap fun source => Text.codeLines source.text).map
      (fun line => Command.read line.2) = (commandsOf sources).map Except.ok := by
  rw [commandsOf, List.map_flatMap, List.map_flatMap]
  refine List.flatMap_congr fun source hsource => ?_
  rw [Source.commands, List.map_filterMap, ← List.filterMap_eq_map']
  refine List.filterMap_congr fun line hline => ?_
  obtain ⟨c, hread⟩ := h.exists_of_line (line_mem_events.mpr ⟨source, hsource, hline⟩)
  rw [hread]
  rfl

/-- **An annotated translation shows its commands.** -/
theorem annotates_of_translate {sources : List Source} {options : Options} {t : Translation}
    (ht : translate sources { options with annotate := true } = .ok t) :
    Annotates sources options t.code.toList := by
  obtain ⟨sites, context, -, htranslates, -⟩ := translates_of_translate ht
  have hevents : events sources { options with annotate := true } = events sources options := rfl
  have hcode : t.code.toList = codeOf true sites := htranslates.code_eq ht
  rw [hevents] at htranslates
  have hsites := htranslates.sitesOf_eq
  have huncommented : ∀ site ∈ sites, site.block.Uncommented := fun site hsite =>
    let ⟨_, hlowers⟩ := htranslates.lowers site hsite
    hlowers.uncommented
  have htasks : sites.map Site.task = options.tasks ++ (commandsOf sources).map Task.written :=
    htranslates.map_task.trans (filterMap_task?_events sources options)
  refine ⟨hsites ▸ hcode, hsites ▸ huncommented, hsites ▸ htranslates.lowers, hsites ▸ htasks,
    htranslates.read_lines, ?_, ?_⟩
  · rw [hcode, comments_codeOf huncommented, htasks, List.map_append, List.map_map, Options.tasks]
    split <;> rfl
  · rw [List.map_map]
    exact List.map_congr_left fun c hc => (written_of_mem_commandsOf hc).read_render

/-- The comments of an annotated program stand on one line each. -/
theorem Annotates.newline_not_mem {sources : List Source} {options : Options}
    {code : List Statement} (h : Annotates sources options code) {s : Statement} (hs : s ∈ code)
    (hcomment : s.isComment) : '\n' ∉ s.render.toList := by
  rw [h.code_eq] at hs
  obtain ⟨site, hsite, hs⟩ := List.mem_flatMap.mp hs
  rcases List.mem_cons.mp hs with rfl | hs
  · have htask : site.task ∈ options.tasks ++ (commandsOf sources).map Task.written :=
      h.tasks_eq ▸ List.mem_map.mpr ⟨site, hsite, rfl⟩
    have hnamed : site.task.Named := by
      rcases List.mem_append.mp htask with hstart | hwritten
      · rw [Options.tasks] at hstart
        split at hstart
        · rw [List.mem_singleton.mp hstart]
          trivial
        · exact absurd hstart List.not_mem_nil
      · obtain ⟨c, hc, htask⟩ := List.mem_map.mp hwritten
        exact htask ▸ written_of_mem_commandsOf hc
    exact hnamed.plain_note.newline_not_mem
  · rw [(h.uncommented site hsite).isComment_eq_false s hs] at hcomment
    exact Bool.noConfusion hcomment

/-- **Annotation changes nothing but the comments, and the comments are the program.** For every
program, with annotation or without, the translation fails with the same error, or it succeeds with
the same statistics and the same code but for the comments. Then both texts assemble to the same
program – or fail with the same error, up to the number of the line – and the comments are the
commands of the program, each immediately before its code. -/
theorem annotation_is_silent (sources : List Source) (options : Options) :
    (∃ e, translate sources { options with annotate := true } = .error e ∧
      translate sources { options with annotate := false } = .error e) ∨
    ∃ t, translate sources { options with annotate := true } = .ok t ∧
      translate sources { options with annotate := false } = .ok t.uncommented ∧
      (assemble t.uncommented.text).mapError AssemblyError.forgetLine =
        (assemble t.text).mapError AssemblyError.forgetLine ∧
      Annotates sources options t.code.toList := by
  have hplain := translate_unannotated sources options
  cases ht : translate sources { options with annotate := true } with
  | error e => exact Or.inl ⟨e, rfl, by rw [hplain, ht]; rfl⟩
  | ok t =>
    have hannotates := annotates_of_translate ht
    refine Or.inr ⟨t, rfl, by rw [hplain, ht]; rfl, ?_, hannotates⟩
    have htext : t.uncommented.text = listing (Assembly.uncommented t.code.toList) := by
      rw [Translation.text, Translation.uncommented, List.toList_toArray]
    rw [htext, Translation.text]
    exact assemble_uncommented fun s hs hcomment => hannotates.newline_not_mem hs hcomment

end HackStack
