import HackStack.Proofs.Session.Order

/-!
# Programs with and without a start

The code that starts a program up is found in the same context as the rest, before the first file.
What it leaves behind there is a call that was counted and a name that was declared. The first file
forgets the call, as it forgets everything that stood before it; the name is that of a return
address outside of any scope, and no label of a file is called like it
(`HackStack.ne_startReturn`). So the files are translated to the same code with a start as without
one (`HackStack.Translates.exists_behind_start`), and stop at the same place for the same reason
(`HackStack.translate_startUp_of_stops`).

The main result is `HackStack.translate_startUp`.
-/

namespace HackStack

open Assembly

/-! ### The label of the start -/

/-- The label that the call before the first file returns to. -/
def startReturn : String := "$ret.1"

/-- A label of a scope with a name is not called like that of the start. -/
theorem Label.ne_startReturn {label : Label} {tail : String} (htail : label.tail? = some tail)
    (hhead : label.head ≠ "") : label.render ≠ startReturn := by
  intro he
  have hlist := render_of_tail?_eq_some htail
  rw [he] at hlist
  -- Of the characters of the name only the first is a `$`, and it stands behind the head.
  cases hchars : label.head.toList with
  | nil => exact hhead (String.toList_inj.mp hchars)
  | cons first rest =>
    rw [hchars, List.cons_append] at hlist
    have hmem : '$' ∈ rest ++ '$' :: tail.toList :=
      List.mem_append_right _ List.mem_cons_self
    rw [← (List.cons.inj (hlist : '$' :: "ret.1".toList = _)).2] at hmem
    exact absurd hmem (by decide)

section

variable {sources : List Source} {options : Options}

/-- Where files have names, so have all scopes of the program. -/
theorem qualifier_ne_empty (hspaces : ∀ source ∈ sources, source.space ≠ "") {scope : Scope}
    (hscope : scope.OccursIn sources) (hne : scope ≠ .startUp) : scope.qualifier ≠ "" := by
  cases scope with
  | startUp => exact absurd rfl hne
  | file space =>
    obtain ⟨source, hsource, rfl⟩ := hscope
    exact hspaces source hsource
  | function name =>
    obtain ⟨c, hc, hname⟩ := List.mem_filterMap.mp hscope
    obtain ⟨locals, rfl⟩ := Command.declaredFunction?_eq_some.mp hname
    exact (written_of_mem_commandsOf hc).1.2

/-- Without a start, all tasks of a program are commands of its files. -/
theorem exists_written_of_mem_tasks {s : Standing} {task : Task}
    (h : (s, task) ∈ Standing.tasks {} (events sources { options with startUp := false })) :
    ∃ c, task = .written c := by
  obtain ⟨e, he, htask⟩ := Standing.mem_tasks.mp ⟨s, h⟩
  have hfiles : e ∈ sources.flatMap Source.events := he
  cases Event.asks_of_task? htask with
  | startUp stackBase name => exact absurd hfiles startUp_not_mem_flatMap_events
  | line number hread => exact ⟨_, rfl⟩

/-- **No label of a file is called like that of the start.** -/
theorem ne_startReturn (hspaces : ∀ source ∈ sources, source.space ≠ "")
    (hfunctions : startReturn ∉ functionsOf sources) {name : String}
    (h : name ∈ Standing.rendered {} (events sources { options with startUp := false })) :
    name ≠ startReturn := by
  rw [Standing.rendered_eq, List.mem_map] at h
  obtain ⟨label, hlabel, rfl⟩ := h
  have hoccurs : label.OccursIn sources := occursIn_of_mem_placed hlabel
  obtain ⟨⟨s, task⟩, hentry, hmem⟩ := Standing.mem_placed.mp hlabel
  obtain ⟨c, rfl⟩ := exists_written_of_mem_tasks hentry
  have hscope : s.scope ≠ .startUp := scope_ne_startUp hentry
  cases label with
  | entry name => exact fun he => hfunctions (he ▸ hoccurs)
  | user scope name =>
    obtain ⟨-, rfl⟩ := Standing.user_mem_labels.mp hmem
    exact Label.ne_startReturn rfl (qualifier_ne_empty hspaces hoccurs.1 hscope)
  | returnTo scope ordinal =>
    obtain ⟨-, rfl, -⟩ := Standing.returnTo_mem_labels.mp hmem
    exact Label.ne_startReturn rfl (qualifier_ne_empty hspaces hoccurs hscope)
  | compare ordinal branch => exact (Label.ne_render_compare (by decide) ordinal branch).symm

/-! ### The context behind the start -/

/-- The context in which a program has been started up. -/
def Context.started : Context := (countingCall {}).declaring startReturn

/-- The block that starts a program up. -/
def startBlock (options : Options) : Block :=
  Block.setUp options.stackBase ++ Block.callReturningTo startReturn options.entry 0

theorem startUp_lowers (hbase : options.stackBase ≤ MemoryMap.maxAddress) :
    (Task.startUp options.stackBase options.entry).Lowers {} (startBlock options) .started :=
  .startUp hbase (.call (by decide) Std.HashSet.not_mem_empty)

theorem Context.mem_started {name : String} :
    name ∈ started.registry.declared ↔ name = startReturn :=
  mem_declaring.trans (or_iff_left Std.HashSet.not_mem_empty)

end

/-- **Files are translated to the same code behind a start**, and leave the same behind but for the
label of the start. -/
theorem Translates.exists_behind_start {first : Source} {rest : List Event} {sites : List Site}
    {context : Context} (h : Translates {} (.file first :: rest) sites context)
    (hne : ∀ name ∈ Standing.rendered {} (.file first :: rest), name ≠ startReturn) :
    ∃ sites' context', Translates .started (.file first :: rest) sites' context' ∧
      sites'.map (fun site => (site.task, site.block)) =
        sites.map (fun site => (site.task, site.block)) ∧
      context'.standing = context.standing ∧
      ∀ name, name ∈ context'.registry.declared ↔
        name = startReturn ∨ name ∈ context.registry.declared := by
  cases h with
  | task hasks _ _ => cases hasks
  | file h =>
    -- Where the file begins, the call before it is forgotten.
    have hbegun : (Context.started.beginFile first.space).standing =
        (Context.beginFile first.space {}).standing := rfl
    obtain ⟨sites', context', h', hsites⟩ := h.of_standing hbegun fun name hname hdeclared =>
      hne name hname (Context.mem_started.mp hdeclared)
    refine ⟨sites', context', .file h', hsites, ?_, fun name => ?_⟩
    · rw [h'.standing_eq, h.standing_eq, hbegun]
    · rw [h'.mem_declared, h.mem_declared, hbegun]
      refine or_congr Context.mem_started (or_iff_right ?_).symm
      exact Std.HashSet.not_mem_empty

/-- The code of sites is a matter of their tasks and their blocks. -/
theorem codeOf_congr {annotate : Bool} {sites sites' : List Site}
    (h : sites'.map (fun site => (site.task, site.block)) =
      sites.map fun site => (site.task, site.block)) :
    codeOf annotate sites' = codeOf annotate sites := by
  have hcode : ∀ sites : List Site, codeOf annotate sites =
      (sites.map fun site => (site.task, site.block)).flatMap fun entry =>
        (if annotate then [.comment entry.1.note] else []) ++ entry.2 := fun sites => by
    rw [List.flatMap_map]
    rfl
  rw [hcode, hcode, h]

/-! ### The main result -/

/-- The code that starts a program up. -/
def startUpCode (options : Options) : List Statement :=
  (if options.annotate then [.comment "bootstrap"] else []) ++ startBlock options

/-- **A translation behind the code that starts the program up**, which makes one call. -/
def Translation.startedUp (options : Options) (t : Translation) : Translation where
  code := (startUpCode options ++ t.code.toList).toArray
  statistics := { t.statistics with
    instructions := t.statistics.instructions + size (startBlock options)
    calls := t.statistics.calls + 1 }

section

variable {sources : List Source} {options : Options}

/-- The files of a program begin with a file. -/
theorem flatMap_events_eq (sources : List Source) :
    sources.flatMap Source.events = [] ∨
      ∃ first rest, sources.flatMap Source.events = .file first :: rest := by
  cases sources with
  | nil => exact Or.inl rfl
  | cons first rest => exact Or.inr ⟨first, _, rfl⟩

/-- **A program that is translated without a start** is translated with one, to the same code behind
that of the start. -/
theorem translate_startUp_of_translates (hspaces : ∀ source ∈ sources, source.space ≠ "")
    (hfunctions : startReturn ∉ functionsOf sources)
    (hbase : options.stackBase ≤ MemoryMap.maxAddress) {sites : List Site} {context : Context}
    (h : Translates {} (events sources { options with startUp := false }) sites context) :
    translate sources { options with startUp := true } =
      (translate sources { options with startUp := false }).map (.startedUp options) := by
  have hne := fun name => @ne_startReturn sources options hspaces hfunctions name
  have hfiles : ∃ sites' context', Translates .started (sources.flatMap Source.events) sites'
      context' ∧ sites'.map (fun site => (site.task, site.block)) =
        sites.map fun site => (site.task, site.block) := by
    change Translates {} (sources.flatMap Source.events) sites context at h
    change ∀ name, name ∈ Standing.rendered {} (sources.flatMap Source.events) → _ at hne
    rcases flatMap_events_eq sources with hnil | ⟨first, rest, hcons⟩
    · rw [hnil] at h ⊢
      cases h
      exact ⟨[], _, .nil _, rfl⟩
    · rw [hcons] at h hne ⊢
      obtain ⟨sites', context', h', hsites, -⟩ := h.exists_behind_start hne
      exact ⟨sites', context', h', hsites⟩
  obtain ⟨sites', context', hfiles, hsites⟩ := hfiles
  have hstarted : Translates {} (events sources { options with startUp := true })
      (⟨{}, .startUp options.stackBase options.entry, startBlock options⟩ :: sites') context' :=
    .task (.startUp _ _) (startUp_lowers hbase) hfiles
  obtain ⟨session, hof, hok, hdone⟩ := translate_of_translates h
  obtain ⟨session', hof', hok', hdone'⟩ := translate_of_translates hstarted
  have hcode : session'.sink.toList = startUpCode options ++ session.sink.toList := by
    rw [hdone'.code_eq, hdone.code_eq, ← codeOf_congr hsites]
    rfl
  have hsize : size (sites'.flatMap Site.block) = size (sites.flatMap Site.block) := by
    rw [← size_codeOf false, codeOf_congr hsites, size_codeOf]
  have hstatistics : session'.statistics = { session.statistics with
      instructions := session.statistics.instructions + size (startBlock options)
      calls := session.statistics.calls + 1 } := by
    rw [hstarted.statistics_eq hof', h.statistics_eq hof, List.flatMap_cons, size_append, hsize,
      statisticsOf, statisticsOf, Nat.add_comm (size (startBlock options))]
    simp [Nat.add_comm]
  rw [hok, hok', Except.map, Translation.startedUp, ← hcode, ← hstatistics]

/-- **A program that is stopped without a start** is stopped with one too, at the same place and for
the same reason. -/
theorem translate_startUp_of_stops (hspaces : ∀ source ∈ sources, source.space ≠ "")
    (hfunctions : startReturn ∉ functionsOf sources)
    (hbase : options.stackBase ≤ MemoryMap.maxAddress) {before after : List Event} {e : Event}
    {sites : List Site} {context : Context} {why : Fault}
    (hevents : events sources { options with startUp := false } = before ++ e :: after)
    (h : Translates {} before sites context) (hstops : e.Stops context why) :
    translate sources { options with startUp := true } =
      (translate sources { options with startUp := false }).map (.startedUp options) := by
  have hne := fun name => @ne_startReturn sources options hspaces hfunctions name
  rw [hevents, Standing.rendered_append, Standing.rendered] at hne
  -- The event that stops the program is not the beginning of its first file.
  obtain ⟨first, rest, rfl⟩ : ∃ first rest, before = .file first :: rest := by
    have hfiles : sources.flatMap Source.events = before ++ e :: after := hevents
    rcases flatMap_events_eq sources with hnil | ⟨first, rest, hcons⟩
    · rw [hnil] at hfiles
      exact absurd hfiles.symm (by simp)
    · rw [hcons] at hfiles
      cases before with
      | nil =>
        obtain ⟨rfl, -⟩ := List.cons.inj hfiles
        cases hstops with
        | task hasks _ => cases hasks
      | cons _ before =>
        obtain ⟨rfl, -⟩ := List.cons.inj hfiles
        exact ⟨first, before, rfl⟩
  obtain ⟨sites', context', h', -, hstanding, hdeclared⟩ := h.exists_behind_start
    fun name hname => hne name (List.mem_append_left _ hname)
  have hstops' : e.Stops context' why := hstops.of_standing hstanding fun name hname => by
    rw [h.standing_eq] at hname
    exact (hdeclared name).trans
      (or_iff_right (hne name (List.mem_append_right _ (List.mem_append_left _ hname))))
  have hstarted : Translates {} (.startUp options.stackBase options.entry :: .file first :: rest)
      (⟨{}, .startUp options.stackBase options.entry, startBlock options⟩ :: sites') context' :=
    .task (.startUp _ _) (startUp_lowers hbase) h'
  have hevents' : events sources { options with startUp := true } =
      (.startUp options.stackBase options.entry :: .file first :: rest) ++ e :: after :=
    congrArg (_ :: ·) hevents
  rw [translate_of_stops hevents h hstops, translate_of_stops hevents' hstarted hstops']
  rfl

/-- **The start of a program is a prefix.** Where all files have a namespace and no function is
called like the label of the start, a program is translated with a start to the code of the start,
followed by exactly the code without one; and it fails with a start exactly as it does without one.
Then one more call and the instructions of the start are counted. -/
theorem translate_startUp (hspaces : ∀ source ∈ sources, source.space ≠ "")
    (hfunctions : startReturn ∉ functionsOf sources)
    (hbase : options.stackBase ≤ MemoryMap.maxAddress) :
    translate sources { options with startUp := true } =
      (translate sources { options with startUp := false }).map (.startedUp options) := by
  rcases translates_or_stops {} (events sources { options with startUp := false }) with
    ⟨sites, context, h⟩ | ⟨before, e, after, sites, context, why, hevents, h, hstops⟩
  · exact translate_startUp_of_translates hspaces hfunctions hbase h
  · exact translate_startUp_of_stops hspaces hfunctions hbase hevents h hstops

end

/-- A file with a label that is called like the return address of the start, but for its
namespace. -/
def labelled : List Source := [⟨"Main.vm", "Main", "label ret.1\npush constant 7"⟩]

/-- Behind the start the file is translated as before: its label is another one. -/
theorem labelled_startedUp :
    ∃ t, translate labelled {} = .ok t ∧
      translate labelled { startUp := true } = .ok (t.startedUp {}) := by
  have hnone : ∀ label : Label, ¬Context.Taken {} label := fun _ => Std.HashSet.not_mem_empty
  have htranslates : ∃ sites context, Translates {} (events labelled {}) sites context :=
    ⟨_, _, .file (.task (.line 1 (c := .label "ret.1") rfl) (.written (.label (hnone _)))
      (.task (.line 2 (c := .push .constant 7) rfl) (.written (.push rfl)) (.nil _)))⟩
  obtain ⟨t, ht⟩ := exists_translate_iff.mpr htranslates
  have hstarted := @translate_startUp labelled {} (by decide) (by decide) (by decide)
  refine ⟨t, ht, hstarted.trans ?_⟩
  change (translate labelled {}).map _ = _
  rw [ht]
  rfl

end HackStack
