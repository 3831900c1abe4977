import Mathlib.Algebra.BigOperators.Group.List.Basic
import Mathlib.Algebra.GroupWithZero.Nat
import HackStack.Proofs.Block.Determined
import HackStack.Proofs.Session.Acceptance
import HackStack.Proofs.Session.Statistics

/-!
# The order of the files

Where a file begins, all that stood before it is forgotten but the number of comparisons: it has its
own scope, its own namespace, and it counts its calls anew. So the tasks of a file and what stands
before each are the same behind any other files, up to that number
(`HackStack.Standing.outline_sources`), and the tasks of a program are only put in another order
when the files are.

The comparisons of a program are numbered from one on in either order, so the labels of the two
programs are the same (`HackStack.Standing.rendered_perm`), and that is the invariant which decides
whether a label is free: labels that collide in one order collide in the other. The code of a
command that is no comparison does not show the number
(`HackStack.Standing.code_eq_ok_of_unnumbered`), and the code of a comparison shows it in its labels
alone (`HackStack.Standing.code_comparison`).

The main result is `HackStack.translate_perm`.
-/

namespace HackStack

open Assembly

/-! ### Standings without the number of comparisons -/

/-- The size of a comparison's code is no matter of its labels. -/
theorem size_branches (jump : Jump) (holds done holds' done' : String) :
    size (Block.branches jump holds done) = size (Block.branches jump holds' done') := rfl

namespace Standing

variable {s s' : Standing} {c : Command} {task : Task}

/-- The number of comparisons decides nothing but itself. -/
theorem unnumbered_after (h : s.unnumbered = s'.unnumbered) (e : Event) :
    (s.after e).unnumbered = (s'.after e).unnumbered := by
  obtain ⟨scope, space, calls, comparisons⟩ := s
  obtain ⟨scope', space', calls', comparisons'⟩ := s'
  obtain ⟨rfl, rfl, rfl, -⟩ := Standing.mk.inj h
  cases e with
  | startUp stackBase entry => rfl
  | file source => rfl
  | line number text =>
    rw [after_line, after_line]
    cases Command.read text with
    | error why => rfl
    | ok c => rcases c with _ | _ | (_ | _ | _) | _ | _ | _ | _ | _ | _ <;> rfl

theorem unnumbered_foldl (h : s.unnumbered = s'.unnumbered) (all : List Event) :
    (all.foldl after s).unnumbered = (all.foldl after s').unnumbered := by
  induction all generalizing s s' with
  | nil => exact h
  | cons e rest ih => exact ih (unnumbered_after h e)

/-- The labels of a command that is no comparison do not show the number. -/
theorem names_unnumbered (h : c.isComparison = false) : s.unnumbered.names c = s.names c := by
  rcases c with _ | _ | (_ | _ | _) | _ | _ | _ | _ | _ | _
  case operate.comparison => exact Bool.noConfusion h
  all_goals rfl

/-- **The code of a command that is no comparison** does not show the number. -/
theorem code_eq_ok_of_unnumbered {block : Block} (h : s.code task = .ok block)
    (hs : s'.unnumbered = s.unnumbered) (htask : task.command.isComparison = false) :
    s'.code task = .ok block := by
  obtain ⟨context', hlowers⟩ := lowers_of_code h
  obtain ⟨other', hlowers'⟩ : ∃ other', task.Lowers s'.context block other' :=
    hlowers.of_standing hs (fun hcomparison => Bool.noConfusion (htask.symm.trans hcomparison))
      fun name _ => s'.not_mem_declared_context name
  exact hlowers'.code_eq

/-- **The code of a comparison** shows the number in its labels. -/
theorem code_comparison (s : Standing) (op : Comparison) :
    s.code (.written (.operate (.comparison op))) =
      .ok (Block.branches (Block.condition op) (Label.compare (s.comparisons + 1) .holds).render
        (Label.compare (s.comparisons + 1) .done).render) := by
  have hlowers := @Block.Lowers.comparison s.context op (s.not_mem_declared_context _)
    (s.not_mem_declared_context _)
  exact (Task.Lowers.written hlowers).code_eq

/-- A task has code whatever the number of comparisons is, and code of the same size. -/
theorem exists_code_of_unnumbered {block : Block} (h : s.code task = .ok block)
    (hs : s'.unnumbered = s.unnumbered) :
    ∃ block', s'.code task = .ok block' ∧ size block' = size block := by
  cases htask : task.command.isComparison with
  | false => exact ⟨block, code_eq_ok_of_unnumbered h hs htask, rfl⟩
  | true =>
    obtain ⟨op, rfl⟩ := Task.eq_comparison htask
    rw [code_comparison, Except.ok.injEq] at h
    exact ⟨_, s'.code_comparison op, h ▸ size_branches _ _ _ _ _⟩

/-! ### Outlines -/

/-- **The outline of events**: their tasks, each with what stands before it but for the number of
comparisons. -/
def outline (s : Standing) (all : List Event) : List (Standing × Task) :=
  (s.tasks all).map fun entry => (entry.1.unnumbered, entry.2)

theorem outline_congr (h : s.unnumbered = s'.unnumbered) (all : List Event) :
    s.outline all = s'.outline all := by
  induction all generalizing s s' with
  | nil => rfl
  | cons e rest ih =>
    have htail := ih (unnumbered_after h e)
    rw [outline, outline] at htail
    rw [outline, outline, tasks, tasks, List.map_append, List.map_append, htail]
    cases e.task? with
    | none => rfl
    | some task => exact congrArg (fun s => (s, task) :: _) h

/-- Events are outlined one after the other. -/
theorem outline_append (s : Standing) (all rest : List Event) :
    s.outline (all ++ rest) = s.outline all ++ (all.foldl after s).outline rest := by
  rw [outline, tasks_append, List.map_append, outline, outline]

/-- **A file is outlined in the same way** wherever it stands. -/
theorem outline_source (s s' : Standing) (source : Source) :
    s.outline source.events = s'.outline source.events := by
  have hbegun : (s.beginFile source.space).unnumbered = (s'.beginFile source.space).unnumbered :=
    rfl
  exact outline_congr hbegun ((Text.codeLines source.text).map Event.ofLine)

/-- **The outline of files** is that of each of them. -/
theorem outline_sources (s : Standing) (sources : List Source) :
    s.outline (sources.flatMap Source.events) =
      sources.flatMap fun source => outline {} source.events := by
  induction sources generalizing s with
  | nil => rfl
  | cons first rest ih =>
    rw [List.flatMap_cons, List.flatMap_cons, outline_append, ih, s.outline_source {}]

/-- **The outline of a program** is put in another order with its files. -/
theorem outline_perm {sources sources' : List Source} (h : sources.Perm sources')
    (options : Options) :
    (outline {} (events sources options)).Perm (outline {} (events sources' options)) := by
  have hevents : ∀ sources, outline {} (events sources options) = outline {} options.events ++
      sources.flatMap fun source => outline {} source.events := fun sources => by
    rw [events, outline_append, outline_sources]
  rw [hevents, hevents]
  exact (h.flatMap_right _).append_left _

/-! ### Labels -/

/-- The labels of a task that are not numbered through the program. -/
def ownNames (entry : Standing × Task) : List String :=
  if entry.2.command.isComparison then [] else entry.1.names entry.2.command

/-- The labels of so many comparisons behind an ordinal. -/
def compareNames : Nat → Nat → List String
  | _, 0 => []
  | ordinal, count + 1 =>
    (Label.compare (ordinal + 1) .holds).render :: (Label.compare (ordinal + 1) .done).render ::
      compareNames (ordinal + 1) count

/-- The number of comparisons in an outline. -/
def comparisonsIn (entries : List (Standing × Task)) : Nat :=
  entries.countP fun entry => entry.2.command.isComparison

theorem comparisons_behind (s : Standing) (c : Command) :
    (s.behind c).comparisons = s.comparisons + if c.isComparison then 1 else 0 := by
  rcases c with _ | _ | (_ | _ | _) | _ | _ | _ | _ | _ | _ <;> rfl

/-- An event without a task is no comparison. -/
theorem comparisons_after_of_none {e : Event} (h : e.task? = none) :
    (s.after e).comparisons = s.comparisons := by
  cases e with
  | startUp stackBase entry => cases h
  | file source => rfl
  | line number text =>
    rw [after_line]
    cases hread : Command.read text with
    | error why => rfl
    | ok c =>
      rw [Event.task?, hread] at h
      cases h

/-- **The labels that are rendered** are those of the outline and those of the comparisons, which
are numbered without a gap. -/
theorem rendered_perm (s : Standing) (all : List Event) :
    (s.rendered all).Perm ((s.outline all).flatMap ownNames ++
      compareNames s.comparisons (comparisonsIn (s.outline all))) := by
  induction all generalizing s with
  | nil => exact .refl _
  | cons e rest ih =>
    have hrest := ih (s.after e)
    have houtline : s.outline (e :: rest) =
        (e.task?.map fun task => (s.unnumbered, task)).toList ++ (s.after e).outline rest := by
      rw [outline, outline, tasks, List.map_append]
      cases e.task? <;> rfl
    rw [rendered, houtline]
    cases htask : e.task? with
    | none =>
      rw [comparisons_after_of_none htask] at hrest
      rw [namesAt, htask]
      exact hrest
    | some task =>
      have hasks := Event.asks_of_task? htask
      rw [hasks.after_eq, comparisons_behind] at hrest
      rw [hasks.namesAt_eq, hasks.after_eq]
      have hcons : (Option.map (fun task => (s.unnumbered, task)) (some task)).toList ++
          (s.behind task.command).outline rest =
          (s.unnumbered, task) :: (s.behind task.command).outline rest := rfl
      rw [hcons, List.flatMap_cons, comparisonsIn, List.countP_cons, ownNames]
      cases hcomparison : task.command.isComparison with
      | false =>
        rw [hcomparison] at hrest
        rw [if_neg Bool.false_ne_true, if_neg Bool.false_ne_true, names_unnumbered hcomparison,
          List.append_assoc]
        exact hrest.append_left _
      | true =>
        -- A comparison renders its own labels ahead of all others, which makes no difference.
        rw [hcomparison, if_pos rfl] at hrest
        obtain ⟨op, rfl⟩ := Task.eq_comparison hcomparison
        rw [if_pos rfl, if_pos rfl, List.nil_append, compareNames]
        exact (hrest.append_left _).trans (List.perm_append_comm_assoc _ _ _)

/-- The labels that are rendered by a program are the same in any order of its files. -/
theorem rendered_events_perm {sources sources' : List Source} (h : sources.Perm sources')
    (options : Options) :
    (rendered {} (events sources options)).Perm (rendered {} (events sources' options)) := by
  have houtline := outline_perm h options
  have hcount : comparisonsIn (outline {} (events sources options)) =
      comparisonsIn (outline {} (events sources' options)) := houtline.countP_eq _
  refine (rendered_perm _ _).trans (.trans ?_ (rendered_perm _ _).symm)
  rw [hcount]
  exact (houtline.flatMap_right _).append_right _

/-- The size of the code that a task has behind a standing. -/
def codeSize (entry : Standing × Task) : Nat :=
  match entry.1.code entry.2 with
  | .ok block => size block
  | .error _ => 0

end Standing

/-! ### Programs -/

/-- **The size of a program** is that of the tasks in its outline. -/
theorem Translates.size_eq {context context' : Context} {all : List Event} {sites : List Site}
    (h : Translates context all sites context') :
    size (sites.flatMap Site.block) =
      ((context.standing.outline all).map Standing.codeSize).sum := by
  have hsize : ∀ site ∈ sites, size site.block =
      Standing.codeSize (site.context.standing.unnumbered, site.task) := by
    intro site hsite
    obtain ⟨between, hlowers⟩ := h.lowers site hsite
    obtain ⟨block', hblock', hsize⟩ : ∃ block',
        site.context.standing.unnumbered.code site.task = .ok block' ∧
          size block' = size site.block :=
      Standing.exists_code_of_unnumbered hlowers.code_eq rfl
    rw [Standing.codeSize, hblock', ← hsize]
  have hsum : size (sites.flatMap Site.block) =
      (sites.map fun site => size site.block).sum := by
    clear h hsize
    induction sites with
    | nil => rfl
    | cons site sites ih => rw [List.flatMap_cons, size_append, List.map_cons, List.sum_cons, ih]
  rw [hsum, List.map_congr_left hsize, Standing.outline, ← h.tasks_eq, List.map_map, List.map_map]
  rfl

section Order

variable {sources sources' : List Source} {options : Options}

/-- A program is accepted exactly if its events can be translated. -/
theorem exists_translate_iff :
    (∃ t, translate sources options = .ok t) ↔
      ∃ sites context, Translates {} (events sources options) sites context := by
  constructor
  · rintro ⟨t, ht⟩
    obtain ⟨sites, context, -, htranslates, -⟩ := translates_of_translate ht
    exact ⟨sites, context, htranslates⟩
  · rintro ⟨sites, context, htranslates⟩
    obtain ⟨session, -, hok, -⟩ := translate_of_translates htranslates
    exact ⟨_, hok⟩

/-- **The order of the files decides nothing** about whether a program can be translated. -/
theorem exists_translates_perm (h : sources.Perm sources')
    (htranslates : ∃ sites context, Translates {} (events sources options) sites context) :
    ∃ sites context, Translates {} (events sources' options) sites context := by
  obtain ⟨hread, hcode, hnodup, -⟩ := exists_translates_iff.mp htranslates
  have hevents : (events sources' options).Perm (events sources options) :=
    (h.symm.flatMap_right _).append_left _
  refine exists_translates_iff.mpr ⟨fun number text hline => ?_, fun entry hentry => ?_,
    (Standing.rendered_events_perm h options).nodup_iff.mp hnodup,
    fun _ _ => Std.HashSet.not_mem_empty⟩
  · exact hread number text (hevents.mem_iff.mp hline)
  · -- The task stands in the other program too, behind another number of comparisons.
    have houtline : (entry.1.unnumbered, entry.2) ∈
        Standing.outline {} (events sources options) :=
      (Standing.outline_perm h options).mem_iff.mpr (List.mem_map.mpr ⟨entry, hentry, rfl⟩)
    obtain ⟨other, hother, he⟩ := List.mem_map.mp houtline
    obtain ⟨hstanding, htask⟩ := Prod.mk.inj he
    obtain ⟨block, hblock⟩ := hcode other hother
    rw [htask] at hblock
    obtain ⟨block', hblock', -⟩ := Standing.exists_code_of_unnumbered hblock hstanding.symm
    exact ⟨block', hblock'⟩

/-- The statistics of a program are the same in any order of its files. -/
theorem statisticsOf_perm (h : sources.Perm sources') (options : Options) (instructions : Nat) :
    statisticsOf sources options instructions = statisticsOf sources' options instructions := by
  have hcommands : (commandsOf sources).Perm (commandsOf sources') := h.flatMap_right _
  have hfunctions : (functionsOf sources).Perm (functionsOf sources') := hcommands.filterMap _
  rw [statisticsOf, statisticsOf, h.length_eq, hcommands.length_eq, hfunctions.length_eq,
    hcommands.countP_eq, hcommands.countP_eq]

end Order

/-! ### Lines -/

namespace SourceLine

/-- The same line of the same file, behind other files. -/
def behind (line : SourceLine) (earlier : List Source) : SourceLine := { line with earlier }

/-- What a session does before it comes to a line. -/
def approach (line : SourceLine) : SessionStep (Array Statement) Unit := do
  Session.prologue
  Session.sources line.earlier
  Session.beginFile line.source.file line.source.space
  Session.lines line.above

/-- **A session emits this code on a line**: it comes to the line without a failure, and there it
appends the code to what it has written. -/
def Emits (options : Options) (line : SourceLine) (code : List Statement) : Prop :=
  ∃ session session' : Session (Array Statement),
    line.approach (.fresh options) = (.ok (), session) ∧
      Session.line line.number line.text session = (.ok (), session') ∧
      session'.sink = session.sink ++ code.toArray

/-- **The ordinal of a comparison** on a line. -/
def ordinal (options : Options) (line : SourceLine) : Nat :=
  (standing (line.before options)).comparisons + 1

variable {sources sources' : List Source} {options : Options} {line other : SourceLine}
  {c : Command}

/-- A session comes to a line by way of the events before it. -/
theorem approach_eq (line : SourceLine) (options : Options) :
    line.approach (.fresh options) = Session.meetAll (line.before options) (.fresh options) := by
  have hprologue : Session.prologue (.fresh options) =
      Session.meetAll options.events (.fresh options) := Session.prologue_eq _ options
  rw [approach, before, List.append_assoc, Session.meetAll_append, Step.bind_apply, Step.bind_apply,
    hprologue]
  rcases Session.meetAll options.events (.fresh options) with ⟨why | _, session⟩
  · rfl
  · dsimp only
    rw [Session.meetAll_append, Step.bind_apply, Step.bind_apply, Session.sources_eq]
    rcases Session.meetAll (line.earlier.flatMap Source.events) session with ⟨why | _, session'⟩
    · rfl
    · dsimp only
      rw [Session.lines_eq]
      rfl

/-- **What a session emits on a line** of a program that is translated: the code of the command
behind its standing, and its comment where the session annotates. -/
theorem emits_of_translates (hline : line.OccursIn sources) {sites : List Site} {context : Context}
    (h : Translates {} (events sources options) sites context)
    (hread : Command.read line.text = .ok c) :
    ∃ block, (standing (line.before options)).code (.written c) = .ok block ∧
      line.Emits options ((if options.annotate then [.comment c.render] else []) ++ block) := by
  obtain ⟨after, hafter⟩ := hline.events_eq options
  rw [hafter] at h
  obtain ⟨first, second, between, -, hbefore, hrest⟩ := h.split
  cases hrest with
  | task hasks hlowers _ =>
    cases hasks with
    | @line _ _ c' hread' =>
      obtain rfl := Except.ok.inj (hread.symm.trans hread')
      have hstanding : between.standing = standing (line.before options) := hbefore.standing_eq
      obtain ⟨session, hrun, hdone⟩ := @Session.meetAll_translates (.fresh options) _ _ _ hbefore
      rw [← hdone.context] at hlowers
      obtain ⟨session', hmeet, hline⟩ := Session.meet_task (.line line.number hread) hlowers
      refine ⟨_, hstanding ▸ hdone.context ▸ hlowers.code_eq, session, session',
        (approach_eq line options).trans hrun, hmeet, ?_⟩
      rw [hline.sink, hdone.options]
      simp [codeOf, Site.code, Task.note, Session.fresh]

/-- What stands before a line is what its file has come to. -/
theorem standing_before (line : SourceLine) (options : Options) :
    standing (line.before options) = (line.above.map Event.ofLine).foldl Standing.after
      ((standing (options.events ++ line.earlier.flatMap Source.events)).beginFile
        line.source.space) := by
  rw [before, standing, List.foldl_append]
  rfl

/-- **Behind other files a line stands as before**, but for the number of comparisons. -/
theorem unnumbered_behind (line : SourceLine) (earlier : List Source) (options : Options) :
    (standing ((line.behind earlier).before options)).unnumbered =
      (standing (line.before options)).unnumbered := by
  have hbegun : ∀ before before' : List Event,
      ((standing before).beginFile line.source.space).unnumbered =
        ((standing before').beginFile line.source.space).unnumbered := fun _ _ => rfl
  rw [standing_before, standing_before]
  exact Standing.unnumbered_foldl (hbegun _ _) _

/-- A line of a file stands in any program that the file stands in. -/
theorem OccursIn.exists_behind (hline : line.OccursIn sources) (h : sources.Perm sources') :
    ∃ earlier, (line.behind earlier).OccursIn sources' := by
  obtain ⟨below, later, rfl, hcode⟩ := hline
  obtain ⟨earlier, later', rfl⟩ := List.append_of_mem
    (h.mem_iff.mp (List.mem_append_right line.earlier List.mem_cons_self))
  exact ⟨earlier, below, later', rfl, hcode⟩

/-- Of two lines of a program, one precedes the other. -/
theorem OccursIn.eq_or_precedes (hline : line.OccursIn sources) (hother : other.OccursIn sources) :
    line = other ∨ line.Precedes other ∨ other.Precedes line := by
  obtain ⟨earlier, source, above, number, text⟩ := line
  obtain ⟨earlier', source', above', number', text'⟩ := other
  obtain ⟨below, later, hsources, hcode⟩ := hline
  obtain ⟨below', later', hsources', hcode'⟩ := hother
  rcases Nat.lt_trichotomy earlier.length earlier'.length with hlt | hlength | hlt
  · exact Or.inr (Or.inl (Or.inl hlt))
  · obtain ⟨rfl, hrest⟩ := List.append_inj (hsources.symm.trans hsources') hlength
    obtain rfl : source = source' := (List.cons.inj hrest).1
    rcases Nat.lt_trichotomy above.length above'.length with hlt | habove | hlt
    · exact Or.inr (Or.inl (Or.inr ⟨hlength, hlt⟩))
    · obtain ⟨rfl, hrest⟩ := List.append_inj (hcode.symm.trans hcode') habove
      obtain ⟨rfl, rfl⟩ : number = number' ∧ text = text' :=
        Prod.mk.inj (List.cons.inj hrest).1
      exact Or.inl rfl
    · exact Or.inr (Or.inr (Or.inr ⟨hlength, hlt⟩))
  · exact Or.inr (Or.inr (Or.inl hlt))

/-- A comparison takes its ordinal away from all lines behind it. -/
theorem OccursIn.ordinal_lt (hline : line.OccursIn sources) (hother : other.OccursIn sources)
    (hprecedes : other.Precedes line) {op : Comparison}
    (hread : Command.read other.text = .ok (.operate (.comparison op))) :
    other.ordinal options < line.ordinal options := by
  obtain ⟨between, hbetween⟩ := hline.before_eq hother hprecedes options
  have hle : ∀ (s : Standing) (all : List Event),
      s.comparisons ≤ (all.foldl Standing.after s).comparisons := by
    intro s all
    induction all generalizing s with
    | nil => exact Nat.le_refl _
    | cons e rest ih => exact (Standing.comparisons_le_after s e).trans (ih (s.after e))
  have hstep : ((standing (other.before options)).after
      (.line other.number other.text)).comparisons = other.ordinal options := by
    rw [Standing.after_line, hread]
    rfl
  have hfold : standing (line.before options) = between.foldl Standing.after
      ((standing (other.before options)).after (.line other.number other.text)) := by
    rw [hbetween, standing, List.foldl_append]
    rfl
  rw [← hstep, ordinal, hfold]
  exact Nat.lt_succ_of_le (hle _ between)

/-- **Comparisons have different ordinals.** -/
theorem OccursIn.eq_of_ordinal_eq (hline : line.OccursIn sources) (hother : other.OccursIn sources)
    {op op' : Comparison} (hread : Command.read line.text = .ok (.operate (.comparison op)))
    (hread' : Command.read other.text = .ok (.operate (.comparison op')))
    (he : line.ordinal options = other.ordinal options) : line = other := by
  rcases hline.eq_or_precedes hother with heq | hprecedes | hprecedes
  · exact heq
  · exact absurd he (hother.ordinal_lt hline hprecedes hread).ne
  · exact absurd he (hline.ordinal_lt hother hprecedes hread').ne'

/-- **A line that is no comparison** has the same code behind other files. -/
theorem emits_same {earlier : List Source} (hline : line.OccursIn sources)
    (hbehind : (line.behind earlier).OccursIn sources') {sites sites' : List Site}
    {context context' : Context} (h : Translates {} (events sources options) sites context)
    (h' : Translates {} (events sources' options) sites' context')
    (hread : Command.read line.text = .ok c) (hc : c.isComparison = false) :
    ∃ code, line.Emits options code ∧ (line.behind earlier).Emits options code := by
  obtain ⟨block, hblock, hemits⟩ := emits_of_translates hline h hread
  obtain ⟨block', hblock', hemits'⟩ := emits_of_translates hbehind h' hread
  have hsame := Standing.code_eq_ok_of_unnumbered hblock
    (line.unnumbered_behind earlier options) hc
  obtain rfl := Except.ok.inj (hblock'.symm.trans hsame)
  exact ⟨_, hemits, hemits'⟩

/-- The code of a comparison with an ordinal, as a session writes it. -/
def comparisonCode (options : Options) (op : Comparison) (ordinal : Nat) : List Statement :=
  (if options.annotate then [.comment (Command.operate (.comparison op)).render] else []) ++
    Block.branches (Block.condition op) (Label.compare ordinal .holds).render
      (Label.compare ordinal .done).render

/-- **A comparison** shows its ordinal. -/
theorem emits_comparison (hline : line.OccursIn sources) {sites : List Site} {context : Context}
    (h : Translates {} (events sources options) sites context) {op : Comparison}
    (hread : Command.read line.text = .ok (.operate (.comparison op))) :
    line.Emits options (comparisonCode options op (line.ordinal options)) := by
  obtain ⟨block, hblock, hemits⟩ := emits_of_translates hline h hread
  rw [Standing.code_comparison, Except.ok.injEq] at hblock
  rwa [← hblock] at hemits

end SourceLine

/-- The comparisons of a program are told apart by their ordinals. -/
def ComparisonsApart (sources : List Source) (options : Options) : Prop :=
  ∀ line other : SourceLine, line.OccursIn sources → other.OccursIn sources →
    ∀ op op', Command.read line.text = .ok (.operate (.comparison op)) →
      Command.read other.text = .ok (.operate (.comparison op')) →
      line.ordinal options = other.ordinal options → line = other

/-! ### The main result -/

/-- **The order of the files does not matter.** A program is accepted exactly if it is with its
files in another order. Then the statistics are the same, and so are the names that are declared and
the labels in the code. On each line of each file the same code is emitted, except that a comparison
shows its ordinal in its labels; and in either order the ordinals of all comparisons are
different. -/
theorem translate_perm {sources sources' : List Source} (h : sources.Perm sources')
    (options : Options) :
    ((∃ t, translate sources options = .ok t) ↔ ∃ t, translate sources' options = .ok t) ∧
    (∀ session session', Session.ofSources sources options = .ok session →
      Session.ofSources sources' options = .ok session' →
      session.statistics = session'.statistics ∧
      (∀ name, name ∈ session.context.registry.declared ↔
        name ∈ session'.context.registry.declared) ∧
      (labelNames session.sink.toList).Perm (labelNames session'.sink.toList) ∧
      ∀ line : SourceLine, line.OccursIn sources →
        (∃ earlier, (line.behind earlier).OccursIn sources') ∧
        ∃ c, Command.read line.text = .ok c ∧
          ∀ earlier, (line.behind earlier).OccursIn sources' →
            (c.isComparison = false →
              ∃ code, line.Emits options code ∧ (line.behind earlier).Emits options code) ∧
            ∀ op, c = .operate (.comparison op) →
              line.Emits options (SourceLine.comparisonCode options op (line.ordinal options)) ∧
              (line.behind earlier).Emits options
                (SourceLine.comparisonCode options op ((line.behind earlier).ordinal options))) ∧
    ComparisonsApart sources options ∧ ComparisonsApart sources' options := by
  have hapart : ∀ all, ComparisonsApart all options := fun all line other hline hother op op'
      hread hread' he => hline.eq_of_ordinal_eq hother hread hread' he
  refine ⟨?_, fun session session' hof hof' => ?_, hapart sources, hapart sources'⟩
  · rw [exists_translate_iff, exists_translate_iff]
    exact ⟨exists_translates_perm h, exists_translates_perm h.symm⟩
  · obtain ⟨sites, htranslates, hdone⟩ :=
      Session.translates_of_meetAll (Session.meetAll_of_ofSources hof)
    obtain ⟨sites', htranslates', hdone'⟩ :=
      Session.translates_of_meetAll (Session.meetAll_of_ofSources hof')
    have hrendered := Standing.rendered_events_perm h options
    refine ⟨?_, fun name => ?_, ?_, fun line hline => ⟨hline.exists_behind h, ?_⟩⟩
    · have hsize : size (sites.flatMap Site.block) = size (sites'.flatMap Site.block) := by
        rw [htranslates.size_eq, htranslates'.size_eq]
        exact ((Standing.outline_perm h options).map _).sum_eq
      rw [htranslates.statistics_eq hof, htranslates'.statistics_eq hof', hsize,
        statisticsOf_perm h]
    · exact htranslates.mem_declared.trans <|
        (or_congr_right hrendered.mem_iff).trans htranslates'.mem_declared.symm
    · rw [hdone.code_eq, hdone'.code_eq, labelNames_codeOf, labelNames_codeOf,
        htranslates.labelNames_eq, htranslates'.labelNames_eq]
      exact hrendered
    · obtain ⟨after, hafter⟩ := hline.events_eq options
      obtain ⟨c, hread⟩ := htranslates.exists_of_line
        (hafter ▸ List.mem_append_right _ List.mem_cons_self)
      refine ⟨c, hread, fun earlier hbehind => ⟨fun hc => ?_, fun op hop => ?_⟩⟩
      · exact SourceLine.emits_same hline hbehind htranslates htranslates' hread hc
      · subst hop
        exact ⟨SourceLine.emits_comparison hline htranslates hread,
          SourceLine.emits_comparison hbehind htranslates' hread⟩

/-- Two files with a comparison each. -/
def comparing : List Source := [⟨"A.vm", "A", "eq"⟩, ⟨"B.vm", "B", "lt"⟩]

/-- Behind the other file, the first comparison becomes the second. -/
theorem comparing_swapped :
    (∃ t, translate comparing.reverse {} = .ok t) ∧
    ∃ (line : SourceLine) (earlier : List Source),
      line.OccursIn comparing ∧ (line.behind earlier).OccursIn comparing.reverse ∧
      line.ordinal {} = 1 ∧ (line.behind earlier).ordinal {} = 2 ∧
      line.Emits {} (SourceLine.comparisonCode {} .eq 1) ∧
      (line.behind earlier).Emits {} (SourceLine.comparisonCode {} .eq 2) := by
  have hnone : ∀ label : Label, ¬Context.Taken {} label := fun _ => Std.HashSet.not_mem_empty
  have htranslates : ∃ sites context, Translates {} (events comparing {}) sites context := by
    refine ⟨_, _, .file (.task (.line 1 (c := .operate (.comparison .eq)) rfl)
      (.written (.comparison .eq (hnone _) (hnone _)))
      (.file (.task (.line 1 (c := .operate (.comparison .lt)) rfl)
        (.written (.comparison .lt ?_ ?_)) (.nil _))))⟩
    all_goals exact Context.not_taken_declaring (by decide) (Context.not_taken_declaring (by decide)
      (hnone _))
  obtain ⟨hiff, hsame, -⟩ := translate_perm comparing.reverse_perm.symm {}
  have hswapped := hiff.mp (exists_translate_iff.mpr htranslates)
  obtain ⟨sites, context, htranslates⟩ := htranslates
  obtain ⟨session, hof, -⟩ := translate_of_translates htranslates
  obtain ⟨sites', context', htranslates'⟩ := exists_translate_iff.mp hswapped
  obtain ⟨session', hof', -⟩ := translate_of_translates htranslates'
  obtain ⟨-, -, -, hlines⟩ := hsame session session' hof hof'
  have hline : (⟨[], comparing[0], [], 1, "eq"⟩ : SourceLine).OccursIn comparing :=
    ⟨[], [comparing[1]], rfl, rfl⟩
  have hbehind : ((⟨[], comparing[0], [], 1, "eq"⟩ : SourceLine).behind
      [comparing[1]]).OccursIn comparing.reverse := ⟨[], [], rfl, rfl⟩
  obtain ⟨-, c, hread, hcode⟩ := hlines _ hline
  obtain rfl : c = .operate (.comparison .eq) := Except.ok.inj (hread.symm.trans rfl)
  obtain ⟨hemits, hemits'⟩ := (hcode _ hbehind).2 .eq rfl
  exact ⟨hswapped, _, _, hline, hbehind, rfl, rfl, hemits, hemits'⟩

end HackStack
