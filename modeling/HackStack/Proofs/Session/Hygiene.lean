import HackStack.Proofs.Session.Run
import HackStack.Proofs.Session.Scopes

/-!
# Clean names

The registry refuses a name that is taken, and does not ask by what. So a label may be refused
because of another label with which it only shares the name. This file says which names rule that
out, and that a label is then refused exactly where the source repeats itself.

* `HackStack.Hygienic` – scopes are told apart by their names, and no name of the source is one that
  the translation makes up;
* `HackStack.Hygienic.eq_of_render_eq` – in such a program, labels with the same name are one label;
* `HackStack.Command.Repeats` – a command declares what was declared before.

The main result is `HackStack.duplicateLabel_iff_repeats`. It needs no bound on the number of calls
and comparisons, since ordinals are counted without one; counters of 32 bits agree with it below
`2 ^ 32` of each.
-/

namespace HackStack

/-! ### Labels with the same name -/

/-- **The names of a program are clean**: its scopes are told apart by them, no file has an empty
namespace, and neither a label nor a function is called like one that the translation makes up. -/
structure Hygienic (sources : List Source) : Prop extends ScopesApart sources where
  space_ne : ∀ source ∈ sources, source.space ≠ ""
  label_ne : ∀ name ∈ labelsOf sources, ∀ ordinal, name ≠ Label.returnName ordinal
  function_ne : ∀ name ∈ functionsOf sources,
    ∀ ordinal branch, name ≠ (Label.compare ordinal branch).render

namespace Hygienic

variable {sources : List Source}

/-- Only the code before the first file has an empty name. -/
theorem eq_startUp_of_qualifier_eq (h : Hygienic sources) {scope : Scope}
    (hscope : scope.OccursIn sources) (he : scope.qualifier = "") : scope = .startUp := by
  cases scope with
  | startUp => rfl
  | file space =>
    obtain ⟨source, hsource, rfl⟩ := hscope
    exact absurd he (h.space_ne source hsource)
  | function name =>
    obtain ⟨c, hc, hfunction⟩ := List.mem_filterMap.mp hscope
    obtain ⟨locals, rfl⟩ := Command.declaredFunction?_eq_some.mp hfunction
    exact absurd he (written_of_mem_commandsOf hc).1.2

/-- **Scopes with one name are one scope**, the code before the first file included. -/
theorem scope_eq (h : Hygienic sources) {scope other : Scope} (hscope : scope.OccursIn sources)
    (hother : other.OccursIn sources) (he : scope.qualifier = other.qualifier) :
    scope = other := by
  by_cases hstart : scope = .startUp
  · subst hstart
    exact (h.eq_startUp_of_qualifier_eq hother he.symm).symm
  by_cases hstart' : other = .startUp
  · subst hstart'
    exact h.eq_startUp_of_qualifier_eq hscope he
  · exact h.eq_of_qualifier_eq hscope hother hstart hstart' he

/-- **Labels with one name are one label.** -/
theorem eq_of_render_eq (h : Hygienic sources) {label other : Label}
    (hlabel : label.OccursIn sources) (hother : other.OccursIn sources)
    (he : label.render = other.render) : label = other := by
  obtain ⟨hhead, htail⟩ := (Label.render_eq_render_iff (h.dollar_not_mem_head hlabel)
    (h.dollar_not_mem_head hother)).mp he
  -- Labels with a tail belong to scopes, and the others do not.
  cases label with
  | entry name =>
    cases other with
    | entry name' => exact congrArg Label.entry hhead
    | compare ordinal branch => exact absurd hhead (h.function_ne name hlabel ordinal branch)
    | _ => exact absurd htail (by simp [Label.tail?])
  | compare ordinal branch =>
    cases other with
    | entry name => exact absurd hhead.symm (h.function_ne name hother ordinal branch)
    | compare ordinal' branch' =>
      obtain ⟨rfl, rfl⟩ := Label.render_compare_injective hhead
      rfl
    | _ => exact absurd htail (by simp [Label.tail?])
  | user scope name =>
    cases other with
    | user scope' name' =>
      obtain rfl := h.scope_eq hlabel.1 hother.1 hhead
      exact congrArg (Label.user scope) (Option.some.inj htail)
    | returnTo scope' ordinal =>
      exact absurd (Option.some.inj htail) (h.label_ne name hlabel.2 ordinal)
    | _ => exact absurd htail (by simp [Label.tail?])
  | returnTo scope ordinal =>
    cases other with
    | user scope' name =>
      exact absurd (Option.some.inj htail).symm (h.label_ne name hother.2 ordinal)
    | returnTo scope' ordinal' =>
      obtain rfl := h.scope_eq hlabel hother hhead
      exact congrArg (Label.returnTo scope) (Label.returnName_injective (Option.some.inj htail))
    | _ => exact absurd htail (by simp [Label.tail?])

end Hygienic

/-! ### Labels that are refused -/

/-- What a segment and an index denote is no matter of labels. -/
theorem Block.target_ne_duplicateLabel (context : Context) (segment : Segment) (index : Nat)
    (name : String) : target context segment index ≠ .error (.duplicateLabel name) := by
  intro h
  rcases target_eq_error_iff.mp h with ⟨-, hwhy⟩ | ⟨-, -, -, hwhy⟩
  · cases hwhy
  · cases hwhy

/-- **A label is refused** because its name is taken. -/
theorem Block.Faults.taken {context context' : Context} {c : Command} {name : String}
    (h : Faults context c (.duplicateLabel name) context') :
    ∃ label ∈ context.standing.labels c, context.Taken label := by
  cases h with
  | push h => exact absurd h (target_ne_duplicateLabel _ _ _ _)
  | pop h => exact absurd h (target_ne_duplicateLabel _ _ _ _)
  | @popTo _ _ denoted _ h hp =>
    cases denoted with
    | _ => exact absurd hp (by simp [Block.popTo])
  | comparisonHolds op h => exact ⟨_, List.mem_cons_self, h⟩
  | comparisonDone op hholds h => exact ⟨_, List.mem_cons_of_mem _ List.mem_cons_self, h⟩
  | label h => exact ⟨_, List.mem_cons_self, h⟩
  | function h => exact ⟨_, List.mem_cons_self, h⟩
  | call hreach h => exact ⟨_, List.mem_cons_self, h⟩

/-- The name of a command's label is taken. -/
theorem Task.Faults.taken {context context' : Context} {task : Task} {name : String}
    (h : Faults context task (.duplicateLabel name) context') :
    ∃ label ∈ context.standing.labels task.command, context.Taken label := by
  cases h with
  | startUp hbase h => exact h.taken
  | written h => exact h.taken

/-! ### Repetitions -/

/-- **A command repeats one before it**: it declares a function that was declared, or a label that
was declared in the same scope. No other command does. -/
def Command.Repeats (before : List Event) : Command → Prop
  | function name _ => ∃ s locals, (s, .written (.function name locals)) ∈ Standing.tasks {} before
  | label name => ∃ s, (s, .written (.label name)) ∈ Standing.tasks {} before ∧
      s.scope = (standing before).scope
  | push _ _ | pop _ _ | operate _ | goto _ | ifGoto _ | call _ _ | ret => False

/-- A label that has been declared is one of a written command. -/
theorem Standing.entry_mem_placed {before : List Event} {name : String} :
    .entry name ∈ placed {} before ↔
      ∃ s locals, (s, .written (.function name locals)) ∈ tasks {} before := by
  rw [mem_placed]
  constructor
  · rintro ⟨⟨s, task⟩, hentry, hlabel⟩
    obtain ⟨locals, hc⟩ := entry_mem_labels.mp hlabel
    cases task with
    | startUp stackBase entry => exact absurd hc (by simp [Task.command])
    | written c =>
      obtain rfl : c = .function name locals := hc
      exact ⟨s, locals, hentry⟩
  · rintro ⟨s, locals, hentry⟩
    exact ⟨_, hentry, entry_mem_labels.mpr ⟨locals, rfl⟩⟩

theorem Standing.user_mem_placed {before : List Event} {scope : Scope} {name : String} :
    .user scope name ∈ placed {} before ↔
      ∃ s, (s, .written (.label name)) ∈ tasks {} before ∧ s.scope = scope := by
  rw [mem_placed]
  constructor
  · rintro ⟨⟨s, task⟩, hentry, hlabel⟩
    obtain ⟨hc, rfl⟩ := user_mem_labels.mp hlabel
    cases task with
    | startUp stackBase entry => exact absurd hc (by simp [Task.command])
    | written c =>
      obtain rfl : c = .label name := hc
      exact ⟨s, hentry, rfl⟩
  · rintro ⟨s, hentry, rfl⟩
    exact ⟨_, hentry, user_mem_labels.mpr ⟨rfl, rfl⟩⟩

/-- **A command repeats one before it** exactly if one of its labels was rendered before. -/
theorem Command.repeats_iff {before : List Event} (hn : (entered before).Nodup) {c : Command} :
    c.Repeats before ↔ ∃ label ∈ (standing before).labels c, label ∈ Standing.placed {} before := by
  have hnone : (standing before).labels c = [] →
      ((∃ label ∈ (standing before).labels c, label ∈ Standing.placed {} before) ↔ False) := by
    intro hempty
    rw [hempty]
    simp
  cases c with
  | function name locals =>
    rw [Repeats, ← Standing.entry_mem_placed, Standing.labels]
    simp
  | label name =>
    rw [Repeats, ← Standing.user_mem_placed, Standing.labels]
    simp
  -- A call and a comparison take the next number, and it is above all those before.
  | call name arguments =>
    refine (iff_false_intro ?_).symm
    rintro ⟨label, hlabel, hplaced⟩
    obtain rfl := List.mem_singleton.mp hlabel
    exact absurd (Standing.returnTo_le hn hplaced) (Nat.not_succ_le_self _)
  | operate op =>
    cases op with
    | comparison op =>
      refine (iff_false_intro ?_).symm
      rintro ⟨label, hlabel, hplaced⟩
      obtain ⟨branch, rfl⟩ : ∃ branch,
          label = .compare ((standing before).comparisons + 1) branch := by
        rcases List.mem_cons.mp hlabel with rfl | hlabel
        · exact ⟨_, rfl⟩
        · exact ⟨_, List.mem_singleton.mp hlabel⟩
      exact absurd (Standing.compare_le hplaced) (Nat.not_succ_le_self _)
    | _ => exact (hnone rfl).symm
  | _ => exact (hnone rfl).symm

/-! ### The main result -/

section

variable {sources : List Source} {options : Options} {before after : List Event} {e : Event}
  {task : Task}

/-- **A name is taken by the label itself**, and by no other label that is called like it. -/
theorem Hygienic.taken_iff (h : Hygienic sources)
    (hevents : events sources options = before ++ e :: after) (htask : e.task? = some task)
    {sites : List Site} {context : Context} (htranslates : Translates {} before sites context)
    {label : Label} (hlabel : label ∈ (standing before).labels task.command) :
    context.Taken label ↔ label ∈ Standing.placed {} before := by
  -- The label and those before it are all labels of the program, where one name is one label.
  have hall : Standing.placed {} (events sources options) = Standing.placed {} before ++
      ((standing before).labels task.command ++ ((standing before).after e).placed after) := by
    rw [hevents, Standing.placed_append, Standing.placed_cons, Standing.labelsAt, htask]
    rfl
  have hoccurs : ∀ {label : Label}, label ∈ Standing.placed {} (events sources options) →
      label.OccursIn sources := occursIn_of_mem_placed
  rw [hall] at hoccurs
  have hdeclared : context.Taken label ↔ label.render ∈ Standing.rendered {} before :=
    htranslates.mem_declared.trans (or_iff_right Std.HashSet.not_mem_empty)
  rw [hdeclared, Standing.rendered_eq, List.mem_map]
  constructor
  · rintro ⟨other, hother, he⟩
    obtain rfl := h.eq_of_render_eq (hoccurs (List.mem_append_left _ hother))
      (hoccurs (List.mem_append_right _ (List.mem_append_left _ hlabel))) he
    exact hother
  · exact fun hplaced => ⟨label, hplaced, rfl⟩

/-- **Labels are refused exactly where the source repeats itself.** In a program with clean names,
let a session have met the events before a task without a failure. Then it fails at the task because
a label is a duplicate exactly if the command declares a function that was declared before, or a
label that was declared before in the same scope. So no call fails for this reason, the one that
starts the program included, and no comparison does. -/
theorem duplicateLabel_iff_repeats (h : Hygienic sources)
    (hevents : events sources options = before ++ e :: after) (htask : e.task? = some task)
    {session : Session (Array Assembly.Statement)}
    (hrun : Session.meetAll before (.fresh options) = (.ok (), session)) :
    (∃ place name, (Session.meet e session).1 = .error (.fault place (.duplicateLabel name))) ↔
      task.command.Repeats before := by
  obtain ⟨sites, htranslates, -⟩ := Session.translates_of_meetAll hrun
  have hstanding : session.context.standing = standing before := htranslates.standing_eq
  have hrepeats := Command.repeats_iff (h.nodup_entered hevents htranslates) (c := task.command)
  constructor
  · rintro ⟨place, name, hfails⟩
    obtain ⟨-, hstops⟩ := Session.meet_fault_iff.mp hfails
    cases hstops with
    | unread hunread =>
      rw [Event.task?, hunread] at htask
      exact absurd htask (by simp)
    | task hasks hfaults =>
      obtain rfl := Option.some.inj (hasks.task?_eq.symm.trans htask)
      obtain ⟨label, hlabel, htaken⟩ := hfaults.taken
      rw [hstanding] at hlabel
      exact hrepeats.mpr ⟨label, hlabel, (h.taken_iff hevents htask htranslates hlabel).mp htaken⟩
  · intro hrepeat
    obtain ⟨label, hlabel, hplaced⟩ := hrepeats.mp hrepeat
    have htaken := (h.taken_iff hevents htask htranslates hlabel).mpr hplaced
    have hasks := Event.asks_of_task? htask
    -- Only a function and a label of the source can repeat what was declared.
    cases task with
    | startUp stackBase entry => exact absurd hrepeat not_false
    | written c =>
      cases c with
      | function name locals =>
        obtain rfl := List.mem_singleton.mp hlabel
        exact ⟨_, _, Session.meet_stops (.task hasks (.written (.function htaken)))⟩
      | label name =>
        obtain rfl := List.mem_singleton.mp hlabel
        rw [← hstanding] at htaken
        exact ⟨_, _, Session.meet_stops (.task hasks (.written (.label htaken)))⟩
      | _ => exact absurd hrepeat not_false

end

/-- A program with clean names that declares a label in its file, and twice in a function. -/
def repeating : List Source :=
  [⟨"Main.vm", "Main", "label LOOP\nfunction Main.main 0\nlabel LOOP\nlabel LOOP"⟩]

theorem hygienic_repeating : Hygienic repeating := by
  have hlabels : ∀ name ∈ labelsOf repeating, name.toList.head? ≠ some 'r' := by decide
  have hfunctions : ∀ name ∈ functionsOf repeating, name.toList.head? ≠ some 'C' := by decide
  refine ⟨⟨by decide, by decide, by decide, by decide⟩, by decide, ?_, ?_⟩
  · exact fun name hname => Label.ne_returnName (hlabels name hname)
  · exact fun name hname => Label.ne_render_compare (hfunctions name hname)

/-- The label of the function may be called like that of the file, but not be declared again. -/
theorem repeating_refused :
    ∃ session place name, Session.meetAll
        [.startUp 256 "Sys.init", .file repeating[0], .line 1 "label LOOP",
          .line 2 "function Main.main 0", .line 3 "label LOOP"]
        (.fresh { startUp := true }) = (.ok (), session) ∧
      (Session.meet (.line 4 "label LOOP") session).1 =
        .error (.fault place (.duplicateLabel name)) := by
  have hnone : ∀ label : Label, ¬Context.Taken {} label := fun _ => Std.HashSet.not_mem_empty
  have htranslates : ∃ sites context, Translates {}
      [.startUp 256 "Sys.init", .file repeating[0], .line 1 "label LOOP",
        .line 2 "function Main.main 0", .line 3 "label LOOP"] sites context := by
    refine ⟨_, _, .task (.startUp _ _) (.startUp (by decide) (.call (by decide) (hnone _)))
      (.file (.task (.line 1 (c := .label "LOOP") rfl) (.written (.label ?_))
      (.task (.line 2 (c := .function "Main.main" 0) rfl) (.written (.function ?_))
      (.task (.line 3 (c := .label "LOOP") rfl) (.written (.label ?_)) (.nil _)))))⟩
    · exact Context.not_taken_declaring (by decide) (hnone _)
    · exact Context.not_taken_declaring (by decide)
        (Context.not_taken_declaring (by decide) (hnone _))
    · exact Context.not_taken_declaring (by decide) (Context.not_taken_declaring (by decide)
        (Context.not_taken_declaring (by decide) (hnone _)))
  obtain ⟨sites, context, htranslates⟩ := htranslates
  obtain ⟨session, hrun, -⟩ := @Session.meetAll_translates (.fresh { startUp := true }) _ _ _
    htranslates
  have hrefused := @duplicateLabel_iff_repeats repeating { startUp := true } _ [] _
    (.written (.label "LOOP")) hygienic_repeating rfl rfl session hrun
  obtain ⟨place, name, hfails⟩ := hrefused.mpr ⟨_, List.mem_of_getElem? (i := 3) rfl, rfl⟩
  exact ⟨session, place, name, hrun, hfails⟩

end HackStack
