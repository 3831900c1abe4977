import HackStack.Proofs.Command.Written
import HackStack.Proofs.Session.Run

/-!
# Which programs are accepted

A program is accepted unless its stack starts outside the memory or one of its lines offends, and
then the error is the one of the first line that does. Whether a line offends
(`HackStack.SourceLine.offence?`) is a matter of the text up to the line:

* it cannot be read;
* its index is larger than the segment allows;
* it calls a function with too many arguments;
* it returns, and no function stands above it in its file;
* it renders a label that was rendered before.

The offence is the first of these reasons that applies. The main result is
`HackStack.translate_accepts`; it rests on `HackStack.SourceLine.stops_iff`, that the offending
lines are those that stop a translation.
-/

namespace HackStack

/-! ### Lines -/

/-- **A line of code in its place**: what stands before it, and the line itself. -/
structure SourceLine where
  /-- The files before the line's own. -/
  earlier : List Source
  source : Source
  /-- The lines of code above it in its file. -/
  above : List (Nat × String)
  number : Nat
  text : String

namespace SourceLine

/-- Whether a program has this line in this place. -/
def OccursIn (line : SourceLine) (sources : List Source) : Prop :=
  ∃ below later, sources = line.earlier ++ line.source :: later ∧
    Text.codeLines line.source.text = line.above ++ (line.number, line.text) :: below

/-- Whether a line stands before another: in an earlier file, or above it in the same file. -/
def Precedes (first second : SourceLine) : Prop :=
  first.earlier.length < second.earlier.length ∨
    first.earlier.length = second.earlier.length ∧ first.above.length < second.above.length

/-- The events before a line. -/
def before (line : SourceLine) (options : Options) : List Event :=
  options.events ++ line.earlier.flatMap Source.events ++
    .file line.source :: line.above.map Event.ofLine

/-- The location of a line. -/
def location (line : SourceLine) : Location := ⟨line.source.file, line.number⟩

end SourceLine

/-! ### Offences -/

/-- Whether a line is a function command. -/
def isFunctionLine (line : Nat × String) : Bool :=
  match Command.read line.2 with
  | .ok (.function _ _) => true
  | _ => false

namespace Command

/-- The index of a command is larger than its segment allows. -/
def indexOffence? : Command → Option Fault
  | push segment index | pop segment index =>
    if index ≤ segment.maxIndex then none
    else some (.indexOutOfRange segment.name index segment.maxIndex)
  | operate _ | label _ | goto _ | ifGoto _ | function _ _ | call _ _ | ret => none

/-- A call has too many arguments. -/
def argumentsOffence? : Command → Option Fault
  | call name arguments =>
    if arguments ≤ 32762 then none else some (.malformed (.tooManyArguments name arguments))
  | push _ _ | pop _ _ | operate _ | label _ | goto _ | ifGoto _ | function _ _ | ret => none

/-- A return stands behind lines of its file that hold no function. -/
def returnOffence? (above : List (Nat × String)) : Command → Option Fault
  | ret => if above.any isFunctionLine then none else some (.misuse .returnOutsideFunction)
  | push _ _ | pop _ _ | operate _ | label _ | goto _ | ifGoto _ | function _ _ | call _ _ => none

/-- A label of a command was rendered by an event before it. -/
def labelOffence? (before : List Event) (c : Command) : Option Fault :=
  (((standing before).names c).find? (· ∈ Standing.rendered {} before)).map .duplicateLabel

end Command

/-- **What is wrong with a line**: the first reason that applies. -/
def SourceLine.offence? (options : Options) (line : SourceLine) : Option Fault :=
  match Command.read line.text with
  | .error why => some why
  | .ok c =>
    c.indexOffence?.or <| c.argumentsOffence?.or <| (c.returnOffence? line.above).or <|
      c.labelOffence? (line.before options)

/-! ### The context before a line -/

/-- **The context keeps track of the events before it**, and a file has begun. -/
structure Tracks (before : List Event) (above : List (Nat × String)) (context : Context) :
    Prop where
  standing : context.standing = HackStack.standing before
  declared (name : String) :
    name ∈ context.registry.declared ↔ name ∈ Standing.rendered {} before
  statics : context.statics ≠ none
  function : context.scope.function?.isSome = above.any isFunctionLine

/-- In a file there is a namespace, and a function has been entered if one stands above. -/
theorem Standing.foldl_lines (s : Standing) (hspace : s.space ≠ none)
    (above : List (Nat × String)) :
    ((above.map Event.ofLine).foldl Standing.after s).space ≠ none ∧
      ((above.map Event.ofLine).foldl Standing.after s).scope.function?.isSome =
        (s.scope.function?.isSome || above.any isFunctionLine) := by
  induction above generalizing s with
  | nil => exact ⟨hspace, (Bool.or_false _).symm⟩
  | cons line above ih =>
    rw [List.map_cons, List.foldl_cons, List.any_cons]
    have hstep : (s.after (.ofLine line)).space ≠ none ∧
        (s.after (.ofLine line)).scope.function?.isSome =
          (s.scope.function?.isSome || isFunctionLine line) := by
      rw [Event.ofLine, Standing.after_line, isFunctionLine]
      cases Command.read line.2 with
      | error why => exact ⟨hspace, (Bool.or_false _).symm⟩
      | ok c =>
        change (s.behind c).space ≠ none ∧ (s.behind c).scope.function?.isSome = _
        rcases c with _ | _ | (_ | _ | _) | _ | _ | _ | _ | _ | _
        case function => exact ⟨Option.some_ne_none _, (Bool.or_true _).symm⟩
        all_goals exact ⟨hspace, (Bool.or_false _).symm⟩
    obtain ⟨hs, hf⟩ := ih _ hstep.1
    exact ⟨hs, by rw [hf, hstep.2, Bool.or_assoc]⟩

/-- **A translation keeps track** of what stands before a line. -/
theorem Translates.tracks {options : Options} {line : SourceLine} {sites : List Site}
    {context : Context} (h : Translates {} (line.before options) sites context) :
    Tracks (line.before options) line.above context := by
  have hstanding : context.standing = standing (line.before options) := h.standing_eq
  obtain ⟨hspace, hfunction⟩ := Standing.foldl_lines
    ((standing (options.events ++ line.earlier.flatMap Source.events)).beginFile
      line.source.space) (Option.some_ne_none _) line.above
  have hfold : standing (line.before options) = (line.above.map Event.ofLine).foldl Standing.after
      ((standing (options.events ++ line.earlier.flatMap Source.events)).beginFile
        line.source.space) := by
    rw [SourceLine.before, standing, List.foldl_append]
    rfl
  rw [← hfold, ← hstanding] at hspace hfunction
  refine ⟨hstanding, fun name => ?_, hspace, hfunction⟩
  refine h.mem_declared.trans (or_iff_right fun hempty => ?_)
  simp at hempty

/-! ### Offending lines stop a translation -/

namespace Tracks

variable {before : List Event} {above : List (Nat × String)} {context context' : Context}
  {c : Command}

/-- A label is taken if it was rendered before. -/
theorem taken_iff (h : Tracks before above context) (label : Label) :
    context.Taken label ↔ label.render ∈ Standing.rendered {} before := h.declared _

/-- In a file, only an index that is too large denotes nothing. -/
theorem target_error (h : Tracks before above context) {segment : Segment} {index : Nat}
    {why : Fault} (herror : Block.target context segment index = .error why) :
    ¬index ≤ segment.maxIndex ∧ why = .indexOutOfRange segment.name index segment.maxIndex :=
  (Block.target_eq_error_iff.mp herror).resolve_right fun hnone => h.statics hnone.2.2.1

/-- **A command that is lowered** does not offend. -/
theorem offence_eq_none (h : Tracks before above context) {block : Block}
    (hl : Block.Lowers context c block context') :
    c.indexOffence? = none ∧ c.argumentsOffence? = none ∧ c.returnOffence? above = none ∧
      c.labelOffence? before = none := by
  refine ⟨?_, ?_, ?_, ?_⟩
  · cases hl with
    | push htarget | pop htarget hp =>
      exact if_pos (Block.target_eq_ok_iff.mp htarget).le_maxIndex
    | _ => rfl
  · cases hl with
    | call hreach hfree =>
      rw [MemoryMap.frameSize, MemoryMap.maxAddress] at hreach
      exact if_pos (by omega)
    | _ => rfl
  · cases hl with
    | ret hfunction =>
      refine if_pos ?_
      rw [← h.function, hfunction]
      rfl
    | _ => rfl
  · rw [Command.labelOffence?, Option.map_eq_none_iff, List.find?_eq_none]
    intro name hname
    rw [← h.standing] at hname
    simpa using fun hmem => hl.free hname ((h.declared name).mpr hmem)

/-- The first of two labels is reported if it was rendered before. -/
theorem labelOffence?_first (h : Tracks before above context) {label : Label} {rest : List Label}
    (hlabels : context.standing.labels c = label :: rest) (htaken : context.Taken label) :
    c.labelOffence? before = some (.duplicateLabel label.render) := by
  rw [Command.labelOffence?, ← h.standing, Standing.names, hlabels, List.map_cons,
    List.find?_cons_of_pos (by simpa using (h.taken_iff label).mp htaken)]
  rfl

/-- **A command that faults** offends for the same reason. -/
theorem offence_eq_some (h : Tracks before above context) (hw : c.Written) {why : Fault}
    (hf : Block.Faults context c why context') :
    (c.indexOffence?.or <| c.argumentsOffence?.or <| (c.returnOffence? above).or <|
      c.labelOffence? before) = some why := by
  cases hf with
  | push htarget | pop htarget =>
    obtain ⟨hindex, rfl⟩ := h.target_error htarget
    rw [Command.indexOffence?, if_neg hindex, Option.some_or]
  | popTo htarget hp =>
    -- Only a constant cannot be popped into, and a line that does is not read.
    cases Block.target_eq_ok_iff.mp htarget with
    | constant => exact absurd rfl hw.1
    | based | temp | this | that | static => cases hp
  | comparisonHolds op htaken => exact h.labelOffence?_first rfl htaken
  | comparisonDone op hholds htaken =>
    change Command.labelOffence? before (.operate (.comparison op)) = _
    rw [Command.labelOffence?, ← h.standing]
    have hfirst : ¬(context.compareLabel .holds).render ∈ Standing.rendered {} before :=
      fun hmem => hholds ((h.taken_iff _).mpr hmem)
    have hsecond := (h.taken_iff _).mp htaken
    change Option.map _ (List.find? _ [(context.compareLabel .holds).render,
      (context.compareLabel .done).render]) = _
    rw [List.find?_cons_of_neg (by simpa using hfirst),
      List.find?_cons_of_pos (by simpa using hsecond)]
    rfl
  | label htaken => exact h.labelOffence?_first rfl htaken
  | function htaken => exact h.labelOffence?_first rfl htaken
  | @arguments name arguments hreach =>
    rw [MemoryMap.frameSize, MemoryMap.maxAddress] at hreach
    rw [Command.indexOffence?, Option.none_or, Command.argumentsOffence?, if_neg (by omega),
      Option.some_or]
  | @call name arguments hreach htaken =>
    rw [MemoryMap.frameSize, MemoryMap.maxAddress] at hreach
    rw [Command.indexOffence?, Option.none_or, Command.argumentsOffence?, if_pos (by omega),
      Option.none_or, Command.returnOffence?, Option.none_or]
    exact h.labelOffence?_first rfl htaken
  | ret hnone =>
    have hany : above.any isFunctionLine = false := by
      rw [← h.function, hnone]
      rfl
    rw [Command.indexOffence?, Option.none_or, Command.argumentsOffence?, Option.none_or,
      Command.returnOffence?, hany, if_neg Bool.false_ne_true, Option.some_or]

end Tracks

/-- **A line stops a translation exactly when it offends**, and for the same reason. -/
theorem SourceLine.stops_iff {options : Options} {line : SourceLine} {context : Context}
    (h : Tracks (line.before options) line.above context) (why : Fault) :
    (Event.line line.number line.text).Stops context why ↔ line.offence? options = some why := by
  have hread : ∀ c, Command.read line.text = .ok c → line.offence? options =
      (c.indexOffence?.or <| c.argumentsOffence?.or <| (c.returnOffence? line.above).or <|
        c.labelOffence? (line.before options)) := fun c hc => by rw [offence?, hc]
  constructor
  · intro hstops
    cases hstops with
    | unread hunread => rw [offence?, hunread]
    | task hasks hfaults =>
      cases hasks with
      | line number hc =>
        cases hfaults with
        | written hfaults =>
          rw [hread _ hc, h.offence_eq_some (Command.written_of_read hc) hfaults]
  · intro hoffence
    cases hc : Command.read line.text with
    | error why' =>
      rw [offence?, hc, Option.some.injEq] at hoffence
      exact .unread (hoffence ▸ hc)
    | ok c =>
      rw [hread c hc] at hoffence
      rcases Block.lowers_or_faults context c with ⟨block, context', hl⟩ | ⟨why', context', hf⟩
      · obtain ⟨h₁, h₂, h₃, h₄⟩ := h.offence_eq_none hl
        rw [h₁, h₂, h₃, h₄] at hoffence
        exact absurd hoffence (by simp)
      · rw [h.offence_eq_some (Command.written_of_read hc) hf, Option.some.injEq] at hoffence
        exact .task (.line _ hc) (.written (hoffence ▸ hf))

/-! ### The lines of a program -/

/-- What stands before an entry of two lists, put together. -/
theorem append_eq_append_cons {α : Type} {first second before after : List α} {x : α}
    (h : first ++ second = before ++ x :: after) :
    (∃ rest, first = before ++ x :: rest ∧ after = rest ++ second) ∨
      ∃ rest, before = first ++ rest ∧ second = rest ++ x :: after := by
  rcases List.append_eq_append_iff.mp h with ⟨rest, hbefore, hsecond⟩ | ⟨rest, hfirst, hafter⟩
  · exact Or.inr ⟨rest, hbefore, hsecond⟩
  · cases rest with
    | nil => exact Or.inr ⟨[], by simpa using hfirst.symm, by simpa using hafter.symm⟩
    | cons y rest =>
      rw [List.cons_append, List.cons.injEq] at hafter
      obtain ⟨rfl, rfl⟩ := hafter
      exact Or.inl ⟨rest, hfirst, rfl⟩

/-- What stands before the later of two entries of a list. -/
theorem exists_of_length_lt {α : Type} {before after before' after' : List α} {x y : α}
    (h : before ++ x :: after = before' ++ y :: after') (hlt : before.length < before'.length) :
    ∃ rest, before' = before ++ x :: rest := by
  rcases List.append_eq_append_iff.mp h with ⟨rest, hbefore, hafter⟩ | ⟨rest, hbefore, -⟩
  · cases rest with
    | nil =>
      rw [hbefore, List.append_nil] at hlt
      exact absurd hlt (Nat.lt_irrefl _)
    | cons z rest =>
      rw [List.cons_append, List.cons.injEq] at hafter
      exact ⟨rest, hafter.1 ▸ hbefore⟩
  · rw [hbefore, List.length_append] at hlt
    omega

/-- The events of files: their beginnings and their lines. -/
theorem files_split {sources : List Source} {before after : List Event} {e : Event}
    (h : sources.flatMap Source.events = before ++ e :: after) :
    (∃ source, e = .file source) ∨
      ∃ line : SourceLine, line.OccursIn sources ∧ e = .line line.number line.text ∧
        before = line.earlier.flatMap Source.events ++
          .file line.source :: line.above.map Event.ofLine := by
  induction sources generalizing before with
  | nil => simp at h
  | cons source sources ih =>
    rw [List.flatMap_cons] at h
    rcases append_eq_append_cons h with ⟨rest, hsource, -⟩ | ⟨rest, rfl, hrest⟩
    · cases before with
      | nil => exact Or.inl ⟨source, (List.cons.inj hsource).1.symm⟩
      | cons first before =>
        obtain ⟨rfl, hlines⟩ := List.cons.inj hsource
        obtain ⟨above, others, hcode, rfl, hothers⟩ := List.map_eq_append_iff.mp hlines
        obtain ⟨line, below, rfl, rfl, -⟩ := List.map_eq_cons_iff.mp hothers
        exact Or.inr ⟨⟨[], source, above, line.1, line.2⟩, ⟨below, sources, rfl, hcode⟩, rfl, rfl⟩
    · rcases ih hrest with hfile | ⟨line, ⟨below, later, rfl, hcode⟩, he, rfl⟩
      · exact Or.inl hfile
      · refine Or.inr ⟨{ line with earlier := source :: line.earlier },
          ⟨below, later, rfl, hcode⟩, he, ?_⟩
        rw [List.flatMap_cons, List.append_assoc]

/-- **The events of a program**: its start, the beginnings of its files, and its lines. -/
theorem events_split {sources : List Source} {options : Options} {before after : List Event}
    {e : Event} (h : events sources options = before ++ e :: after) :
    (before = [] ∧ options.startUp = true ∧ e = .startUp options.stackBase options.entry) ∨
      (∃ source, e = .file source) ∨
        ∃ line : SourceLine, line.OccursIn sources ∧ line.before options = before ∧
          e = .line line.number line.text := by
  rcases append_eq_append_cons h with ⟨rest, hstart, -⟩ | ⟨rest, rfl, hrest⟩
  · refine Or.inl ?_
    rw [Options.events] at hstart
    split at hstart
    next hstartUp =>
      cases before with
      | nil => exact ⟨rfl, hstartUp, (List.cons.inj hstart).1.symm⟩
      | cons _ before => exact absurd (List.cons.inj hstart).2 (by simp)
    next => exact absurd hstart (by simp)
  · rcases files_split hrest with hfile | ⟨line, hline, he, rfl⟩
    · exact Or.inr (Or.inl hfile)
    · refine Or.inr (Or.inr ⟨line, hline, ?_, he⟩)
      rw [SourceLine.before, List.append_assoc]

namespace SourceLine

variable {sources : List Source} {line other : SourceLine}

/-- A line that occurs in a program is met there. -/
theorem OccursIn.events_eq (h : line.OccursIn sources) (options : Options) :
    ∃ after, events sources options =
      line.before options ++ .line line.number line.text :: after := by
  obtain ⟨below, later, rfl, hcode⟩ := h
  refine ⟨below.map Event.ofLine ++ later.flatMap Source.events, ?_⟩
  rw [events, before, List.flatMap_append, List.flatMap_cons, Source.events, hcode]
  simp [Event.ofLine]

/-- A line that precedes another is met before it. -/
theorem OccursIn.before_eq (h : line.OccursIn sources) (h' : other.OccursIn sources)
    (hprecedes : other.Precedes line) (options : Options) :
    ∃ between, line.before options =
      other.before options ++ .line other.number other.text :: between := by
  obtain ⟨below, later, rfl, hcode⟩ := h
  obtain ⟨below', later', hsources, hcode'⟩ := h'
  rcases hprecedes with hlt | ⟨heq, hlt⟩
  · obtain ⟨files, hfiles⟩ := exists_of_length_lt hsources.symm hlt
    refine ⟨below'.map Event.ofLine ++ files.flatMap Source.events ++
      .file line.source :: line.above.map Event.ofLine, ?_⟩
    rw [before, before, hfiles, List.flatMap_append, List.flatMap_cons, Source.events, hcode']
    simp [Event.ofLine]
  · obtain ⟨hearlier, hrest⟩ := List.append_inj hsources heq.symm
    obtain ⟨hsource, -⟩ := List.cons.inj hrest
    rw [hsource, hcode'] at hcode
    obtain ⟨lines, hlines⟩ := exists_of_length_lt hcode hlt
    refine ⟨lines.map Event.ofLine, ?_⟩
    rw [before, before, hearlier, hsource, hlines]
    simp [Event.ofLine]

/-- **The location of a line** is where a session stands when it meets the line. -/
theorem location_eq (line : SourceLine) (options : Options) :
    ((line.before options).foldl Location.after .unknown).after (.line line.number line.text) =
      line.location := by
  have hlines : ∀ (above : List (Nat × String)) (place : Location),
      ((above.map Event.ofLine).foldl Location.after place).file = place.file := by
    intro above
    induction above with
    | nil => exact fun _ => rfl
    | cons first above ih => exact fun place => ih (place.withLine first.1)
  rw [before, List.foldl_append, List.foldl_cons]
  exact congrArg (Location.mk · line.number) (hlines line.above _)

/-- A line has the number of a line of its text. -/
theorem OccursIn.raw (h : line.OccursIn sources) :
    0 < line.number ∧ ∃ raw, (Text.lines line.source.text)[line.number - 1]? = some raw ∧
      String.ofList (Text.code raw) = line.text := by
  obtain ⟨below, later, -, hcode⟩ := h
  refine Text.raw_of_mem_codeLines ?_
  rw [hcode]
  exact List.mem_append_right _ List.mem_cons_self

/-- An offence is no misuse of a namespace. -/
theorem ne_staticWithoutNamespace {options : Options} {why : Fault}
    (h : line.offence? options = some why) : why ≠ .misuse .staticWithoutNamespace := by
  rintro rfl
  rw [offence?] at h
  split at h
  next hread =>
    rw [Option.some.injEq] at h
    subst h
    rcases Command.formFault_of_read hread with ⟨what, hwhat⟩ | ⟨name, hname⟩
    · exact absurd hwhat (by simp)
    · exact absurd hname (by simp)
  next c hread =>
    rw [Option.or_eq_some_iff, Option.or_eq_some_iff, Option.or_eq_some_iff] at h
    rcases h with h | ⟨-, h | ⟨-, h | ⟨-, h⟩⟩⟩
    · rw [Command.indexOffence?.eq_def] at h
      split at h <;> simp at h
    · rw [Command.argumentsOffence?.eq_def] at h
      split at h <;> simp at h
    · rw [Command.returnOffence?.eq_def] at h
      split at h <;> simp at h
    · rw [Command.labelOffence?] at h
      obtain ⟨name, -, hname⟩ := Option.map_eq_some_iff.mp h
      exact absurd hname (by simp)

end SourceLine

/-- An event that has been translated does not stop the translation. -/
theorem Translates.not_stops {context context' : Context} {before after : List Event} {e : Event}
    {sites : List Site} (h : Translates context (before ++ e :: after) sites context') :
    ∃ first between, Translates context before first between ∧
      ∀ why, ¬e.Stops between why := by
  obtain ⟨first, second, between, -, hbefore, hrest⟩ := h.split
  refine ⟨first, between, hbefore, fun why hstops => ?_⟩
  cases hrest with
  | file _ =>
    cases hstops with
    | task hasks _ => cases hasks
  | task hasks hlowers _ =>
    cases hstops with
    | unread hunread =>
      cases hasks with
      | line _ hread =>
        rw [hunread] at hread
        exact absurd hread (by simp)
    | task hasks' hfaults =>
      have htask := hasks.task?_eq
      rw [hasks'.task?_eq, Option.some.injEq] at htask
      subst htask
      have hlowering := hlowers.lowering
      rw [hfaults.lowering, Prod.mk.injEq] at hlowering
      exact absurd hlowering.1 (by simp)

/-- The start of a program stops its translation only if the stack would start outside the
memory. -/
theorem stops_startUp {stackBase : Nat} {entry : String} {why : Fault}
    (h : (Event.startUp stackBase entry).Stops {} why) :
    MemoryMap.maxAddress < stackBase ∧ why = .malformed (.stackBase stackBase) := by
  cases h with
  | task hasks hfaults =>
    cases hasks with
    | startUp _ _ =>
      cases hfaults with
      | stackBase hbase => exact ⟨Nat.lt_of_not_le hbase, rfl⟩
      | startUp hbase hcall =>
        cases hcall with
        | arguments hreach => exact absurd (by decide) hreach
        | call hreach htaken => exact absurd htaken Std.HashSet.not_mem_empty

/-! ### The main result -/

section Acceptance

variable {sources : List Source} {options : Options}

/-- The lines of a translated list of events do not offend. -/
theorem offence?_eq_none_of_translates {line : SourceLine} {after : List Event}
    {sites : List Site} {context : Context}
    (h : Translates {} (line.before options ++ .line line.number line.text :: after) sites
      context) : line.offence? options = none := by
  obtain ⟨first, between, hbefore, hnot⟩ := h.not_stops
  cases hoffence : line.offence? options with
  | none => rfl
  | some why => exact absurd ((line.stops_iff hbefore.tracks why).mpr hoffence) (hnot why)

/-- A program that is translated has its stack in the memory. -/
theorem stackBase_of_translates {sites : List Site} {context : Context}
    (h : Translates {} (events sources options) sites context) (hstart : options.startUp = true) :
    options.stackBase ≤ MemoryMap.maxAddress := by
  have hevents : events sources options = [] ++
      .startUp options.stackBase options.entry :: sources.flatMap Source.events := by
    rw [events, Options.events, if_pos hstart]
    rfl
  rw [hevents] at h
  obtain ⟨first, between, hbefore, hnot⟩ := h.not_stops
  cases hbefore
  exact Nat.le_of_not_lt fun hlt =>
    hnot _ (.task (.startUp _ _) (.stackBase (Nat.not_le_of_lt hlt)))

/-- **Which programs are accepted, and what is reported of the others.** A program is accepted if
its stack, where it is to be set up, starts inside the memory and none of its lines offends. The
error of any other program is that of its stack, or else the offence of its first offending line, at
the location of that line. There is no other error. The number of a line fits in 32 bits if its file
has fewer than `2 ^ 32` lines (`HackStack.Text.le_length_of_mem_codeLines`). -/
theorem translate_accepts (sources : List Source) (options : Options) :
    ((∃ t, translate sources options = .ok t) ↔
      (options.startUp = true → options.stackBase ≤ MemoryMap.maxAddress) ∧
        ∀ line : SourceLine, line.OccursIn sources → line.offence? options = none) ∧
    ∀ e, translate sources options = .error e →
      (options.startUp = true ∧ MemoryMap.maxAddress < options.stackBase ∧
        e = .fault .unknown (.malformed (.stackBase options.stackBase))) ∨
      ∃ (line : SourceLine) (why : Fault), line.OccursIn sources ∧
        line.offence? options = some why ∧
        (∀ other : SourceLine, other.OccursIn sources → other.Precedes line →
          other.offence? options = none) ∧
        e = .fault line.location why ∧ why ≠ .misuse .staticWithoutNamespace ∧
        0 < line.number ∧ ∃ raw, (Text.lines line.source.text)[line.number - 1]? = some raw ∧
          String.ofList (Text.code raw) = line.text := by
  -- What stops a translation is the start of the program or one of its lines.
  have hstop : ∀ before e after sites context why,
      events sources options = before ++ e :: after → Translates {} before sites context →
      e.Stops context why →
      (options.startUp = true ∧ MemoryMap.maxAddress < options.stackBase ∧ before = [] ∧
        e = .startUp options.stackBase options.entry ∧
        why = .malformed (.stackBase options.stackBase)) ∨
      ∃ line : SourceLine, line.OccursIn sources ∧ line.before options = before ∧
        e = .line line.number line.text ∧ line.offence? options = some why := by
    intro before e after sites context why hevents hbefore hstops
    rcases events_split hevents with ⟨rfl, hstart, rfl⟩ | ⟨source, rfl⟩ | ⟨line, hline, rfl, rfl⟩
    · cases hbefore
      obtain ⟨hbase, rfl⟩ := stops_startUp hstops
      exact Or.inl ⟨hstart, hbase, rfl, rfl, rfl⟩
    · cases hstops with
      | task hasks _ => cases hasks
    · exact Or.inr ⟨line, hline, rfl, rfl, (line.stops_iff hbefore.tracks why).mp hstops⟩
  rcases translates_or_stops {} (events sources options) with
    ⟨sites, context, htranslates⟩ |
    ⟨before, e, after, sites, context, why, hevents, hbefore, hstops⟩
  · obtain ⟨session, -, hok, -⟩ := translate_of_translates htranslates
    refine ⟨⟨fun _ => ⟨stackBase_of_translates htranslates, fun line hline => ?_⟩,
        fun _ => ⟨_, hok⟩⟩,
      fun e herror => absurd (hok.symm.trans herror) (by simp)⟩
    obtain ⟨after, hafter⟩ := hline.events_eq options
    rw [hafter] at htranslates
    exact offence?_eq_none_of_translates htranslates
  · have herror := translate_of_stops hevents hbefore hstops
    refine ⟨⟨fun ⟨t, hok⟩ => absurd (hok.symm.trans herror) (by simp), fun ⟨hbase, hlines⟩ => ?_⟩,
      fun e' he' => ?_⟩
    · rcases hstop _ _ _ _ _ _ hevents hbefore hstops with
        ⟨hstart, hlt, -⟩ | ⟨line, hline, -, -, hoffence⟩
      · exact absurd (hbase hstart) (Nat.not_le_of_lt hlt)
      · rw [hlines line hline] at hoffence
        exact absurd hoffence (by simp)
    · obtain rfl : e' = _ := Except.error.inj (he'.symm.trans herror)
      rcases hstop _ _ _ _ _ _ hevents hbefore hstops with
        ⟨hstart, hlt, rfl, rfl, rfl⟩ | ⟨line, hline, rfl, rfl, hoffence⟩
      · exact Or.inl ⟨hstart, hlt, rfl⟩
      · obtain ⟨hpositive, hraw⟩ := hline.raw
        refine Or.inr ⟨line, why, hline, hoffence, fun other hother hprecedes => ?_,
          by rw [line.location_eq], SourceLine.ne_staticWithoutNamespace hoffence, hpositive, hraw⟩
        obtain ⟨between, hbetween⟩ := hline.before_eq hother hprecedes options
        rw [hbetween] at hbefore
        exact offence?_eq_none_of_translates hbefore

end Acceptance

end HackStack
