import HackStack.Proofs.Command.RoundTrip
import HackStack.Proofs.Rom.Access
import HackStack.Proofs.Rom.Comments
import HackStack.Proofs.Rom.TwoPasses

/-!
# The variables of a program

A program of pushes and pops has its static variables as its variables, in the order in which the
commands name them (`HackStack.Accessing`): the other symbols of the code are predefined, and there
are no labels. Such a program is translated and assembled if its code fits into the instruction
memory (`HackStack.exists_accessing`), however many variables it has.

The source of the program is the text with one command on each line (`HackStack.Command.text`).
-/

namespace HackStack

open Assembly Statement Text

/-! ### Texts of commands -/

/-- Texts on one line can be put together with blanks between them. -/
theorem inline_intercalate {texts : List String} (h : ∀ text ∈ texts, Inline text.toList) :
    Inline (" ".intercalate texts).toList := by
  induction texts with
  | nil => exact inline_nil
  | cons text rest ih =>
    obtain ⟨htext, hrest⟩ := List.forall_mem_cons.mp h
    by_cases hend : rest = []
    · rw [hend, String.intercalate_singleton]
      exact htext
    · rw [String.intercalate_cons_of_ne_nil hend, String.toList_append, String.toList_append,
        List.append_assoc]
      exact htext.append_cons (by decide) (by decide) (ih hrest)

namespace Command

/-- **The written form of a command can stand on a line.** -/
theorem Written.inline_render {c : Command} (h : c.Written) : Inline c.render.toList := by
  have hkeyword : ∀ word ∈ ["push", "pop", "label", "goto", "if-goto", "function", "call",
      "return"], Inline word.toList := by
    have hclean : ∀ word ∈ ["push", "pop", "label", "goto", "if-goto", "function", "call",
        "return"], '\n' ∉ word.toList ∧ '/' ∉ word.toList := by decide
    exact fun word hword => ⟨(hclean word hword).1, beforeComment_eq_self (hclean word hword).2⟩
  have hsegment : ∀ segment : Segment, Inline segment.name.toList := by
    rintro (_ | (_ | _ | _ | _) | _ | _ | _) <;>
      exact ⟨by decide, beforeComment_eq_self (by decide)⟩
  have hoperator : ∀ op : Operator, Inline op.name.toList := by
    rintro (op | op | op) <;> cases op <;> exact ⟨by decide, beforeComment_eq_self (by decide)⟩
  have hname : ∀ name, IsName name → Inline name.toList := fun _ hname => hname.legible.inline
  have hnumber : ∀ n : Nat, Inline (toString n).toList := fun n =>
    inline_of_isSymbolChar fun _ hc => isSymbolChar_of_mem_toString hc
  refine inline_intercalate ?_
  cases c with
  | push segment index | pop segment index =>
    simp only [words, List.forall_mem_cons]
    exact ⟨hkeyword _ (by simp), hsegment segment, hnumber index, by simp⟩
  | operate op => simpa [words] using hoperator op
  | label name | goto name | ifGoto name =>
    simp only [words, List.forall_mem_cons]
    exact ⟨hkeyword _ (by simp), hname name h, by simp⟩
  | function name count | call name count =>
    simp only [words, List.forall_mem_cons]
    exact ⟨hkeyword _ (by simp), hname name h.1, hnumber count, by simp⟩
  | ret => simpa [words] using hkeyword "return" (by simp)

/-- The code on the line of a command is the command. -/
theorem Written.codeOn?_render {c : Command} (h : c.Written) :
    codeOn? c.render.toList = some c.render := by
  obtain ⟨htrimmed, -, hne⟩ := trimmed_intercalate h.isWord c.words_ne_nil
  have hcode : code c.render.toList = c.render.toList := by
    rw [code, h.inline_render.beforeComment_eq]
    exact trim_eq_self htrimmed
  have hne' : c.render.toList ≠ [] := fun hnil => hne (String.toList_eq_nil_iff.mp hnil)
  rw [codeOn?, hcode, if_neg (by simpa using hne'), String.ofList_toList]

/-- **The text of commands**, with one on each line. -/
def text (commands : List Command) : String := "\n".intercalate (commands.map render)

/-- **The text of commands holds the commands**, one after the other. -/
theorem map_snd_codeLines_text {commands : List Command} (h : ∀ c ∈ commands, c.Written) :
    (codeLines (text commands)).map Prod.snd = commands.map render := by
  by_cases hnil : commands = []
  · rw [hnil]
    rfl
  have hlines : lines (text commands) = commands.map fun c => c.render.toList := by
    rw [lines, text, String.toList_intercalate, List.map_map]
    refine List.splitOn_intercalate '\n' (fun line hline => ?_) (by simpa using hnil)
    obtain ⟨c, hc, rfl⟩ := List.mem_map.mp hline
    exact (h c hc).inline_render.newline_not_mem
  rw [codeLines_eq, map_snd_codeFrom, hlines, List.filterMap_map]
  calc commands.filterMap (codeOn? ∘ fun c => c.render.toList)
      = commands.filterMap (some ∘ render) :=
        List.filterMap_congr fun c hc => (h c hc).codeOn?_render
    _ = commands.map render := by rw [List.filterMap_eq_map]

/-! ### Pushes and pops -/

/-- Whether a command pushes or pops a word of a segment. -/
def isAccess : Command → Bool
  | push _ _ | pop _ _ => true
  | operate _ | label _ | goto _ | ifGoto _ | function _ _ | call _ _ | ret => false

/-- The index of the static variable that a command pushes or pops. -/
def staticIndex? : Command → Option Nat
  | push .static index | pop .static index => some index
  | _ => none

end Command

/-- **Commands that leave the context as it is** are translated line by line. -/
theorem exists_translates_of_lines {context : Context} {code : List (Nat × String)}
    {commands : List Command} (hcode : code.map Prod.snd = commands.map Command.render)
    (hwritten : ∀ c ∈ commands, c.Written)
    (hlowers : ∀ c ∈ commands, ∃ block, Block.Lowers context c block context) :
    ∃ sites, Translates context (code.map Event.ofLine) sites context ∧
      sites.map Site.task = commands.map Task.written ∧ ∀ site ∈ sites, site.context = context := by
  induction commands generalizing code with
  | nil =>
    obtain rfl : code = [] := List.map_eq_nil_iff.mp hcode
    exact ⟨[], .nil context, rfl, fun _ hsite => absurd hsite List.not_mem_nil⟩
  | cons c commands ih =>
    obtain ⟨⟨number, line⟩, rest, rfl, rfl, hrest⟩ := List.map_eq_cons_iff.mp hcode
    obtain ⟨hc, hcommands⟩ := List.forall_mem_cons.mp hwritten
    obtain ⟨⟨block, hblock⟩, hblocks⟩ := List.forall_mem_cons.mp hlowers
    obtain ⟨sites, htranslates, htasks, hcontexts⟩ := ih hrest hcommands hblocks
    refine ⟨⟨context, .written c, block⟩ :: sites, ?_, ?_, ?_⟩
    · exact .task (.line number hc.read_render) (.written hblock) htranslates
    · rw [List.map_cons, htasks]
      rfl
    · exact List.forall_mem_cons.mpr ⟨rfl, hcontexts⟩

namespace Block

/-- The variable in the code of a target. -/
def Target.variableName? : Target → Option String
  | .direct operand => Instruction.variableName? [] (.address operand)
  | .immediate _ | .indirect _ _ => none

/-- **The code around a target** has no other variable, and no label. -/
theorem variables_of_target {denoted : Target} {block : Block}
    (h : block = fetch denoted ++ pushD ∨ popTo denoted = .ok block) :
    labelNames block = [] ∧ size block ≤ 12 ∧
      (instructions block).filterMap (Instruction.variableName? []) =
        denoted.variableName?.toList := by
  have direct : ∀ (operand : Operand) (rest : List Instruction),
      rest.filterMap (Instruction.variableName? []) = [] →
      (Instruction.address operand :: rest).filterMap (Instruction.variableName? []) =
        (Target.direct operand).variableName?.toList := by
    intro operand rest hrest
    rw [List.filterMap_eq_flatMap_toList, List.flatMap_cons, ← List.filterMap_eq_flatMap_toList,
      hrest, List.append_nil]
    rfl
  rcases h with rfl | hpop
  · cases denoted with
    | immediate value => exact ⟨rfl, Nat.le_of_ble_eq_true rfl, rfl⟩
    | direct operand => exact ⟨rfl, Nat.le_of_ble_eq_true rfl, direct operand _ rfl⟩
    | indirect p offset => cases p <;> exact ⟨rfl, Nat.le_of_ble_eq_true rfl, rfl⟩
  · cases denoted with
    | immediate value => cases hpop
    | direct operand =>
      obtain rfl := Except.ok.inj hpop
      exact ⟨rfl, Nat.le_of_ble_eq_true rfl, direct operand _ rfl⟩
    | indirect p offset =>
      obtain rfl := Except.ok.inj hpop
      cases p <;> exact ⟨rfl, Nat.le_of_ble_eq_true rfl, rfl⟩

/-- **What a segment denotes has a variable** exactly if the segment is that of static variables. -/
theorem variableName?_of_target {context : Context} {space : String} {segment : Segment}
    {index : Nat} {denoted : Target} (hspace : context.statics = some space)
    (h : target context segment index = .ok denoted) :
    denoted.variableName? = if segment = .static then some (staticName space index) else none := by
  cases target_eq_ok_iff.mp h with
  | constant | based | temp | this | that => rfl
  | static hsame =>
    obtain rfl := Option.some.inj (hsame.symm.trans hspace)
    exact if_pos ⟨predefined?_staticName _ index, List.not_mem_nil⟩

/-- **The code of a push or a pop** has the name of a static variable as its only variable, and no
label. -/
theorem Lowers.variables_access {context context' : Context} {c : Command} {block : Block}
    {space : String} (h : Lowers context c block context') (hspace : context.statics = some space)
    (hc : c.isAccess = true) :
    labelNames block = [] ∧ size block ≤ 12 ∧
      (instructions block).filterMap (Instruction.variableName? []) =
        (c.staticIndex?.map (staticName space)).toList := by
  cases h with
  | @push segment index denoted htarget =>
    obtain ⟨hlabels, hsize, hvariables⟩ := @variables_of_target denoted _ (Or.inl rfl)
    rw [variableName?_of_target hspace htarget] at hvariables
    refine ⟨hlabels, hsize, hvariables.trans ?_⟩
    cases segment <;> rfl
  | @pop segment index denoted _ htarget hpop =>
    obtain ⟨hlabels, hsize, hvariables⟩ := @variables_of_target denoted _ (Or.inr hpop)
    rw [variableName?_of_target hspace htarget] at hvariables
    refine ⟨hlabels, hsize, hvariables.trans ?_⟩
    cases segment <;> rfl
  | unary | binary | comparison | label | goto | ifGoto | function | call | ret =>
    exact absurd hc Bool.false_ne_true

end Block

/-! ### Programs of pushes and pops -/

/-- The tasks of a program can be read. -/
theorem Translates.named {context context' : Context} {all : List Event} {sites : List Site}
    (h : Translates context all sites context') : ∀ site ∈ sites, site.task.Named := by
  induction h with
  | nil => exact fun site hsite => absurd hsite List.not_mem_nil
  | file h ih => exact ih
  | task hasks hlowers h ih => exact List.forall_mem_cons.mpr ⟨hasks.named, ih⟩

/-- **The code of pushes and pops** has the names of the static variables in the order of the
commands. -/
theorem variables_of_sites {space : String} {sites : List Site} {commands : List Command}
    (htasks : sites.map Site.task = commands.map Task.written)
    (hcommands : ∀ c ∈ commands, c.isAccess = true)
    (hsites : ∀ site ∈ sites, site.context.statics = some space ∧
      ∃ context, site.task.Lowers site.context site.block context) :
    labelNames (sites.flatMap Site.block) = [] ∧
      size (sites.flatMap Site.block) ≤ 12 * commands.length ∧
      (instructions (sites.flatMap Site.block)).filterMap (Instruction.variableName? []) =
        (commands.filterMap Command.staticIndex?).map (staticName space) := by
  induction commands generalizing sites with
  | nil =>
    obtain rfl : sites = [] := List.map_eq_nil_iff.mp htasks
    exact ⟨rfl, Nat.le_refl _, rfl⟩
  | cons c commands ih =>
    obtain ⟨site, sites, rfl, htask, hrest⟩ := List.map_eq_cons_iff.mp htasks
    obtain ⟨hc, hcommands⟩ := List.forall_mem_cons.mp hcommands
    obtain ⟨⟨hspace, context, hlowers⟩, hsites⟩ := List.forall_mem_cons.mp hsites
    rw [htask] at hlowers
    cases hlowers with
    | written hlowers =>
      obtain ⟨hlabels, hsize, hvariables⟩ := hlowers.variables_access hspace hc
      obtain ⟨hlabels', hsize', hvariables'⟩ := ih hrest hcommands hsites
      refine ⟨?_, ?_, ?_⟩
      · rw [List.flatMap_cons, labelNames_append, hlabels, hlabels']
        rfl
      · rw [List.flatMap_cons, size_append, List.length_cons]
        omega
      · rw [List.flatMap_cons, instructions_append, List.filterMap_append, hvariables, hvariables',
          List.filterMap_cons]
        cases c.staticIndex? <;> rfl

/-- The source of commands. -/
def Source.ofCommands (file space : String) (commands : List Command) : Source :=
  ⟨file, space, Command.text commands⟩

/-- **A program of pushes and pops** that has been translated and assembled. Its sites stand in the
instruction memory, and its variables are its static variables, in the order in which they are first
named. -/
structure Accessing (file space : String) (commands : List Command) (sites : List Site)
    (t : Translation) (rom : Rom) : Prop where
  sitesOf_eq : sitesOf {} (events [Source.ofCommands file space commands] {}) = sites
  tasks : sites.map Site.task = commands.map Task.written
  translate : translate [Source.ofCommands file space commands] {} = .ok t
  assemble : assemble t.text = .ok rom
  lowers : ∀ site ∈ sites, site.context.statics = some space ∧
    ∃ context, site.task.Lowers site.context site.block context
  holds : ∀ k site, sites[k]? = some site →
    rom.Holds (addressBehind (codeOf false (sites.take k))) site.block
  variableNames_eq : variableNames (statementsOf t.text) =
    ((commands.filterMap Command.staticIndex?).map (staticName space)).eraseDups

/-- **Pushes and pops are a program**, if their indices are within bounds and their code fits into
the instruction memory. -/
theorem exists_accessing {space : String} {commands : List Command}
    (hspace : isSymbol space.toList = true) (hfits : 12 * commands.length ≤ MemoryMap.size)
    (h : ∀ c ∈ commands, c.Written ∧ c.isAccess = true ∧
      ∃ block, Block.Lowers (Context.beginFile space {}) c block (Context.beginFile space {}))
    (file : String) : ∃ sites t rom, Accessing file space commands sites t rom := by
  have hwritten : ∀ c ∈ commands, c.Written := fun c hc => (h c hc).1
  obtain ⟨sites, hlines, htasks, hcontexts⟩ := exists_translates_of_lines
    (Command.map_snd_codeLines_text hwritten) hwritten fun c hc => (h c hc).2.2
  have htranslates : Translates {} (events [Source.ofCommands file space commands] {}) sites
      (Context.beginFile space {}) := by
    have hevents : events [Source.ofCommands file space commands] {} =
        .file (Source.ofCommands file space commands) ::
          (codeLines (Command.text commands)).map Event.ofLine := by
      rw [events, List.flatMap_cons, List.flatMap_nil, List.append_nil]
      rfl
    rw [hevents]
    exact .file hlines
  have hlowers : ∀ site ∈ sites, site.context.statics = some space ∧
      ∃ context, site.task.Lowers site.context site.block context :=
    fun site hsite => ⟨hcontexts site hsite ▸ rfl, htranslates.lowers site hsite⟩
  obtain ⟨hlabels, hsize, hvariables⟩ :=
    variables_of_sites htasks (fun c hc => (h c hc).2.1) hlowers
  have hspaces : ∀ source ∈ [Source.ofCommands file space commands],
      isSymbol source.space.toList = true := fun source hsource =>
    List.mem_singleton.mp hsource ▸ hspace
  have hentry : ({} : Options).startUp = true → IsName ({} : Options).entry :=
    fun hon => Bool.noConfusion hon
  obtain ⟨t, rom, ht, hrom⟩ := htranslates.exists_rom hspaces hentry (hsize.trans hfits)
  have hlegible : ∀ s ∈ sites.flatMap Site.block, s.Legible := fun s hs =>
    (htranslates.plain_of_names hspaces hentry s hs).legible
  -- The blocks hold no comments, so all that is written is read back.
  have hcomments : ∀ s ∈ sites.flatMap Site.block, s.isComment = false := by
    intro s hs
    obtain ⟨site, hsite, hs⟩ := List.mem_flatMap.mp hs
    obtain ⟨_, hlowers⟩ := htranslates.lowers site hsite
    exact hlowers.uncommented.isComment_eq_false s hs
  have htext : t.text = listing (sites.flatMap Site.block) := by
    rw [Translation.text, htranslates.code_eq ht]
    rfl
  refine ⟨sites, t, rom, htranslates.sitesOf_eq, htasks, ht, hrom, hlowers,
    fun k site hsite => ?_, ?_⟩
  · have hmem := List.mem_of_getElem? hsite
    have hstands := Site.standsAt hsite false (htranslates.named site hmem)
    have hin : ∀ s ∈ site.block, s ∈ sites.flatMap Site.block :=
      fun s hs => List.mem_flatMap.mpr ⟨site, hmem, hs⟩
    rw [htext] at hrom
    exact hstands.holds hrom (fun s hs => hlegible s (hin s hs)) fun s hs => hcomments s (hin s hs)
  · rw [htext, statementsOf_listing hlegible hcomments, variableNames, hlabels, hvariables]

/-- **Code that pushes or pops a static variable** accesses the cell of the variable. -/
theorem Block.Lowers.accesses_static {context context' : Context} {c : Command} {block : Block}
    {space : String} {index cell base : Nat} {rom : Rom} (h : Lowers context c block context')
    (hspace : context.statics = some space) (hc : c = .push .static index ∨ c = .pop .static index)
    (hholds : rom.Holds base block) (hvalue : rom.value? (staticName space index) = some cell) :
    rom.Accesses base c cell := by
  obtain ⟨front, access, rest, rfl, -, haccesses⟩ := h.block_static hspace hc
  obtain ⟨op, hload, n, hn, rfl⟩ := hholds.right.head
  obtain rfl := Option.some.inj (hvalue.symm.trans hn)
  obtain ⟨op, hnext, rfl⟩ := hholds.right.tail.head
  exact haccesses rom base cell hload hnext

/-- Names that are all different are not dropped. -/
theorem eraseDups_of_nodup {names : List String} (h : names.Nodup) : names.eraseDups = names := by
  induction names using List.reverseRecOn with
  | nil => rfl
  | append_singleton names name ih =>
    obtain ⟨hnames, -, hne⟩ := List.nodup_append.mp h
    rw [eraseDups_concat, if_neg fun hmem => hne name hmem name (List.mem_singleton_self name) rfl,
      ih hnames]

/-- **The cells of static variables** that are named in the order of their indices. -/
theorem Accessing.cells_eq {file space : String} {commands : List Command} {sites : List Site}
    {t : Translation} {rom : Rom} (h : Accessing file space commands sites t rom) {count : Nat}
    (hindices : commands.filterMap Command.staticIndex? = List.range count) :
    (variableNames (statementsOf t.text)).length = count ∧ ∀ index < count,
      rom.cells[staticName space index]? = some (MemoryMap.firstVariable + index) := by
  have hnodup : ((List.range count).map (staticName space)).Nodup :=
    List.nodup_range.map fun _ _ he => (staticName_inj.mp he).1
  have hnames := h.variableNames_eq
  rw [hindices, eraseDups_of_nodup hnodup] at hnames
  refine ⟨by rw [hnames, List.length_map, List.length_range], fun index hindex => ?_⟩
  refine ((Rom.meets_of_assemble h.assemble).cell_iff _ _).mpr ⟨index, ?_, rfl⟩
  rw [hnames, List.getElem?_map, List.getElem?_range hindex]
  rfl

/-- **A pop into a static variable**, in a program of pushes and pops. -/
theorem Accessing.exists_pops {file space : String} {commands : List Command} {sites : List Site}
    {t : Translation} {rom : Rom} (h : Accessing file space commands sites t rom) {k index s : Nat}
    {cell : Nat} (hc : commands[k]? = some (.pop .static index))
    (hcell : rom.cells[staticName space index]? = some cell) (hfits : cell < 32768)
    {m : Machine} (hpc : m.pc = addressBehind (codeOf false (sites.take k)))
    (hsp : m.memory.sp = Word.ofNat s) (hs : 17 ≤ s ∧ s ≤ 32768) :
    ∃ site m', sites[k]? = some site ∧ site.task = .written (.pop .static index) ∧
      rom.Accesses m.pc (.pop .static index) cell ∧
      Machine.Pops rom site.block m s .static (Word.ofNat cell) m' := by
  have hcommand : (commands.map Task.written)[k]? = some (.written (.pop .static index)) := by
    rw [List.getElem?_map, hc]
    rfl
  obtain ⟨site, hsite, htask⟩ := exists_site h.tasks hcommand
  obtain ⟨hspace, context, hlowers⟩ := h.lowers site (List.mem_of_getElem? hsite)
  have hholds := h.holds k site hsite
  rw [← hpc] at hholds
  have hnumbered := (Rom.numbered_of_assemble h.assemble).1
  obtain ⟨-, hlabel⟩ := hnumbered.unresolved _ _ hcell
  have hfirst : 16 ≤ cell := (hnumbered.bounds _ _ hcell).1
  have hvalue : rom.value? (staticName space index) = some cell := by
    rw [Rom.value?, predefined?_staticName, hlabel, hcell]
    rfl
  rw [htask] at hlowers
  cases hlowers with
  | written hlowers =>
    have haccesses := hlowers.accesses_static hspace (Or.inr rfl) hholds hvalue
    cases hlowers with
    | pop htarget hpop =>
      obtain rfl := Block.target_eq_of_static hspace htarget
      have htargetCell : rom.targetCell? m.memory (.direct (.symbol (staticName space index))) =
          some (Word.ofNat cell) := by
        rw [Rom.targetCell?, Operand.value?, hvalue]
        rfl
      obtain ⟨m', hm'⟩ := Machine.exists_pops hholds htarget hpop htargetCell hsp hs
        (Word.addresses_ofNat hfits) (Word.ofNat_ne (by omega))
        (Word.ofNat_ne (by omega))
      exact ⟨site, m', hsite, htask, haccesses, hm'⟩

end HackStack
