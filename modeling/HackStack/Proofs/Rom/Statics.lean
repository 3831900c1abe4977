import HackStack.Proofs.Rom.Calling
import HackStack.Proofs.Rom.Cells
import HackStack.Proofs.Rom.Legible
import HackStack.Proofs.Session.Acceptance

/-!
# Static variables

A static variable is called like the namespace it belongs to, with a dot and its index behind. The
namespace is that of the last function above the command, or else that of the file
(`HackStack.SourceLine.space`), so the name of a variable tells its namespace and its index
(`HackStack.staticName_inj`).

It is left to the assembler to give the variable a cell. So a static variable has a cell that it
shares with no other as long as its name is no label of the program
(`HackStack.statics_are_isolated`). A function may be called like a static variable, and then the
variable is not in the memory for variables at all (`HackStack.exists_lost_static`).
-/

namespace HackStack

open Assembly Statement Text

/-! ### Namespaces -/

/-- The function that a line declares. -/
def functionOn? (line : Nat × String) : Option String :=
  (Command.read line.2).toOption.bind Command.declaredFunction?

theorem functionOn?_eq_some {line : Nat × String} {name : String} :
    functionOn? line = some name ↔ ∃ locals, Command.read line.2 = .ok (.function name locals) := by
  rw [functionOn?]
  cases Command.read line.2 with
  | error why => simp [Except.toOption]
  | ok c => simp [Except.toOption, Command.declaredFunction?_eq_some]

/-- **The namespace of the static variables on a line**: what stands before the first dot in the
name of the last function above it, or else the namespace of the file. -/
def SourceLine.space (line : SourceLine) : String :=
  ((line.above.filterMap functionOn?).getLast?.map Context.functionSpace).getD line.source.space

/-- A function changes the namespace, and no other command does. -/
theorem Standing.after_line_space (s : Standing) (line : Nat × String) :
    (s.after (.ofLine line)).space =
      ((functionOn? line).map Context.functionSpace).or s.space := by
  rw [Event.ofLine, Standing.after_line, functionOn?]
  cases Command.read line.2 with
  | error why => rfl
  | ok c => rcases c with _ | _ | (_ | _ | _) | _ | _ | _ | _ | _ | _ <;> rfl

/-- **The namespace behind lines** is that of the last function on them. -/
theorem Standing.foldl_lines_space (s : Standing) (above : List (Nat × String)) :
    ((above.map Event.ofLine).foldl Standing.after s).space =
      ((above.filterMap functionOn?).getLast?.map Context.functionSpace).or s.space := by
  -- The last line decides, so the induction takes lines away at the end.
  induction above using List.reverseRecOn with
  | nil => rfl
  | append_singleton above line ih =>
    rw [List.map_append, List.foldl_append, List.map_singleton, List.foldl_cons, List.foldl_nil,
      Standing.after_line_space, ih, List.filterMap_append]
    cases hline : functionOn? line with
    | none => rw [List.filterMap_cons_none hline, List.filterMap_nil, List.append_nil]; rfl
    | some name =>
      rw [List.filterMap_cons_some hline, List.filterMap_nil, List.getLast?_concat]
      rfl

/-- **A line stands in its namespace.** -/
theorem SourceLine.space_eq (line : SourceLine) (options : Options) :
    (standing (line.before options)).space = some line.space := by
  rw [standing, SourceLine.before, List.foldl_append, List.foldl_cons,
    Standing.foldl_lines_space, SourceLine.space]
  cases (line.above.filterMap functionOn?).getLast? <;> rfl

/-! ### Names of static variables -/

/-- The name of a static variable. -/
def staticName (space : String) (index : Nat) : String := space ++ "." ++ toString index

theorem toList_staticName (space : String) (index : Nat) :
    (staticName space index).toList = space.toList ++ '.' :: (toString index).toList := by
  rw [staticName, String.toList_append, String.toList_append, List.append_assoc]
  rfl

/-- **The name of a static variable** tells its namespace and its index: the last dot ends the
namespace, whatever that holds. -/
theorem staticName_inj {space other : String} {i j : Nat} :
    staticName space i = staticName other j ↔ i = j ∧ space = other := by
  constructor
  · intro h
    -- Read from behind, the name is the digits of the index up to the first dot.
    have hdot : ∀ n : Nat, '.' ∉ (toString n).toList.reverse := fun n hmem =>
      absurd (Label.isDigit_of_mem_toString (List.mem_reverse.mp hmem)) (by decide)
    have hreverse := congrArg (fun name => cutAt '.' name.toList.reverse) h
    simp only [toList_staticName, List.reverse_append, List.reverse_cons, List.append_assoc,
      List.singleton_append, cutAt_append (hdot _), Option.some.injEq, Prod.mk.injEq] at hreverse
    obtain ⟨hindex, hspace⟩ := hreverse
    exact ⟨Nat.repr_inj.mp (String.toList_inj.mp (List.reverse_inj.mp hindex)),
      String.toList_inj.mp (List.reverse_inj.mp hspace)⟩
  · rintro ⟨rfl, rfl⟩
    rfl

/-- No predefined symbol is called like a static variable. -/
theorem predefined?_staticName (space : String) (index : Nat) :
    MemoryMap.predefined? (staticName space index) = none := by
  refine predefined?_of_dot ?_
  rw [toList_staticName]
  exact List.mem_append_right _ List.mem_cons_self

/-- **A static variable has a legible name** if the line of its operand is read. -/
theorem legible_staticName {space : String} (hspace : Inline space.toList) (index : Nat)
    (hread : ∃ s, Statement.read
      (String.ofList (code (symbol (staticName space index)).render.toList)) = .ok s) :
    LegibleName (staticName space index) := by
  have hbuilt := Standing.builds_inline hspace
  refine legibleName_of_read (hbuilt.static space rfl index) (fun c hc => ?_) (c := '.') ?_
    (by decide) hread
  · have hdigits : (toString index).toList ≠ [] := by
      rw [Nat.toString_eq_repr, Nat.toList_repr]
      exact Nat.toDigits_ne_nil
    rw [toList_staticName, List.getLast?_append_of_ne_nil _ (List.cons_ne_nil _ _)] at hc
    rcases List.mem_cons.mp (List.mem_of_getLast? hc) with rfl | hmem
    · decide
    · exact isBlank_of_isSymbolChar (isSymbolChar_of_mem_toString hmem)
  · rw [toList_staticName]
    exact List.mem_append_right _ List.mem_cons_self

/-! ### Static variables in the memory -/

/-- **A variable has a cell of its own**: it is no label, and its cell lies behind the fixed ones.
No predefined symbol stands for its cell unless the variables reach the screen. -/
structure Rom.Variable (rom : Rom) (name : String) (cell : Nat) : Prop where
  cells : rom.cells[name]? = some cell
  label : name ∉ rom.labels
  first : MemoryMap.firstVariable ≤ cell
  predefined : rom.cells.size ≤ 16368 → ∀ entry ∈ MemoryMap.predefined, entry.2 ≠ cell

/-- **A symbol that is neither predefined nor a label** is a variable. -/
theorem Rom.variable_of_value? {text : String} {rom : Rom} (hrom : assemble text = .ok rom)
    {name : String} {cell : Nat} (hvalue : rom.value? name = some cell)
    (hpredefined : MemoryMap.predefined? name = none) (hlabel : name ∉ rom.labels) :
    rom.Variable name cell := by
  have hcell := Rom.cells_of_value? hvalue hpredefined (Std.HashMap.getElem?_eq_none hlabel)
  obtain ⟨hfirst, hlast⟩ := (Rom.numbered_of_assemble hrom).1.bounds name cell hcell
  refine ⟨hcell, hlabel, hfirst, fun hsize entry hentry => ?_⟩
  have hfixed : ∀ entry ∈ MemoryMap.predefined, entry.2 < 16 ∨ 16384 ≤ entry.2 := by decide
  have hfirst' : 16 ≤ cell := hfirst
  have hlast' : cell < 16 + rom.cells.size := hlast
  have := hfixed entry hentry
  omega

/-- Different variables have different cells. -/
theorem Rom.Variable.cell_inj {text : String} {rom : Rom} (hrom : assemble text = .ok rom)
    {name other : String} {cell cell' : Nat} (h : rom.Variable name cell)
    (h' : rom.Variable other cell') : cell = cell' ↔ name = other := by
  constructor
  · rintro rfl
    exact (Rom.numbered_of_assemble hrom).1.injective name other cell h.cells h'.cells
  · rintro rfl
    exact Option.some.inj (h.cells.symm.trans h'.cells)

/-- **A symbol with a compute instruction behind it** is loaded where it stands: the program holds
its cell there, and the instruction behind. -/
theorem Rom.access_of_assemble {before back : List Statement} {name : String} {access : Compute}
    {rom : Rom} (hname : LegibleName name)
    (hrom : assemble (listing (before ++ symbol name :: .instruction (.compute access) :: back)) =
      .ok rom) :
    ∃ cell, rom.value? name = some cell ∧ rom.code[addressBehind before]? = some (.load cell) ∧
      rom.code[addressBehind before + 1]? = some (.compute access) := by
  have hcompute : (Statement.instruction (.compute access)).Plain := trivial
  have hholds := Rom.holds_of_assemble hrom
  rw [statementsOf_append, statementsOf_cons hname.symbol, statementsOf_cons hcompute.legible]
    at hholds
  have haccess := hholds.right
  rw [Nat.zero_add] at haccess
  obtain ⟨op, hload, cell, hvalue, rfl⟩ := haccess.head
  obtain ⟨op', hnext, rfl⟩ := haccess.tail.head
  exact ⟨cell, hvalue, hload, hnext⟩

/-! ### Lines that access static variables -/

/-- **A line of a program that pushes or pops a static variable.** -/
structure SourceLine.AccessesStatic (line : SourceLine) (sources : List Source) (c : Command)
    (index : Nat) : Prop where
  occurs : line.OccursIn sources
  read : Command.read line.text = .ok c
  command : c = .push .static index ∨ c = .pop .static index

/-- **Code accesses a memory cell** for a command: a push begins with loading the address of the
cell and reading the memory there, and a pop, which first takes the value from the stack, ends with
loading the address and writing. -/
def Rom.Accesses (rom : Rom) (address : Nat) : Command → Nat → Prop
  | .push _ _, cell =>
    rom.code[address]? = some (.load cell) ∧
      rom.code[address + 1]? = some (.compute ⟨some .d, .y .m, none⟩)
  | .pop _ _, cell =>
    rom.code[address + 3]? = some (.load cell) ∧
      rom.code[address + 4]? = some (.compute ⟨some .m, .d, none⟩)
  | _, _ => False

/-- **A line accesses a memory cell**: its code stands in the translation behind that of the lines
before it, and accesses the cell in the program. -/
def SourceLine.Accesses (line : SourceLine) (options : Options) (t : Translation) (rom : Rom)
    (c : Command) (cell : Nat) : Prop :=
  ∃ (site : Site) (after : List Statement), site.task = .written c ∧
    t.code.toList = codeOf options.annotate (sitesOf {} (line.before options)) ++
      (site.code options.annotate ++ after) ∧
    rom.Accesses (addressBehind (codeOf options.annotate (sitesOf {} (line.before options)))) c cell

/-- **A line has a site**, which was found in a context with what stands before the line. -/
theorem SourceLine.OccursIn.exists_site {line : SourceLine} {sources : List Source}
    {options : Options} {sites : List Site} {context : Context} {c : Command}
    (h : line.OccursIn sources) (hc : Command.read line.text = .ok c)
    (htranslates : Translates {} (events sources options) sites context) :
    ∃ site rest context', sites = sitesOf {} (line.before options) ++ site :: rest ∧
      site.task = .written c ∧ site.context.statics = some line.space ∧
      Block.Lowers site.context c site.block context' := by
  obtain ⟨after, hevents⟩ := h.events_eq options
  rw [hevents] at htranslates
  obtain ⟨first, second, between, rfl, hfirst, hsecond⟩ := htranslates.split
  have hspace : between.standing.space = some line.space := by
    rw [hfirst.standing_eq]
    exact line.space_eq options
  cases hsecond with
  | task hasks hlowers hrest =>
    cases hasks with
    | line number hread =>
      obtain rfl := Except.ok.inj (hc.symm.trans hread)
      cases hlowers with
      | written hlowers =>
        exact ⟨⟨between, _, _⟩, _, _, by rw [hfirst.sitesOf_eq], rfl, hspace, hlowers⟩

/-- What a static variable denotes. -/
theorem Block.target_eq_of_static {context : Context} {space : String} {index : Nat}
    {denoted : Block.Target} (hspace : context.statics = some space)
    (h : Block.target context .static index = .ok denoted) :
    denoted = .direct (.symbol (staticName space index)) := by
  cases target_eq_ok_iff.mp h with
  | static hsame =>
    obtain rfl := Option.some.inj (hsame.symm.trans hspace)
    rfl

/-- **The code of a command that accesses a static variable** holds the variable's name where the
command accesses a cell. -/
theorem Block.Lowers.block_static {context context' : Context} {c : Command} {block : Block}
    {space : String} {index : Nat} (h : Lowers context c block context')
    (hspace : context.statics = some space)
    (hc : c = .push .static index ∨ c = .pop .static index) :
    ∃ front access rest,
      block = front ++ symbol (staticName space index) :: .instruction (.compute access) :: rest ∧
        (∀ s ∈ front, s.Plain) ∧
        ∀ (rom : Rom) (address cell : Nat),
          rom.code[address + size front]? = some (.load cell) →
          rom.code[address + size front + 1]? = some (.compute access) →
          rom.Accesses address c cell := by
  rcases hc with rfl | rfl
  · cases h with
    | push htarget =>
      obtain rfl := target_eq_of_static hspace htarget
      exact ⟨[], _, pushD, rfl, fun s hs => absurd hs List.not_mem_nil,
        fun rom address cell hload haccess => ⟨hload, haccess⟩⟩
  · cases h with
    | pop htarget hpop =>
      obtain rfl := target_eq_of_static hspace htarget
      obtain rfl := Except.ok.inj hpop
      refine ⟨popD, _, [], rfl, fun s hs => ?_,
        fun rom address cell hload haccess => ⟨hload, haccess⟩⟩
      exact writtenWith_isName.mp (writtenWith_popD (fun _ => id) s hs)

/-- A namespace that a line stands in can stand on a line if those of the files can. -/
theorem SourceLine.OccursIn.inline_space {line : SourceLine} {sources : List Source}
    (h : line.OccursIn sources) (hspaces : ∀ source ∈ sources, Inline source.space.toList) :
    Inline line.space.toList := by
  rw [SourceLine.space]
  cases hlast : (line.above.filterMap functionOn?).getLast? with
  | none =>
    obtain ⟨below, later, rfl, -⟩ := h
    exact hspaces _ (List.mem_append_right _ List.mem_cons_self)
  | some name =>
    obtain ⟨above, -, hname⟩ := List.mem_filterMap.mp (List.mem_of_getLast? hlast)
    obtain ⟨locals, hfunction⟩ := functionOn?_eq_some.mp hname
    have hwritten := Command.written_of_read hfunction
    rw [Option.map_some, Option.getD_some, Context.functionSpace, String.toList_ofList]
    exact inline_of_isSymbolChar fun c hc =>
      hwritten.1.isSymbolChar (List.takeWhile_subset _ hc)

section

variable {sources : List Source} {options : Options} {t : Translation} {rom : Rom}

/-- **The names of a program can stand on a line** if its namespaces can, but for the name of the
entry function. -/
theorem Translates.writtenWith_inline {sites : List Site} {context : Context}
    (h : Translates {} (events sources options) sites context)
    (hspaces : ∀ source ∈ sources, Inline source.space.toList) :
    ∀ s ∈ codeOf options.annotate sites, s.WrittenWith (fun name => Inline name.toList) ∨
      options.startUp = true ∧ s = symbol options.entry :=
  h.writtenWith_codeOf (fun _ hname => hname.legible.inline) fun source hsource =>
    Standing.builds_inline (hspaces source hsource)

/-- Every statement of such a program stands on one line. -/
theorem Translates.newline_not_mem {sites : List Site} {context : Context}
    (h : Translates {} (events sources options) sites context)
    (hspaces : ∀ source ∈ sources, Inline source.space.toList)
    (hentry : options.startUp = true → '\n' ∉ options.entry.toList) :
    ∀ s ∈ codeOf options.annotate sites, '\n' ∉ s.render.toList := by
  intro s hs
  rcases h.writtenWith_inline hspaces s hs with hs | ⟨hon, rfl⟩
  · exact (hs.mono fun _ hname => hname.newline_not_mem).newline_not_mem
  · rw [toList_render_symbol]
    exact List.not_mem_cons_of_ne_of_not_mem (by decide) (hentry hon)

/-- **The code around a static variable.** A line that pushes or pops one has a site in the program,
which holds the name of the variable where the line accesses a cell. -/
theorem SourceLine.AccessesStatic.exists_around {line : SourceLine} {c : Command} {i : Nat}
    (h : line.AccessesStatic sources c i) {sites : List Site} {context : Context}
    (htranslates : Translates {} (events sources options) sites context) :
    ∃ site rest before access back, sites = sitesOf {} (line.before options) ++ site :: rest ∧
      site.task = .written c ∧
      codeOf options.annotate sites =
        before ++ symbol (staticName line.space i) :: .instruction (.compute access) :: back ∧
      ∀ (rom : Rom) (cell : Nat), rom.code[addressBehind before]? = some (.load cell) →
        rom.code[addressBehind before + 1]? = some (.compute access) →
        rom.Accesses (addressBehind (codeOf options.annotate (sitesOf {} (line.before options))))
          c cell := by
  obtain ⟨site, rest, context', rfl, htask, hspace, hlowers⟩ :=
    h.occurs.exists_site h.read htranslates
  obtain ⟨front, access, back, hblock, hfront, haccesses⟩ := hlowers.block_static hspace h.command
  obtain ⟨note, hcode, hnote⟩ : ∃ note, site.code options.annotate =
      note ++ (front ++ symbol (staticName line.space i) ::
        .instruction (.compute access) :: back) ∧ addressBehind note = 0 := by
    rw [Site.code, hblock, htask]
    exact ⟨_, rfl, addressBehind_note _ (Command.written_of_read h.read)⟩
  -- The note ahead of the block takes no address.
  have haddress : addressBehind
      (codeOf options.annotate (sitesOf {} (line.before options)) ++ note ++ front) =
        addressBehind (codeOf options.annotate (sitesOf {} (line.before options))) +
          size front := by
    rw [addressBehind_append, addressBehind_append, hnote, addressBehind_eq_size hfront,
      Nat.add_zero]
  refine ⟨site, rest, codeOf options.annotate (sitesOf {} (line.before options)) ++ note ++ front,
    access, back ++ codeOf options.annotate rest, rfl, htask, ?_, fun rom cell hload hnext => ?_⟩
  · rw [codeOf, List.flatMap_append, List.flatMap_cons, hcode]
    simp only [codeOf, List.append_assoc, List.cons_append]
  · rw [haddress] at hload hnext
    exact haccesses rom _ cell hload hnext

/-- **A line that pushes or pops a static variable** accesses the cell that the variable's name
stands for. -/
theorem SourceLine.AccessesStatic.accesses {line : SourceLine} {c : Command} {i : Nat}
    (h : line.AccessesStatic sources c i) (ht : translate sources options = .ok t)
    (hrom : assemble t.text = .ok rom)
    (hspaces : ∀ source ∈ sources, Inline source.space.toList)
    (hentry : options.startUp = true → '\n' ∉ options.entry.toList) :
    ∃ cell, rom.value? (staticName line.space i) = some cell ∧
      line.Accesses options t rom c cell := by
  obtain ⟨sites, context, -, htranslates, -⟩ := translates_of_translate ht
  have hcodes := htranslates.code_eq ht
  have hline := htranslates.newline_not_mem hspaces hentry
  obtain ⟨site, rest, before, access, back, hsites, htask, haround, haccesses⟩ :=
    h.exists_around htranslates
  rw [Translation.text, hcodes, haround] at hrom
  rw [haround] at hline
  -- The program has been assembled, so the operand has been read.
  have hcode : code (symbol (staticName line.space i)).render.toList ≠ [] := by
    obtain ⟨tail, htail⟩ := @exists_code_cons '@' (by decide) (by decide)
      (staticName line.space i).toList
    rw [toList_render_symbol, htail]
    exact List.cons_ne_nil _ _
  have hname := legible_staticName (h.occurs.inline_space hspaces) i
    (Layout.read_of_assemble hline hrom (List.mem_append_right _ List.mem_cons_self) hcode)
  obtain ⟨cell, hvalue, hload, hnext⟩ := Rom.access_of_assemble hname hrom
  refine ⟨cell, hvalue, site, codeOf options.annotate rest, htask, ?_,
    haccesses rom cell hload hnext⟩
  rw [hcodes, hsites, codeOf, List.flatMap_append, List.flatMap_cons]
  rfl

/-- **The labels of a program were rendered**, as long as its names stand on its lines. -/
theorem mem_rendered_of_mem_labels (ht : translate sources options = .ok t)
    (hrom : assemble t.text = .ok rom)
    (hspaces : ∀ source ∈ sources, Inline source.space.toList)
    (hentry : options.startUp = true → '\n' ∉ options.entry.toList) {name : String}
    (hname : name ∈ rom.labels) : name ∈ Standing.rendered {} (events sources options) := by
  obtain ⟨sites, context, -, htranslates, -⟩ := translates_of_translate ht
  rw [Translation.text, htranslates.code_eq ht] at hrom
  have hlabel := mem_labelNames_of_statementsOf (htranslates.newline_not_mem hspaces hentry)
    (fun s hs => (htranslates.writtenWith_inline hspaces s hs).imp_right fun h => ⟨_, h.2⟩)
    (Rom.mem_labelNames_of_mem_labels hrom hname)
  rw [labelNames_codeOf, htranslates.labelNames_eq] at hlabel
  exact hlabel

/-- **Static variables are isolated.** In a program that is translated and assembled, and whose
namespaces can stand on a line, let two lines push or pop static variables whose names are no labels
of the program. Then each line accesses a memory cell of the assembler's variables, and the cells
are the same exactly when indices and namespaces are. -/
theorem statics_are_isolated (ht : translate sources options = .ok t)
    (hrom : assemble t.text = .ok rom)
    (hspaces : ∀ source ∈ sources, Inline source.space.toList)
    (hentry : options.startUp = true → '\n' ∉ options.entry.toList)
    {line other : SourceLine} {c d : Command} {i j : Nat}
    (hline : line.AccessesStatic sources c i) (hother : other.AccessesStatic sources d j)
    (hfree : staticName line.space i ∉ Standing.rendered {} (events sources options))
    (hfree' : staticName other.space j ∉ Standing.rendered {} (events sources options)) :
    ∃ cell cell', line.Accesses options t rom c cell ∧ other.Accesses options t rom d cell' ∧
      rom.Variable (staticName line.space i) cell ∧
      rom.Variable (staticName other.space j) cell' ∧
      (cell = cell' ↔ i = j ∧ line.space = other.space) := by
  obtain ⟨cell, hvalue, haccesses⟩ := hline.accesses ht hrom hspaces hentry
  obtain ⟨cell', hvalue', haccesses'⟩ := hother.accesses ht hrom hspaces hentry
  have hvariable := Rom.variable_of_value? hrom hvalue (predefined?_staticName _ _)
    fun hlabel => hfree (mem_rendered_of_mem_labels ht hrom hspaces hentry hlabel)
  have hvariable' := Rom.variable_of_value? hrom hvalue' (predefined?_staticName _ _)
    fun hlabel => hfree' (mem_rendered_of_mem_labels ht hrom hspaces hentry hlabel)
  refine ⟨cell, cell', haccesses, haccesses', hvariable, hvariable', ?_⟩
  exact (hvariable.cell_inj hrom hvariable').trans staticName_inj

end

/-! ### Two programs -/

/-- Two files with a static variable each, the second of which ends with a function that is called
like those of the first. -/
def sharing : List Source :=
  [⟨"A.vm", "A", "push static 0"⟩,
    ⟨"B.vm", "B", "push static 0\nfunction A.f 0\npop static 0"⟩]

/-- The lines of these files that access static variables. -/
def sharingLines : List SourceLine :=
  [⟨[], sharing[0], [], 1, "push static 0"⟩,
    ⟨[sharing[0]], sharing[1], [], 1, "push static 0"⟩,
    ⟨[sharing[0]], sharing[1], [(1, "push static 0"), (2, "function A.f 0")], 3, "pop static 0"⟩]

/-- The function shares its variable with the first file, and not with the file it stands in. -/
theorem statics_are_isolated_sharing :
    ∃ t rom, translate sharing {} = .ok t ∧ assemble t.text = .ok rom ∧
      (∃ cell, sharingLines[0].Accesses {} t rom (.push .static 0) cell ∧
        sharingLines[2].Accesses {} t rom (.pop .static 0) cell) ∧
      ∃ cell cell', sharingLines[1].Accesses {} t rom (.push .static 0) cell ∧
        sharingLines[2].Accesses {} t rom (.pop .static 0) cell' ∧ cell ≠ cell' := by
  have hevents : events sharing {} = [.file sharing[0], .line 1 "push static 0", .file sharing[1],
    .line 1 "push static 0", .line 2 "function A.f 0", .line 3 "pop static 0"] := rfl
  obtain ⟨sites, context, htranslates, hfits⟩ : ∃ sites context,
      Translates {} (events sharing {}) sites context ∧
        size (sites.flatMap Site.block) ≤ MemoryMap.size := by
    rw [hevents]
    refine ⟨_, _, .file (.task (.line 1 (c := .push .static 0) rfl) (.written (.push rfl))
      (.file (.task (.line 1 (c := .push .static 0) rfl) (.written (.push rfl))
      (.task (.line 2 (c := .function "A.f" 0) rfl)
        (.written (.function Std.HashSet.not_mem_empty))
      (.task (.line 3 (c := .pop .static 0) rfl) (.written (.pop rfl rfl)) (.nil _)))))),
      by decide +kernel⟩
  have hsymbols : ∀ source ∈ sharing, isSymbol source.space.toList = true := by decide
  obtain ⟨t, rom, ht, hrom⟩ := htranslates.exists_rom hsymbols
    (fun hon => Bool.noConfusion hon) hfits
  have hspaces : ∀ source ∈ sharing, Inline source.space.toList :=
    fun source hsource => inline_of_isSymbol (hsymbols source hsource)
  have hentry : ({} : Options).startUp = true → '\n' ∉ ({} : Options).entry.toList :=
    fun hon => Bool.noConfusion hon
  have hfirst : sharingLines[0].AccessesStatic sharing (.push .static 0) 0 :=
    ⟨⟨_, _, rfl, rfl⟩, rfl, Or.inl rfl⟩
  have hsecond : sharingLines[1].AccessesStatic sharing (.push .static 0) 0 :=
    ⟨⟨_, _, rfl, rfl⟩, rfl, Or.inl rfl⟩
  have hthird : sharingLines[2].AccessesStatic sharing (.pop .static 0) 0 :=
    ⟨⟨_, _, rfl, rfl⟩, rfl, Or.inr rfl⟩
  have hfree : ∀ line ∈ sharingLines,
      staticName line.space 0 ∉ Standing.rendered {} (events sharing {}) := by decide +kernel
  obtain ⟨cell, _, hpushes, hpops, -, -, hsame⟩ := statics_are_isolated ht hrom hspaces hentry
    hfirst hthird (hfree _ (List.getElem_mem _)) (hfree _ (List.getElem_mem _))
  obtain rfl := hsame.mpr ⟨rfl, by decide⟩
  obtain ⟨own, other, hpushes', hpops', -, -, hdiffer⟩ := statics_are_isolated ht hrom hspaces
    hentry hsecond hthird (hfree _ (List.getElem_mem _)) (hfree _ (List.getElem_mem _))
  refine ⟨t, rom, ht, hrom, ⟨cell, hpushes, hpops⟩, own, other, hpushes', hpops', fun he => ?_⟩
  exact absurd (hdiffer.mp he).2 (by decide)

/-- A program with a function that is called like one of its static variables. -/
def shadowing : List Source :=
  [⟨"Main.vm", "Main", "function Main.0 0\npush constant 7\npop static 0\npush static 0"⟩]

/-- The line that pushes the variable. -/
def shadowingLine : SourceLine :=
  ⟨[], shadowing[0], [(1, "function Main.0 0"), (2, "push constant 7"), (3, "pop static 0")], 4,
    "push static 0"⟩

/-- **A static variable may be lost.** The label of the function takes the name of the variable, so
the command reads the cell whose address is that of the function, which is the stack pointer. -/
theorem exists_lost_static :
    ∃ t rom, translate shadowing {} = .ok t ∧ assemble t.text = .ok rom ∧
      shadowingLine.AccessesStatic shadowing (.push .static 0) 0 ∧
      shadowingLine.space = "Main" ∧ shadowingLine.Accesses {} t rom (.push .static 0) 0 ∧
      0 < MemoryMap.firstVariable ∧ rom.labels["Main.0"]? = some 0 := by
  have hevents : events shadowing {} = [.file shadowing[0], .line 1 "function Main.0 0",
    .line 2 "push constant 7", .line 3 "pop static 0", .line 4 "push static 0"] := rfl
  obtain ⟨sites, context, htranslates, hsites, hfits⟩ : ∃ sites context,
      Translates {} (events shadowing {}) sites context ∧
        sites.map Site.task = [.written (.function "Main.0" 0), .written (.push .constant 7),
          .written (.pop .static 0), .written (.push .static 0)] ∧
        size (sites.flatMap Site.block) ≤ MemoryMap.size := by
    rw [hevents]
    refine ⟨_, _, .file (.task (.line 1 (c := .function "Main.0" 0) rfl)
        (.written (.function Std.HashSet.not_mem_empty))
      (.task (.line 2 (c := .push .constant 7) rfl) (.written (.push rfl))
      (.task (.line 3 (c := .pop .static 0) rfl) (.written (.pop rfl rfl))
      (.task (.line 4 (c := .push .static 0) rfl) (.written (.push rfl)) (.nil _))))), rfl,
      by decide +kernel⟩
  have hsymbols : ∀ source ∈ shadowing, isSymbol source.space.toList = true := by decide
  obtain ⟨t, rom, ht, hrom⟩ := htranslates.exists_rom hsymbols
    (fun hon => Bool.noConfusion hon) hfits
  have hspaces : ∀ source ∈ shadowing, Inline source.space.toList :=
    fun source hsource => inline_of_isSymbol (hsymbols source hsource)
  have hline : shadowingLine.AccessesStatic shadowing (.push .static 0) 0 :=
    ⟨⟨_, _, rfl, rfl⟩, rfl, Or.inl rfl⟩
  have htext := hrom
  rw [Translation.text, htranslates.code_eq ht] at htext
  -- The label stands at the beginning of the program.
  obtain ⟨declaration, hdeclaration, hdeclares⟩ := exists_site hsites (k := 0) rfl
  obtain ⟨_, hlowers⟩ := htranslates.lowers declaration (List.mem_of_getElem? hdeclaration)
  have hlabel := Rom.label_of_function htext hdeclaration hdeclares hlowers
    ⟨⟨by decide, by decide⟩, by decide⟩
  obtain ⟨cell, hvalue, haccesses⟩ := hline.accesses ht hrom hspaces fun hon => Bool.noConfusion hon
  have hspace : shadowingLine.space = "Main" := by decide
  rw [hspace] at hvalue
  obtain rfl := Option.some.inj ((Rom.value?_label hlabel (by decide)).symm.trans hvalue)
  exact ⟨t, rom, ht, hrom, hline, hspace, haccesses, by decide, hlabel⟩

end HackStack
