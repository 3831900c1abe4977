import HackStack.Proofs.Rom.Program
import HackStack.Proofs.StackMachine.Semantics

/-!
# Loaded programs

A program of the stack machine comes from the same events as a translation. Once the translation has
been assembled, it is known which numbers calls save as return addresses and where the static
variables are (`HackStack.StackMachine.Program.ofEvents`).

The program and its translation then stand for each other task by task:
`HackStack.StackMachine.Program.Loaded` says that the block of every task is in its place, that the
symbols of labels are not taken by anything else, and that the variables are where the stack machine
has them. This is all that a simulation needs, and the assembler text is not mentioned again.
-/

namespace HackStack

open Assembly Statement

namespace StackMachine

/-- **The program that events come to**, with the numbers that the assembler has found. -/
def Program.ofEvents (all : List Event) (rom : Rom) : Program where
  tasks := Standing.tasks {} all
  address := rom.address (sitesOf {} all)
  cell? name := rom.cells[name]?

/-- **Labels clash with nothing**: no label of a function, of the source or of a call is called like
a predefined symbol or like a static variable that the program uses. -/
def Program.LabelsApart (P : Program) : Prop :=
  ∀ entry ∈ P.tasks, ∀ label ∈ entry.1.labels entry.2.command,
    (∀ ordinal branch, label ≠ .compare ordinal branch) →
      MemoryMap.predefined? label.render = none ∧
        ∀ entry' ∈ P.tasks, entry'.1.usedStatic? entry'.2.command ≠ some label.render

/-- **A program has been loaded**: each of its tasks is a site of the translation. -/
structure Program.Loaded (P : Program) (rom : Rom) (sites : List Site) : Prop where
  tasks : P.tasks = sites.map fun site => (site.context.standing, site.task)
  address : P.address = rom.address sites
  places : ∀ k site, sites[k]? = some site → rom.Places sites k site
  lowers : ∀ site ∈ sites, ∃ context', site.task.Lowers site.context site.block context'
  fits : rom.code.size ≤ MemoryMap.size
  /-- No label is called like a predefined symbol. -/
  label : ∀ site ∈ sites, ∀ label ∈ site.context.standing.labels site.task.command,
    MemoryMap.predefined? label.render = none
  /-- The symbol of a static variable stands for its cell. -/
  static : ∀ site ∈ sites, ∀ name,
    site.context.standing.usedStatic? site.task.command = some name →
      rom.value? name = P.cell? name

/-! ### Names that cannot clash -/

/-- **A static variable is never called like the label of a comparison**: it ends in a digit. -/
theorem static_ne_compare (space : String) (index ordinal : Nat) (branch : Branch) :
    space ++ "." ++ toString index ≠ (Label.compare ordinal branch).render := by
  intro h
  have hdigits : (toString index).toList ≠ [] := by
    rw [Nat.toString_eq_repr, Nat.toList_repr]
    exact Nat.toDigits_ne_nil
  have hindex : ∀ c ∈ (space ++ "." ++ toString index).toList.getLast?, c.isDigit = true := by
    intro c hc
    rw [String.toList_append, List.getLast?_append_of_ne_nil _ hdigits, Nat.toString_eq_repr,
      Nat.toList_repr] at hc
    exact Nat.isDigit_of_mem_toDigits (by decide) (by decide) (List.mem_of_getLast? hc)
  have hsuffix : branch.suffix.toList ≠ [] := by cases branch <;> decide
  rw [h, Label.render, String.toList_append, List.getLast?_append_of_ne_nil _ hsuffix] at hindex
  cases branch with
  | holds => exact absurd (hindex 'E' (by decide)) (by decide)
  | done => exact absurd (hindex 'D' (by decide)) (by decide)

/-- The names that a task renders are those of its labels. -/
theorem mem_labelNames_blocks {sites : List Site} {name : String}
    (h : ∀ site ∈ sites, ∃ context', site.task.Lowers site.context site.block context')
    (hname : name ∈ labelNames (sites.flatMap Site.block)) :
    ∃ site ∈ sites, ∃ label ∈ site.context.standing.labels site.task.command,
      label.render = name := by
  obtain ⟨site, hsite, hmem⟩ := List.mem_flatMap.mp (mem_labelNames.mp hname)
  obtain ⟨context', hlowers⟩ := h site hsite
  have hnames := mem_labelNames.mpr hmem
  rw [hlowers.labelNames_eq, Standing.names] at hnames
  exact ⟨site, hsite, List.mem_map.mp hnames⟩

/-- The symbol of a static variable that a command uses. -/
theorem exists_of_usedStatic? {s : Standing} {c : Command} {name : String}
    (h : s.usedStatic? c = some name) :
    ∃ (space : String) (index : Nat), name = space ++ "." ++ toString index := by
  have hstatic : ∀ index, s.static? index = some name →
      ∃ (space : String) (index : Nat), name = space ++ "." ++ toString index := by
    intro index hindex
    obtain ⟨space, -, rfl⟩ := Option.map_eq_some_iff.mp hindex
    exact ⟨space, index, rfl⟩
  unfold Standing.usedStatic? at h
  split at h
  · exact hstatic _ h
  · exact hstatic _ h
  · exact absurd h (by simp)

/-- **No label is declared that is called like a static variable** which the program uses, if the
labels that are not those of comparisons clash with nothing. -/
theorem Program.LabelsApart.static_not_mem_labelNames {P : Program} {sites : List Site}
    (h : P.LabelsApart)
    (htasks : ∀ site ∈ sites, (site.context.standing, site.task) ∈ P.tasks)
    (hlowers : ∀ site ∈ sites, ∃ context', site.task.Lowers site.context site.block context')
    {site : Site} (hsite : site ∈ sites) {space : String} {index : Nat}
    (hname : site.context.standing.usedStatic? site.task.command =
      some (space ++ "." ++ toString index)) :
    space ++ "." ++ toString index ∉ labelNames (sites.flatMap Site.block) := by
  intro hdeclared
  obtain ⟨site', hsite', label, hlabel, hrender⟩ := mem_labelNames_blocks hlowers hdeclared
  by_cases hcompare : ∃ ordinal branch, label = .compare ordinal branch
  · obtain ⟨ordinal, branch, rfl⟩ := hcompare
    exact static_ne_compare space index ordinal branch hrender.symm
  · have hapart := (h _ (htasks site' hsite') label hlabel fun ordinal branch he =>
      hcompare ⟨ordinal, branch, he⟩).2 _ (htasks site hsite)
    rw [hrender] at hapart
    exact hapart hname

/-- **A program that has been translated and assembled is loaded**, if its labels clash with
nothing. -/
theorem loaded_of_translate {sources : List Source} {options : Options} {t : Translation}
    {rom : Rom} (ht : translate sources options = .ok t) (hrom : assemble t.text = .ok rom)
    (hspaces : ∀ source ∈ sources, isSymbol source.space.toList = true)
    (hentry : options.startUp = true → isSymbol options.entry.toList = true)
    (hlabels : (Program.ofEvents (events sources options) rom).LabelsApart) :
    ∃ sites, (Program.ofEvents (events sources options) rom).Loaded rom sites ∧
      rom.code.size = size (sites.flatMap Site.block) := by
  obtain ⟨sites, context, h, hassembled⟩ := assembled_of_translate ht hrom hspaces hentry
  have htasks : (Program.ofEvents (events sources options) rom).tasks =
      sites.map fun site => (site.context.standing, site.task) := h.tasks_eq.symm
  have hmem : ∀ site ∈ sites, (site.context.standing, site.task) ∈
      (Program.ofEvents (events sources options) rom).tasks := by
    intro site hsite
    rw [htasks]
    exact List.mem_map_of_mem hsite
  refine ⟨sites, ⟨htasks, ?_, fun k site hsite => ?_, h.lowers, ?_,
    fun site hsite label hlabel => ?_, fun site hsite name hname => ?_⟩, ?_⟩
  · rw [Program.ofEvents, h.sitesOf_eq]
  · exact hassembled.places (h.nodup_codeOf options.annotate) hsite
  · rw [hassembled.size_eq]
    exact hassembled.fits
  -- The labels of comparisons are no predefined symbols, because they have a dot.
  · by_cases hcompare : ∃ ordinal branch, label = .compare ordinal branch
    · obtain ⟨ordinal, branch, rfl⟩ := hcompare
      exact predefined?_of_dot (by simp [Label.render])
    · refine (hlabels _ (hmem site hsite) label hlabel fun ordinal branch he => ?_).1
      exact hcompare ⟨ordinal, branch, he⟩
  · obtain ⟨space, index, rfl⟩ := exists_of_usedStatic? hname
    have hnone : rom.labels[space ++ "." ++ toString index]? = none := by
      rw [hassembled.label, ← Option.not_isSome_iff_eq_none, labelAddress?_isSome,
        labelNames_codeOf]
      exact hlabels.static_not_mem_labelNames hmem h.lowers hsite hname
    rw [Rom.value?, predefined?_of_dot (by simp), hnone]
    rfl
  · rw [hassembled.size_eq, size_codeOf]

namespace Program.Loaded

variable {P : Program} {rom : Rom} {sites : List Site} {k : Nat} {s : Standing} {task : Task}

/-- Tasks are sites. -/
theorem exists_site (h : P.Loaded rom sites) (htask : P.tasks[k]? = some (s, task)) :
    ∃ site, sites[k]? = some site ∧ s = site.context.standing ∧ task = site.task := by
  rw [h.tasks, List.getElem?_map] at htask
  obtain ⟨site, hsite, hpair⟩ := Option.map_eq_some_iff.mp htask
  obtain ⟨rfl, rfl⟩ := Prod.mk.inj hpair
  exact ⟨site, hsite, rfl, rfl⟩

/-- Addresses are words. -/
theorem address_lt (h : P.Loaded rom sites) (k : Nat) : P.address k < 65536 := by
  have hfits : rom.code.size ≤ 32768 := h.fits
  rw [h.address, Rom.address]
  omega

theorem toNat_address (h : P.Loaded rom sites) (k : Nat) :
    (Word.ofNat (P.address k)).toNat = P.address k := Word.toNat_ofNat (h.address_lt k)

end Program.Loaded

end StackMachine

end HackStack
