import HackStack.Proofs.Command.Written
import HackStack.Proofs.Session.Run

/-!
# The names in the code of a program

A command is lowered to statements whose numbers can be loaded. Their symbols are fixed names, names
that the command holds, and names that are built in its standing: labels of its scope and static
variables of its namespace. So a property of all names that is kept where names are built
(`HackStack.Standing.Builds`) is a property of all symbols in the code of a program
(`HackStack.Translates.writtenWith`).

The property that matters most is that of being a name. It is kept as long as the qualifier of the
scope and the namespace are symbols (`HackStack.Standing.Named`). They may be empty, since what is
built from them is a name all the same; then the code is plain (`HackStack.Translates.plain`).

The one name that nobody has checked is that of the entry function. So the results about whole
programs make an exception for the statement that loads it.
-/

namespace HackStack

open Assembly Statement

/-! ### Blocks by their names -/

/-- A block whose statements are all written with such names. -/
def Block.WrittenWith (P : String → Prop) (block : Block) : Prop := ∀ s ∈ block, s.WrittenWith P

section

variable {P : String → Prop}

namespace Block

@[simp]
theorem writtenWith_nil : WrittenWith P [] := fun _ h => absurd h List.not_mem_nil

@[simp]
theorem writtenWith_cons {s : Statement} {block : Block} :
    WrittenWith P (s :: block) ↔ s.WrittenWith P ∧ WrittenWith P block := List.forall_mem_cons

@[simp]
theorem writtenWith_append {block rest : Block} :
    WrittenWith P (block ++ rest) ↔ WrittenWith P block ∧ WrittenWith P rest :=
  List.forall_mem_append

end Block

@[simp]
theorem Assembly.Statement.writtenWith_number {n : Nat} :
    (number n).WrittenWith P ↔ n ≤ MemoryMap.maxAddress := Iff.rfl

@[simp]
theorem Assembly.Statement.writtenWith_symbol {name : String} :
    (symbol name).WrittenWith P ↔ P name := Iff.rfl

@[simp]
theorem Assembly.Statement.writtenWith_assign {dest : Dest} {comp : Comp} :
    (assign dest comp).WrittenWith P := trivial

@[simp]
theorem Assembly.Statement.writtenWith_branch {comp : Comp} {jump : Jump} :
    (branch comp jump).WrittenWith P := trivial

@[simp]
theorem Assembly.Statement.writtenWith_label {name : String} :
    (label name).WrittenWith P ↔ P name := Iff.rfl

end

/-- The symbols of the fixed cells are names. -/
theorem isName_fixed {name : String}
    (h : name ∈ [MemoryMap.stackPointer, MemoryMap.popTarget, MemoryMap.frameBase,
      MemoryMap.returnAddress]) : IsName name := by
  refine ⟨?_, ?_⟩ <;> revert name <;> decide

/-- The symbols of the pointers are names. -/
@[simp]
theorem Pointer.isName_symbol (p : Pointer) : IsName p.symbol := by
  cases p <;> exact ⟨by decide, by decide⟩

@[simp]
theorem isName_stackPointer : IsName MemoryMap.stackPointer := isName_fixed (by decide)

@[simp]
theorem isName_popTarget : IsName MemoryMap.popTarget := isName_fixed (by decide)

@[simp]
theorem isName_frameBase : IsName MemoryMap.frameBase := isName_fixed (by decide)

@[simp]
theorem isName_returnAddress : IsName MemoryMap.returnAddress := isName_fixed (by decide)

namespace Block

/-! ### The parts of the code -/

/-- What a target has to satisfy for its code. -/
def Target.WrittenWith (P : String → Prop) : Target → Prop
  | .immediate value => value ≤ MemoryMap.maxAddress
  | .direct operand => (instruction (.address operand)).WrittenWith P
  | .indirect _ offset => offset ≤ MemoryMap.maxAddress

section

variable {P : String → Prop} (hP : ∀ name, IsName name → P name)

include hP

theorem writtenWith_pushD : pushD.WrittenWith P := by simp [pushD, hP]

theorem writtenWith_popD : popD.WrittenWith P := by simp [popD, hP]

theorem writtenWith_top : top.WrittenWith P := by simp [top, hP]

theorem writtenWith_popThenTop : popThenTop.WrittenWith P := by
  simp [popThenTop, writtenWith_popD hP]

/-- Pushing zeros takes no names but that of the stack pointer. -/
theorem writtenWith_zeros (locals : Nat) : (zeros locals).WrittenWith P := by
  rw [zeros]
  split
  · exact writtenWith_nil
  · refine writtenWith_cons.mpr ⟨writtenWith_assign, fun s hs => ?_⟩
    obtain ⟨block, hblock, hs⟩ := List.mem_flatten.mp hs
    rw [List.eq_of_mem_replicate hblock] at hs
    exact writtenWith_pushD hP s hs

theorem writtenWith_fetch {denoted : Target} (h : denoted.WrittenWith P) :
    (fetch denoted).WrittenWith P := by
  cases denoted with
  | immediate value => simpa [fetch] using show value ≤ _ from h
  | direct operand => simpa [fetch] using show (instruction _).WrittenWith P from h
  | indirect pointer offset => simpa [fetch, loadD, hP] using show offset ≤ _ from h

theorem writtenWith_popTo {denoted : Target} {block : Block} (h : denoted.WrittenWith P)
    (hp : popTo denoted = .ok block) : block.WrittenWith P := by
  cases denoted with
  | immediate value => exact absurd hp (by simp [popTo])
  | direct operand =>
    obtain rfl := Except.ok.inj hp
    simpa [writtenWith_popD hP] using show (instruction _).WrittenWith P from h
  | indirect pointer offset =>
    obtain rfl := Except.ok.inj hp
    simpa [writtenWith_popD hP, loadD, saveD, hP] using show offset ≤ _ from h

theorem writtenWith_savePointers : savePointers.WrittenWith P := by
  simp [savePointers, Pointer.all, loadD, writtenWith_pushD hP, hP]

theorem writtenWith_enterFrame {distance : Nat} (h : distance ≤ MemoryMap.maxAddress) :
    (enterFrame distance).WrittenWith P := by
  simpa [enterFrame, loadD, saveD, hP] using h

theorem writtenWith_leaveFrame : leaveFrame.WrittenWith P := by
  have hframe : MemoryMap.frameSize ≤ MemoryMap.maxAddress := by decide
  simp [leaveFrame, restorePointers, Pointer.restored, Pointer.all, loadD, saveD, popD, hP, hframe]

theorem writtenWith_branches {jump : Jump} {holds done : String} (hh : P holds) (hd : P done) :
    (branches jump holds done).WrittenWith P := by
  simp [branches, writtenWith_popThenTop hP, writtenWith_top hP, hh, hd]

/-- **The code of a call**, but for the statement that loads the function's name. -/
theorem writtenWith_callReturningTo {returnLabel name : String} {arguments : Nat}
    (hlabel : P returnLabel) (h : arguments + MemoryMap.frameSize ≤ MemoryMap.maxAddress) :
    ∀ s ∈ callReturningTo returnLabel name arguments, s.WrittenWith P ∨ s = symbol name := by
  have hfront : WrittenWith P ([symbol returnLabel, assign .d (.y .a)] ++ pushD ++ savePointers ++
      enterFrame (arguments + MemoryMap.frameSize)) := by
    simp [hlabel, writtenWith_pushD hP, writtenWith_savePointers hP, writtenWith_enterFrame hP h]
  intro s hs
  rw [callReturningTo] at hs
  rcases List.mem_append.mp hs with hs | hs
  · exact Or.inl (hfront s hs)
  · rcases List.mem_cons.mp hs with rfl | hs
    · exact Or.inr rfl
    · have hend : WrittenWith P [branch .zero .always, label returnLabel] := by simp [hlabel]
      exact Or.inl (hend s hs)

end

end Block

/-! ### Names that are built -/

/-- **What a standing builds has a property**: the labels of its scope and the static variables of
its namespace. -/
structure Standing.Builds (P : String → Prop) (s : Standing) : Prop where
  user : ∀ name, IsName name → P (Label.user s.scope name).render
  returnTo : ∀ ordinal, P (Label.returnTo s.scope ordinal).render
  static : ∀ space, s.space = some space → ∀ index : Nat, P (space ++ "." ++ toString index)

/-- **What names are built from is a symbol**: the qualifier of the scope, and the namespace. -/
structure Standing.Named (s : Standing) : Prop where
  scope : isSymbol s.scope.qualifier.toList = true
  space : ∀ space, s.space = some space → isSymbol space.toList = true

/-- A namespace and a dot in front of a number make a name. -/
theorem isName_static {space : String} (h : isSymbol space.toList = true) (index : Nat) :
    IsName (space ++ "." ++ toString index) :=
  isName_append h ⟨by decide, by decide⟩ fun _ hc => isSymbolChar_of_mem_toString hc

/-- The labels of comparisons are names. -/
theorem isName_compare (ordinal : Nat) (branch : Branch) :
    IsName (Label.compare ordinal branch).render := by
  have hcompare : (Label.compare ordinal branch).render =
      "" ++ "CMP." ++ (toString ordinal ++ "." ++ branch.suffix) := by
    simp only [Label.render, String.empty_append, String.append_assoc]
  rw [hcompare]
  refine isName_append (by decide) ⟨by decide, by decide⟩ fun d hd => ?_
  rw [String.toList_append, String.toList_append, List.mem_append, List.mem_append] at hd
  rcases hd with (hd | hd) | hd
  · exact isSymbolChar_of_mem_toString hd
  · obtain rfl : d = '.' := by simpa using hd
    decide
  · have hsuffix : branch.suffix.toList.all isSymbolChar = true := by cases branch <;> decide
    exact List.all_eq_true.mp hsuffix d hd

namespace Standing

variable {P : String → Prop} {s : Standing}

/-- **Names are built from symbols.** -/
theorem Named.builds (h : s.Named) : s.Builds IsName where
  user _ hname := isName_append h.scope ⟨by decide, by decide⟩ fun _ hc => hname.isSymbolChar hc
  returnTo _ := isName_append h.scope ⟨by decide, by decide⟩ fun _ hc =>
    isSymbolChar_of_mem_toString hc
  static space hspace := isName_static (h.space space hspace)

theorem Builds.mono {Q : String → Prop} (h : s.Builds P) (himp : ∀ name, P name → Q name) :
    s.Builds Q where
  user name hname := himp _ (h.user name hname)
  returnTo ordinal := himp _ (h.returnTo ordinal)
  static space hspace index := himp _ (h.static space hspace index)

/-- A file whose namespace is a symbol builds names. -/
theorem named_beginFile {space : String} (h : isSymbol space.toList = true) :
    (s.beginFile space).Named :=
  ⟨h, fun _ hspace => Option.some.inj hspace ▸ h⟩

/-- **The standing behind a command** that can be read builds names with the property. -/
theorem Builds.behind (h : s.Builds P) (hP : ∀ name, IsName name → P name) {c : Command}
    (hc : c.Written) : (s.behind c).Builds P := by
  rcases c with _ | _ | (_ | _ | _) | _ | _ | _ | ⟨name, locals⟩ | _ | _
  case function =>
    have hnamed : (s.behind (.function name locals)).Named := by
      refine ⟨hc.1.1, fun space hspace => ?_⟩
      obtain rfl := Option.some.inj hspace
      rw [Context.functionSpace, String.toList_ofList]
      exact isSymbol_takeWhile _ hc.1.1
    exact hnamed.builds.mono hP
  all_goals exact ⟨h.user, h.returnTo, h.static⟩

end Standing

/-! ### The code of commands and tasks -/

section

variable {P : String → Prop} {context context' : Context} {block : Block}

/-- What a segment and an index denote. -/
theorem Block.writtenWith_target (hP : ∀ name, IsName name → P name) {segment : Segment}
    {index : Nat} {denoted : Target}
    (h : segment = .static → ∀ space, context.statics = some space →
      P (space ++ "." ++ toString index))
    (ht : target context segment index = .ok denoted) : denoted.WrittenWith P := by
  cases target_eq_ok_iff.mp ht with
  | constant hindex | based p hindex => exact hindex
  | temp hindex =>
    rw [MemoryMap.tempSize] at hindex
    change MemoryMap.tempBase + index ≤ MemoryMap.maxAddress
    rw [MemoryMap.tempBase, MemoryMap.maxAddress]
    omega
  | this | that => exact hP _ (Pointer.isName_symbol _)
  | static hspace hindex => exact h rfl _ hspace

/-- **The code of a command that can be read**, but for a call of a function without a name. -/
theorem Block.Lowers.writtenWith {c : Command} (h : Lowers context c block context')
    (hP : ∀ name, IsName name → P name) (hs : context.standing.Builds P)
    (hc : c.Written ∨ ∃ entry, c = .call entry 0) :
    ∀ s ∈ block,
      s.WrittenWith P ∨ ∃ name arguments, c = .call name arguments ∧ s = symbol name := by
  have whole : block.WrittenWith P → ∀ s ∈ block, s.WrittenWith P ∨
      ∃ name arguments, c = .call name arguments ∧ s = symbol name :=
    fun hblock s hmem => Or.inl (hblock s hmem)
  have written : (∀ entry, c ≠ .call entry 0) → c.Written :=
    fun hne => hc.resolve_right fun ⟨entry, he⟩ => hne entry he
  cases h with
  | @push segment index denoted htarget =>
    have hdenoted := writtenWith_target hP (fun _ space hspace => hs.static space hspace index)
      htarget
    exact whole (writtenWith_append.mpr ⟨writtenWith_fetch hP hdenoted, writtenWith_pushD hP⟩)
  | @pop segment index denoted block htarget hp =>
    have hdenoted := writtenWith_target hP (fun _ space hspace => hs.static space hspace index)
      htarget
    exact whole (writtenWith_popTo hP hdenoted hp)
  | unary op => exact whole (by simp [writtenWith_top hP])
  | binary op => exact whole (by simp [writtenWith_popThenTop hP])
  | comparison op hholds hdone =>
    exact whole (writtenWith_branches hP (hP _ (isName_compare _ _)) (hP _ (isName_compare _ _)))
  | @label name hfree =>
    have hname : P (context.userLabel name).render := hs.user name (written (by simp))
    exact whole (by simpa using hname)
  | goto target =>
    have hname : P (context.userLabel target).render := hs.user target (written (by simp))
    exact whole (by simpa [Block.goto] using hname)
  | ifGoto target =>
    have hname : P (context.userLabel target).render := hs.user target (written (by simp))
    exact whole (by simpa [Block.ifGoto, writtenWith_popD hP] using hname)
  | function hfree =>
    exact whole (writtenWith_cons.mpr ⟨hP _ (written (by simp)).1, writtenWith_zeros hP _⟩)
  | @call name arguments hreach hfree =>
    intro s hmem
    exact (writtenWith_callReturningTo hP (hs.returnTo _) hreach s hmem).imp_right
      fun hname => ⟨name, arguments, rfl, hname⟩
  | ret hfunction => exact whole (writtenWith_leaveFrame hP)

/-- A task whose command can be read. -/
def Task.Named : Task → Prop
  | .startUp _ _ => True
  | .written c => c.Written

/-- **The code of a task**, but for the name of the entry function. -/
theorem Task.Lowers.writtenWith {task : Task} (h : task.Lowers context block context')
    (hP : ∀ name, IsName name → P name) (hs : context.standing.Builds P) (ht : task.Named) :
    ∀ s ∈ block, s.WrittenWith P ∨
      ∃ stackBase entry, task = .startUp stackBase entry ∧ s = symbol entry := by
  cases h with
  | @startUp stackBase entry code _ hbase h =>
    have hsetUp : (Block.setUp stackBase).WrittenWith P := by
      simpa [Block.setUp, Block.saveD, hP] using hbase
    intro s hmem
    rcases List.mem_append.mp hmem with hmem | hmem
    · exact Or.inl (hsetUp s hmem)
    · rcases h.writtenWith hP hs (Or.inr ⟨entry, rfl⟩) s hmem with
        hwritten | ⟨name, arguments, hcall, rfl⟩
      · exact Or.inl hwritten
      · obtain ⟨rfl, -⟩ := Command.call.inj hcall
        exact Or.inr ⟨stackBase, entry, rfl, rfl⟩
  | written h =>
    intro s hmem
    rcases h.writtenWith hP hs (Or.inl ht) s hmem with hwritten | ⟨name, arguments, rfl, rfl⟩
    · exact Or.inl hwritten
    · exact Or.inl (hP _ ht.1)

/-- What an event asks for. -/
theorem Event.Asks.named {e : Event} {task : Task} (h : e.Asks task) : task.Named := by
  cases h with
  | startUp _ _ => trivial
  | line _ hread => exact Command.written_of_read hread

/-- The standing behind a task. -/
theorem Standing.Builds.behind_task {s : Standing} {task : Task} (h : s.Builds P)
    (hP : ∀ name, IsName name → P name) (ht : task.Named) :
    (s.behind task.command).Builds P := by
  cases task with
  | startUp _ entry => exact ⟨h.user, h.returnTo, h.static⟩
  | written c => exact h.behind hP ht

/-- The comment ahead of a task's code. -/
theorem Task.Named.plain_note {task : Task} (h : task.Named) :
    (Statement.comment task.note).Plain := by
  cases task with
  | startUp _ _ =>
    have hword : IsWord "bootstrap" := by decide
    have hnote : (Statement.comment "bootstrap").Plain :=
      ⟨Text.trimmed_of_forall hword.2, by decide, by decide⟩
    exact hnote
  | written c => exact Command.Written.plain_note h

/-- **The names in the code of a program** have a property that all names have and that is kept
where names are built, but for the name of the entry function. -/
theorem Translates.writtenWith {all : List Event} {sites : List Site}
    (h : Translates context all sites context') (hP : ∀ name, IsName name → P name)
    (hs : context.standing.Builds P)
    (hall : ∀ source, .file source ∈ all → (Standing.beginFile {} source.space).Builds P) :
    ∀ site ∈ sites, ∀ annotate, ∀ s ∈ site.code annotate, s.WrittenWith P ∨
      ∃ stackBase entry, site.task = .startUp stackBase entry ∧ s = symbol entry := by
  induction h with
  | nil context => exact fun _ hsite => absurd hsite List.not_mem_nil
  | @file context context' source rest sites h ih =>
    have hfile := hall source List.mem_cons_self
    refine ih ⟨hfile.user, hfile.returnTo, hfile.static⟩ fun source hsource => ?_
    exact hall source (List.mem_cons_of_mem _ hsource)
  | @task context between context' e task block rest sites hasks hlowers h ih =>
    have hbetween : between.standing.Builds P :=
      hlowers.standing_eq ▸ hs.behind_task hP hasks.named
    have hrest := ih hbetween fun source hsource => hall source (List.mem_cons_of_mem _ hsource)
    intro site hsite annotate s hmem
    rcases List.mem_cons.mp hsite with rfl | hsite
    · rcases List.mem_append.mp hmem with hmem | hmem
      · cases annotate with
        | false => exact absurd hmem List.not_mem_nil
        | true => exact Or.inl (List.mem_singleton.mp hmem ▸ hasks.named.plain_note)
      · exact hlowers.writtenWith hP hs hasks.named s hmem
    · exact hrest site hsite annotate s hmem

/-- **The code of a program is plain**, but for the name of its entry function. -/
theorem Translates.plain {all : List Event} {sites : List Site}
    (h : Translates context all sites context') (hs : context.standing.Named)
    (hall : ∀ source, .file source ∈ all → isSymbol source.space.toList = true) :
    ∀ site ∈ sites, ∀ annotate, ∀ s ∈ site.code annotate,
      s.Plain ∨ ∃ stackBase entry, site.task = .startUp stackBase entry ∧ s = symbol entry := by
  intro site hsite annotate s hmem
  refine (h.writtenWith (fun _ => id) hs.builds (fun source hsource => ?_) site hsite annotate s
    hmem).imp_left writtenWith_isName.mp
  exact (Standing.named_beginFile (hall source hsource)).builds

end

end HackStack
