import HackStack.Proofs.Block.Exec
import HackStack.Proofs.Rom.Program
import HackStack.Proofs.Rom.Statements
import HackStack.Proofs.Session.Scopes

/-!
# Where calls lead

The code of a call ends with a jump to the name of the function, and it is left to the assembler to
find the function by its name. The assembler looks for a predefined symbol first, and for a label
only then. So a call reaches the function that it names (`HackStack.translate_calls`), wherever the
function is declared, unless the function is called like a predefined symbol
(`HackStack.exists_lost_call`).

Namespaces need not be symbols for that, and then the text may hold other instructions than those
that were written. So the address at which the code of a call stands is that behind the text before
it, `HackStack.addressBehind`.
-/

namespace HackStack

open Assembly Statement

/-- **The call at site `k` leads to an address**: where the machine has come to the last two
instructions of its code, the first of them loads the address into A, and the second goes there. -/
def Rom.CallLeadsTo (rom : Rom) (annotate : Bool) (sites : List Site) (k address : Nat) : Prop :=
  ∃ site front name back, sites[k]? = some site ∧
    site.code annotate = front ++ [symbol name, branch .zero .always, label back] ∧
    ∀ m : Machine, m.pc = addressBehind (codeOf annotate (sites.take k) ++ front) →
      ∃ m₁ m₂, m.RunsFor rom 1 m₁ ∧ m₁.a = Word.ofNat address ∧ m₁.RunsFor rom 1 m₂ ∧
        m₂.pc = address

/-! ### Sites in the code -/

/-- The code of a program around one of its sites. -/
theorem codeOf_eq_around {sites : List Site} {k : Nat} {site : Site} (h : sites[k]? = some site)
    (annotate : Bool) :
    codeOf annotate sites = codeOf annotate (sites.take k) ++
      (site.code annotate ++ codeOf annotate (sites.drop (k + 1))) := by
  obtain ⟨hk, rfl⟩ := List.getElem?_eq_some_iff.mp h
  have hsites : sites = sites.take k ++ sites[k] :: sites.drop (k + 1) := by
    rw [← List.drop_eq_getElem_cons hk, List.take_append_drop]
  conv_lhs => rw [hsites]
  rw [codeOf, List.flatMap_append, List.flatMap_cons]
  rfl

/-- The comment ahead of the code of a task takes no address. -/
theorem addressBehind_note (annotate : Bool) {task : Task} (h : task.Named) :
    addressBehind (if annotate then [.comment task.note] else []) = 0 := by
  cases annotate with
  | false => rfl
  | true => exact addressBehind_eq_size fun s hs => List.mem_singleton.mp hs ▸ h.plain_note

/-- **The block of a site stands in the text**, behind the code of the sites before it. -/
theorem Site.standsAt {sites : List Site} {k : Nat} {site : Site} (h : sites[k]? = some site)
    (annotate : Bool) (hnamed : site.task.Named) :
    site.block.StandsAt (listing (codeOf annotate sites))
      (addressBehind (codeOf annotate (sites.take k))) := by
  have haddress : addressBehind (codeOf annotate (sites.take k)) =
      addressBehind (codeOf annotate (sites.take k) ++
        if annotate then [.comment site.task.note] else []) := by
    rw [addressBehind_append, addressBehind_note annotate hnamed, Nat.add_zero]
  rw [haddress, codeOf_eq_around h annotate, Site.code, List.append_assoc, ← List.append_assoc]
  exact site.block.standsAt_listing _ _

/-- **A call ends with a jump** to the name of the function, whether it starts the program or is
written in it. -/
theorem Task.Lowers.block_call {context context' : Context} {task : Task} {block : Block}
    {name : String} {arguments : Nat} (h : task.Lowers context block context')
    (hcall : task.command = .call name arguments) :
    ∃ front back, block = front ++ [symbol name, branch .zero .always, label back] := by
  cases h with
  | startUp hbase h =>
    obtain ⟨rfl, -⟩ := Command.call.inj hcall
    cases h with
    | call hreach h =>
      rw [Block.callReturningTo, ← List.append_assoc]
      exact ⟨_, _, rfl⟩
  | written h =>
    obtain rfl : _ = Command.call name arguments := hcall
    cases h with
    | call hreach h => exact ⟨_, _, rfl⟩

/-- A function begins with its label. -/
theorem Task.Lowers.block_function {context context' : Context} {block : Block} {name : String}
    {locals : Nat} (h : Task.Lowers context (.written (.function name locals)) block context') :
    block = label name :: Block.zeros locals := by
  cases h with
  | written h =>
    cases h with
    | function h => rfl

/-- **A function that a program declares** is one of its sites. -/
theorem Translates.exists_function {sources : List Source} {options : Options} {sites : List Site}
    {context : Context} (h : Translates {} (events sources options) sites context) {name : String}
    (hname : name ∈ functionsOf sources) :
    ∃ (j : Nat) (declaration : Site) (locals : Nat), sites[j]? = some declaration ∧
      declaration.task = .written (.function name locals) ∧
      Command.Written (.function name locals) := by
  obtain ⟨c, hc, hfunction⟩ := List.mem_filterMap.mp hname
  obtain ⟨locals, rfl⟩ := Command.declaredFunction?_eq_some.mp hfunction
  obtain ⟨number, text, he, hread⟩ := (mem_commandsOf options).mp hc
  have htask : (Event.line number text).task? = some (.written (.function name locals)) := by
    rw [Event.task?, hread]
  obtain ⟨s, hs⟩ := Standing.mem_tasks.mpr ⟨_, he, htask⟩
  have htasks : _ = Standing.tasks {} (events sources options) := h.tasks_eq
  rw [← htasks] at hs
  obtain ⟨declaration, hmem, hentry⟩ := List.mem_map.mp hs
  obtain ⟨j, hj⟩ := List.mem_iff_getElem?.mp hmem
  exact ⟨j, declaration, locals, hj, (Prod.mk.inj hentry).2, written_of_mem_commandsOf hc⟩

/-! ### Calls and labels in the program -/

section

variable {sites : List Site} {annotate : Bool} {rom : Rom}

/-- **A call leads to the number that its function's name stands for.** -/
theorem Rom.callLeadsTo_of_value? (hrom : assemble (listing (codeOf annotate sites)) = .ok rom)
    {k : Nat} {site : Site} {front : List Statement} {name back : String}
    (hsite : sites[k]? = some site)
    (hcode : site.code annotate = front ++ [symbol name, branch .zero .always, label back])
    (hname : IsName name) {value : Nat} (hvalue : rom.value? name = some value)
    (hword : value < 65536) : rom.CallLeadsTo annotate sites k value := by
  have hholds := Rom.holds_of_assemble hrom
  have hload : (symbol name).Plain := hname
  have hbranch : (branch .zero .always).Plain := trivial
  -- Whatever the text before the jump is read as, the two lines of the jump are plain.
  rw [codeOf_eq_around hsite, hcode, List.append_assoc, ← List.append_assoc, statementsOf_append,
    List.cons_append, List.cons_append, statementsOf_cons hload.legible,
    statementsOf_cons hbranch.legible] at hholds
  have hjump := hholds.right
  rw [Nat.zero_add] at hjump
  refine ⟨site, front, name, back, hsite, hcode, fun m hpc => ?_⟩
  change m.pc = size _ at hpc
  rw [← hpc] at hjump
  -- Loading the name is one cycle, and going there another.
  have hloads := @Machine.runsFor_of_exec rom m.core _ m.pc m.steps [symbol name] hjump.left
    (Core.exec_symbol hvalue)
  have hgoes := @Machine.runsFor_branch rom { m.core with a := Word.ofNat value } (m.pc + 1)
    (m.steps + 1) _ .zero .always hjump.tail rfl
  exact ⟨_, _, hloads, rfl, hgoes, Word.toNat_ofNat hword⟩

/-- **The label of a function stands where the code of the function begins.** -/
theorem Rom.label_of_function (hrom : assemble (listing (codeOf annotate sites)) = .ok rom)
    {j : Nat} {declaration : Site} {name : String} {locals : Nat} {context : Context}
    (hdeclaration : sites[j]? = some declaration)
    (htask : declaration.task = .written (.function name locals))
    (hlowers : declaration.task.Lowers declaration.context declaration.block context)
    (hwritten : Command.Written (.function name locals)) :
    rom.labels[name]? = some (addressBehind (codeOf annotate (sites.take j))) := by
  obtain ⟨note, hcode, hnote⟩ : ∃ note,
      declaration.code annotate = note ++ label name :: Block.zeros locals ∧
        addressBehind note = 0 := by
    rw [htask] at hlowers
    rw [Site.code, hlowers.block_function, htask]
    exact ⟨_, rfl, addressBehind_note annotate hwritten⟩
  have hlabel : (label name).Plain := hwritten.1
  have hholds := Rom.holds_of_assemble hrom
  rw [codeOf_eq_around hdeclaration, hcode, List.append_assoc, ← List.append_assoc,
    statementsOf_append, List.cons_append, statementsOf_cons hlabel.legible] at hholds
  have haddress := hholds.right.head_label
  change _ = some (0 + addressBehind (_ ++ note)) at haddress
  rw [haddress, addressBehind_append, hnote, Nat.zero_add, Nat.add_zero]

end

/-- **Calls reach the function they name.** In a program that is translated and assembled, let a
call name a function that the program declares, and that is not called like a predefined symbol.
Then the jump of the call leads to the address of the function's label, where the code of the
function begins. -/
theorem translate_calls {sources : List Source} {options : Options} {t : Translation} {rom : Rom}
    (ht : translate sources options = .ok t) (hrom : assemble t.text = .ok rom)
    {k : Nat} {site : Site} {name : String} {arguments : Nat}
    (hsite : (sitesOf {} (events sources options))[k]? = some site)
    (hcall : site.task.command = .call name arguments) (hfunction : name ∈ functionsOf sources)
    (hsymbol : MemoryMap.predefined? name = none) :
    t.code.toList = codeOf options.annotate (sitesOf {} (events sources options)) ∧
    ∃ address, rom.labels[name]? = some address ∧
      rom.CallLeadsTo options.annotate (sitesOf {} (events sources options)) k address ∧
      ∃ (j : Nat) (declaration : Site) (locals : Nat),
        (sitesOf {} (events sources options))[j]? = some declaration ∧
        declaration.task = .written (.function name locals) ∧
        address = addressBehind
          (codeOf options.annotate ((sitesOf {} (events sources options)).take j)) := by
  obtain ⟨sites, context, -, htranslates, -⟩ := translates_of_translate ht
  have hcodes := htranslates.code_eq ht
  rw [Translation.text, hcodes] at hrom
  rw [htranslates.sitesOf_eq] at hsite ⊢
  obtain ⟨j, declaration, locals, hdeclaration, htask, hwritten⟩ :=
    htranslates.exists_function hfunction
  obtain ⟨_, hdeclares⟩ := htranslates.lowers declaration (List.mem_of_getElem? hdeclaration)
  have hlabel := Rom.label_of_function hrom hdeclaration htask hdeclares hwritten
  have haddress := Rom.label_le_of_assemble hrom hlabel
  have hsize : rom.code.size ≤ 32768 := Rom.size_le_of_assemble hrom
  obtain ⟨_, hcalls⟩ := htranslates.lowers site (List.mem_of_getElem? hsite)
  obtain ⟨front, back, hblock⟩ := hcalls.block_call hcall
  have hcode : site.code options.annotate =
      ((if options.annotate then [.comment site.task.note] else []) ++ front) ++
        [symbol name, branch .zero .always, label back] := by
    rw [Site.code, hblock, List.append_assoc]
  refine ⟨hcodes, _, hlabel, ?_, j, declaration, locals, hdeclaration, htask, rfl⟩
  exact Rom.callLeadsTo_of_value? hrom hsite hcode hwritten.1 (Rom.value?_label hlabel hsymbol)
    (by omega)

/-! ### Two programs -/

/-- A program that starts with a function that calls itself. -/
def starting : List Source := [⟨"Sys.vm", "Sys", "function Sys.init 0\ncall Sys.init 0"⟩]

/-- The call before the first file reaches the function, which is declared behind it. -/
theorem translate_calls_starting :
    ∃ t rom address, translate starting { startUp := true } = .ok t ∧
      assemble t.text = .ok rom ∧ rom.labels["Sys.init"]? = some address ∧
      rom.CallLeadsTo false (sitesOf {} (events starting { startUp := true })) 0 address := by
  have hnone : ∀ label : Label, ¬Context.Taken {} label := fun _ => Std.HashSet.not_mem_empty
  obtain ⟨sites, context, htranslates, hsites, hfits⟩ : ∃ sites context,
      Translates {} (events starting { startUp := true }) sites context ∧
        sites.map Site.task = [.startUp 256 "Sys.init", .written (.function "Sys.init" 0),
          .written (.call "Sys.init" 0)] ∧
        size (sites.flatMap Site.block) ≤ MemoryMap.size := by
    refine ⟨_, _, .task (.startUp _ _) (.startUp (by decide) (.call (by decide) (hnone _)))
      (.file (.task (.line 1 (c := .function "Sys.init" 0) rfl) (.written (.function ?_))
      (.task (.line 2 (c := .call "Sys.init" 0) rfl) (.written (.call (by decide) ?_))
      (.nil _)))), rfl, by decide +kernel⟩
    · exact Context.not_taken_declaring (by decide) (hnone _)
    · exact Context.not_taken_declaring (by decide)
        (Context.not_taken_declaring (by decide) (hnone _))
  obtain ⟨t, rom, ht, hrom⟩ := htranslates.exists_rom (by decide)
    (fun _ => ⟨by decide, by decide⟩) hfits
  obtain ⟨site, hsite, htask⟩ := exists_site hsites (k := 0) rfl
  rw [← htranslates.sitesOf_eq] at hsite
  obtain ⟨-, address, hlabel, hleads, -⟩ := @translate_calls starting { startUp := true } t rom ht
    hrom 0 site "Sys.init" 0 hsite (by rw [htask]; rfl) (by decide) (by decide)
  exact ⟨t, rom, address, ht, hrom, hlabel, hleads⟩

/-- A program whose function is called like the stack pointer. -/
def losing : List Source :=
  [⟨"Main.vm", "Main",
    "call SP 0\nlabel END\ngoto END\nfunction SP 0\npush constant 7\nreturn"⟩]

/-- **A call may miss the function it names.** The function has a label behind the code of the
caller, and the call leads to the beginning of the program. -/
theorem exists_lost_call :
    ∃ t rom site address, translate losing {} = .ok t ∧ assemble t.text = .ok rom ∧
      (sitesOf {} (events losing {}))[0]? = some site ∧ site.task = .written (.call "SP" 0) ∧
      "SP" ∈ functionsOf losing ∧ rom.labels["SP"]? = some address ∧ 0 < address ∧
      rom.CallLeadsTo false (sitesOf {} (events losing {})) 0 0 := by
  have hnone : ∀ label : Label, ¬Context.Taken {} label := fun _ => Std.HashSet.not_mem_empty
  obtain ⟨sites, context, htranslates, hsites, hfits, hbefore⟩ : ∃ sites context,
      Translates {} (events losing {}) sites context ∧
        sites.map Site.task = [.written (.call "SP" 0), .written (.label "END"),
          .written (.goto "END"), .written (.function "SP" 0), .written (.push .constant 7),
          .written .ret] ∧
        size (sites.flatMap Site.block) ≤ MemoryMap.size ∧
        0 < size ((sites.take 3).flatMap Site.block) := by
    refine ⟨_, _, .file (.task (.line 1 (c := .call "SP" 0) rfl) (.written (.call (by decide)
        (hnone _)))
      (.task (.line 2 (c := .label "END") rfl) (.written (.label ?_))
      (.task (.line 3 (c := .goto "END") rfl) (.written (.goto "END"))
      (.task (.line 4 (c := .function "SP" 0) rfl) (.written (.function ?_))
      (.task (.line 5 (c := .push .constant 7) rfl) (.written (.push rfl))
      (.task (.line 6 (c := .ret) rfl) (.written (.ret rfl)) (.nil _))))))), rfl,
      by decide +kernel, by decide +kernel⟩
    · exact Context.not_taken_declaring (by decide) (hnone _)
    · exact Context.not_taken_declaring (by decide)
        (Context.not_taken_declaring (by decide) (hnone _))
  have hspaces : ∀ source ∈ losing, isSymbol source.space.toList = true := by decide
  obtain ⟨t, rom, ht, hrom⟩ := htranslates.exists_rom hspaces (fun hon => Bool.noConfusion hon)
    hfits
  have htext := hrom
  rw [Translation.text, htranslates.code_eq ht] at htext
  -- The label stands behind the three sites before the function.
  obtain ⟨declaration, hdeclaration, hdeclares⟩ := exists_site hsites (k := 3) rfl
  obtain ⟨_, hlowers⟩ := htranslates.lowers declaration (List.mem_of_getElem? hdeclaration)
  have hlabel := Rom.label_of_function htext hdeclaration hdeclares hlowers
    ⟨⟨by decide, by decide⟩, by decide⟩
  have hplain : ∀ s ∈ codeOf false (sites.take 3), s.Plain := by
    intro s hs
    obtain ⟨site, hsite, hs⟩ := List.mem_flatMap.mp hs
    exact htranslates.plain_of_names hspaces (fun hon => Bool.noConfusion hon) s
      (List.mem_flatMap.mpr ⟨site, List.mem_of_mem_take hsite, hs⟩)
  rw [addressBehind_eq_size hplain, size_codeOf] at hlabel
  obtain ⟨site, hsite, htask⟩ := exists_site hsites (k := 0) rfl
  obtain ⟨_, hcalls⟩ := htranslates.lowers site (List.mem_of_getElem? hsite)
  obtain ⟨front, back, hblock⟩ := hcalls.block_call (by rw [htask]; rfl)
  rw [htranslates.sitesOf_eq]
  refine ⟨t, rom, site, _, ht, hrom, hsite, htask, by decide, hlabel, hbefore, ?_⟩
  exact Rom.callLeadsTo_of_value? htext hsite hblock ⟨by decide, by decide⟩
    (Rom.value?_predefined (by decide)) (by decide)

end HackStack
