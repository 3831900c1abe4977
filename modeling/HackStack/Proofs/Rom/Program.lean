import HackStack.Proofs.Block.Plain
import HackStack.Proofs.Rom.Linking
import HackStack.Proofs.Session.Run

/-!
# Translated programs and the assembler

The assembler accepts what a translation writes, reads back the statements that were written, and
agrees with the translation on the number of instructions and on the labels and where they stand
(`HackStack.translate_assembles`). It refuses a program only for its size. All this takes is that
namespaces, and the name of the entry function if it is called, are names.

A namespace may also be empty. Then what is known of a program that has been translated and
assembled is `HackStack.assembled_of_translate`.
-/

namespace HackStack

open Assembly Statement

variable {sources : List Source} {options : Options}

/-- The standing before a program. -/
theorem named_empty : (Context.standing {}).Named := ⟨by decide, fun _ h => nomatch h⟩

/-- Files ask for written commands only. -/
theorem Translates.written_of_files {context context' : Context} {sites : List Site}
    {all : List Event} (h : Translates context all sites context')
    (hall : ∀ stackBase entry, .startUp stackBase entry ∉ all) :
    ∀ site ∈ sites, ∃ c, site.task = .written c := by
  induction h with
  | nil context => exact fun _ hsite => absurd hsite List.not_mem_nil
  | file h ih => exact ih fun base entry hmem => hall base entry (List.mem_cons_of_mem _ hmem)
  | task hasks hlowers h ih =>
    have hrest := ih fun base entry hmem => hall base entry (List.mem_cons_of_mem _ hmem)
    intro site hsite
    rcases List.mem_cons.mp hsite with rfl | hsite
    · cases hasks with
      | startUp base entry => exact absurd List.mem_cons_self (hall base entry)
      | line _ _ => exact ⟨_, rfl⟩
    · exact hrest site hsite

variable {sites : List Site} {context : Context}

/-- **The sites of a program**: first its start, if it has one, and then written commands. -/
theorem Translates.start_or_written (h : Translates {} (events sources options) sites context) :
    ∃ first rest, sites = first ++ rest ∧ (∀ site ∈ rest, ∃ c, site.task = .written c) ∧
      ∀ site ∈ first, options.startUp = true ∧
        site.task = .startUp options.stackBase options.entry := by
  obtain ⟨first, rest, between, rfl, hfirst, hrest⟩ := h.split
  refine ⟨first, rest, rfl, hrest.written_of_files fun _ _ => startUp_not_mem_flatMap_events,
    fun site hsite => ?_⟩
  rw [Options.events] at hfirst
  split at hfirst
  next hstart =>
    cases hfirst with
    | task hasks _ hnil =>
      cases hnil
      obtain rfl := List.mem_singleton.mp hsite
      cases hasks
      exact ⟨hstart, rfl⟩
  next =>
    cases hfirst
    exact absurd hsite List.not_mem_nil

/-- A program starts as its options say. -/
theorem Translates.startUp_eq (h : Translates {} (events sources options) sites context)
    {site : Site} (hsite : site ∈ sites) {stackBase : Nat} {entry : String}
    (htask : site.task = .startUp stackBase entry) :
    options.startUp = true ∧ stackBase = options.stackBase ∧ entry = options.entry := by
  obtain ⟨first, rest, rfl, hrest, hfirst⟩ := h.start_or_written
  rcases List.mem_append.mp hsite with hsite | hsite
  · obtain ⟨hon, hstart⟩ := hfirst site hsite
    exact ⟨hon, Task.startUp.inj (htask.symm.trans hstart)⟩
  · obtain ⟨c, hwritten⟩ := hrest site hsite
    exact absurd (htask.symm.trans hwritten) (by simp)

/-- **The names in the code of a program** have a property that all names have and that is kept
where names are built, but for the name of the entry function. -/
theorem Translates.writtenWith_codeOf {P : String → Prop}
    (h : Translates {} (events sources options) sites context) (hP : ∀ name, IsName name → P name)
    (hspaces : ∀ source ∈ sources, (Standing.beginFile {} source.space).Builds P) :
    ∀ s ∈ codeOf options.annotate sites,
      s.WrittenWith P ∨ options.startUp = true ∧ s = symbol options.entry := by
  intro s hs
  obtain ⟨site, hsite, hs⟩ := List.mem_flatMap.mp hs
  refine (h.writtenWith hP (named_empty.builds.mono hP) (fun source hsource => ?_) site hsite
    options.annotate s hs).imp_right ?_
  · exact hspaces source (mem_of_file_mem_events hsource)
  · rintro ⟨stackBase, entry, htask, rfl⟩
    obtain ⟨hon, -, rfl⟩ := h.startUp_eq hsite htask
    exact ⟨hon, rfl⟩

/-- The statements of a program are plain, but for the one that loads the entry function. -/
theorem Translates.plain_codeOf (h : Translates {} (events sources options) sites context)
    (hspaces : ∀ source ∈ sources, isSymbol source.space.toList = true) :
    ∀ site ∈ sites, ∀ s ∈ site.code options.annotate,
      s.Plain ∨ site.task = .startUp options.stackBase options.entry ∧
        options.startUp = true ∧ s = symbol options.entry := by
  intro site hsite s hs
  refine (h.plain named_empty (fun source hsource => hspaces source
    (mem_of_file_mem_events hsource)) site hsite options.annotate s hs).imp_right ?_
  rintro ⟨stackBase, entry, htask, rfl⟩
  obtain ⟨hon, rfl, rfl⟩ := h.startUp_eq hsite htask
  exact ⟨htask, hon, rfl⟩

/-- The labels of a program are all different. -/
theorem Translates.nodup_codeOf (h : Translates {} (events sources options) sites context)
    (annotate : Bool) : (labelNames (codeOf annotate sites)).Nodup := by
  rw [labelNames_codeOf]
  exact h.nodup.1

/-- The statements of a program are plain if all its names are. -/
theorem Translates.plain_of_names (h : Translates {} (events sources options) sites context)
    (hspaces : ∀ source ∈ sources, isSymbol source.space.toList = true)
    (hentry : options.startUp = true → IsName options.entry) :
    ∀ s ∈ codeOf options.annotate sites, s.Plain := by
  intro s hs
  obtain ⟨site, hsite, hs⟩ := List.mem_flatMap.mp hs
  rcases h.plain_codeOf hspaces site hsite s hs with hs | ⟨-, hon, rfl⟩
  · exact hs
  · exact hentry hon

/-- **A program whose names are all plain can be assembled**, unless it is too large. -/
theorem Translates.exists_rom (h : Translates {} (events sources options) sites context)
    (hspaces : ∀ source ∈ sources, isSymbol source.space.toList = true)
    (hentry : options.startUp = true → IsName options.entry)
    (hfits : size (sites.flatMap Site.block) ≤ MemoryMap.size) :
    ∃ t rom, translate sources options = .ok t ∧ assemble t.text = .ok rom := by
  obtain ⟨session, -, ht, hdone⟩ := translate_of_translates h
  have hassemble := assemble_listing
    (fun s hs => (h.plain_of_names hspaces hentry s hs).legible) (h.nodup_codeOf options.annotate)
  rw [size_codeOf, if_neg (Nat.not_lt.mpr hfits)] at hassemble
  obtain ⟨rom, hrom, -⟩ := hassemble
  refine ⟨_, rom, ht, ?_⟩
  rw [Translation.text, hdone.code_eq]
  exact hrom

/-- **A program that has been translated and assembled** comes to sites whose code the assembler has
put into the instruction memory. -/
theorem assembled_of_translate {t : Translation} {rom : Rom}
    (ht : translate sources options = .ok t) (hrom : assemble t.text = .ok rom)
    (hspaces : ∀ source ∈ sources, isSymbol source.space.toList = true)
    (hentry : options.startUp = true → isSymbol options.entry.toList = true) :
    ∃ sites context, Translates {} (events sources options) sites context ∧
      Assembled (codeOf options.annotate sites) rom := by
  obtain ⟨sites, context, session, h, -, rfl, hdone⟩ := translates_of_translate ht
  rw [Translation.text, hdone.code_eq] at hrom
  refine ⟨sites, context, h, ?_⟩
  have hplain : ∀ s ∈ codeOf options.annotate sites,
      s.Plain ∨ options.startUp = true ∧ s = symbol options.entry := by
    intro s hs
    obtain ⟨site, hsite, hs⟩ := List.mem_flatMap.mp hs
    exact (h.plain_codeOf hspaces site hsite s hs).imp_right And.right
  by_cases hempty : symbol "" ∈ codeOf options.annotate sites
  · -- An entry without a name is an operand that is missing.
    have hline : ∀ s ∈ codeOf options.annotate sites, '\n' ∉ s.render.toList := by
      intro s hs
      rcases hplain s hs with hs | ⟨hon, rfl⟩
      · exact hs.newline_not_mem
      · rw [symbol, Statement.render, Instruction.render, String.toList_append, List.mem_append]
        rintro (hnewline | hnewline)
        · exact absurd hnewline (by decide)
        · exact absurd (isSymbolChar_of_mem (hentry hon) hnewline) (by decide)
    obtain ⟨s, hs⟩ := Layout.read_of_assemble hline hrom hempty (by decide)
    exact absurd hs (by simp [show Statement.read (String.ofList
      (Text.code (symbol "").render.toList)) = .error .missingOperand from rfl])
  · have hclean : ∀ s ∈ codeOf options.annotate sites, s.Plain := by
      intro s hs
      rcases hplain s hs with hplain | ⟨hon, rfl⟩
      · exact hplain
      · exact ⟨hentry hon, fun he => hempty (he ▸ hs)⟩
    have hassemble := assemble_listing (fun s hs => (hclean s hs).legible)
      (h.nodup_codeOf options.annotate)
    split at hassemble
    · rw [hassemble] at hrom
      exact absurd hrom (by simp)
    · obtain ⟨rom', hok, hassembled⟩ := hassemble
      obtain rfl := Except.ok.inj (hok.symm.trans hrom)
      exact hassembled

/-- **The address at which a program has come to its site `k`.** It is counted from the end of the
program, since the name of the entry function may be read as any number of lines. -/
def Rom.address (rom : Rom) (sites : List Site) (k : Nat) : Nat :=
  rom.code.size - size ((sites.drop k).flatMap Site.block)

/-- **The block of a site stands at the address of the site**, and the next site behind it. -/
structure Rom.Places (rom : Rom) (sites : List Site) (k : Nat) (site : Site) : Prop where
  holds : rom.Holds (rom.address sites k) site.block
  next : rom.address sites (k + 1) = rom.address sites k + size site.block

/-- The code of sites is that of the first of them and that of the others. -/
theorem codeOf_take_drop (annotate : Bool) (sites : List Site) (k : Nat) :
    codeOf annotate sites = codeOf annotate (sites.take k) ++ codeOf annotate (sites.drop k) := by
  rw [codeOf, codeOf, codeOf, ← List.flatMap_append, List.take_append_drop]

/-- Sites that stand at the end of a program are in their places. -/
theorem Rom.places_of_holds {rom : Rom} {annotate : Bool} {k : Nat} {site : Site}
    (hsite : sites[k]? = some site)
    (hsize : size (codeOf annotate (sites.drop k)) ≤ rom.code.size)
    (h : rom.Holds (rom.code.size - size (codeOf annotate (sites.drop k)))
      (codeOf annotate (sites.drop k))) : rom.Places sites k site := by
  have hdrop : sites.drop k = site :: sites.drop (k + 1) := by
    obtain ⟨hk, rfl⟩ := List.getElem?_eq_some_iff.mp hsite
    exact List.drop_eq_getElem_cons hk
  have hblocks : size ((sites.drop k).flatMap Site.block) =
      size site.block + size ((sites.drop (k + 1)).flatMap Site.block) := by
    rw [hdrop, List.flatMap_cons, size_append]
  rw [size_codeOf] at hsize h
  refine ⟨?_, ?_⟩
  · have hcode : codeOf annotate (sites.drop k) =
        (if annotate then [.comment site.task.note] else []) ++
          (site.block ++ codeOf annotate (sites.drop (k + 1))) := by
      rw [hdrop, codeOf, List.flatMap_cons, Site.code, List.append_assoc]
      rfl
    rw [hcode] at h
    have hright := h.right.left
    cases annotate <;> exact hright
  · rw [address, address, hblocks]
    omega

/-- **All sites are in their places** in a program that was assembled from their code. -/
theorem Assembled.places {annotate : Bool} {rom : Rom} (h : Assembled (codeOf annotate sites) rom)
    (hn : (labelNames (codeOf annotate sites)).Nodup) {k : Nat} {site : Site}
    (hsite : sites[k]? = some site) : rom.Places sites k site := by
  have hsplit := codeOf_take_drop annotate sites k
  have hsize := h.size_eq
  have hholds := h.holds hn
  rw [hsplit] at hholds
  rw [hsplit, size_append] at hsize
  have hbase : rom.code.size - size (codeOf annotate (sites.drop k)) =
      0 + size (codeOf annotate (sites.take k)) := by omega
  exact Rom.places_of_holds hsite (by omega) (hbase ▸ hholds.right)

/-- **The written commands of a program that has been translated and assembled are in their
places**, whatever its entry function is called. -/
theorem places_of_translate {t : Translation} {rom : Rom}
    (ht : translate sources options = .ok t) (hrom : assemble t.text = .ok rom)
    (hspaces : ∀ source ∈ sources, isSymbol source.space.toList = true) :
    ∃ sites context, Translates {} (events sources options) sites context ∧
      ∀ k site c, sites[k]? = some site → site.task = .written c → rom.Places sites k site := by
  obtain ⟨sites, context, session, h, -, rfl, hdone⟩ := translates_of_translate ht
  refine ⟨sites, context, h, fun k site c hsite hwritten => ?_⟩
  rw [Translation.text, hdone.code_eq, codeOf_take_drop options.annotate sites k] at hrom
  have hplain : ∀ s ∈ codeOf options.annotate (sites.drop k), s.Plain := by
    intro s hs
    obtain ⟨site', hsite', hs⟩ := List.mem_flatMap.mp hs
    refine (h.plain_codeOf hspaces site' (List.mem_of_mem_drop hsite') s hs).resolve_right ?_
    rintro ⟨hstart, -⟩
    -- Behind a written command there are only written commands.
    obtain ⟨first, rest, rfl, hrest, hfirst⟩ := h.start_or_written
    have hk : first.length ≤ k := by
      refine Nat.le_of_not_lt fun hlt => ?_
      rw [List.getElem?_append_left hlt] at hsite
      exact absurd ((hfirst site (List.mem_of_getElem? hsite)).2.symm.trans hwritten) (by simp)
    rw [List.drop_append, List.drop_eq_nil_of_le hk, List.nil_append] at hsite'
    obtain ⟨c', hwritten'⟩ := hrest site' (List.mem_of_mem_drop hsite')
    exact absurd (hstart.symm.trans hwritten') (by simp)
  obtain ⟨hsize, hholds⟩ := Rom.holds_end hplain hrom
  exact Rom.places_of_holds hsite hsize hholds

/-- Where the labels of an assembled program are. -/
theorem Assembled.label_iff {code : List Statement} {rom : Rom} (h : Assembled code rom)
    (hn : (labelNames code).Nodup) (name : String) (address : Nat) :
    rom.labels[name]? = some address ↔
      ∃ before after, code = before ++ .label name :: after ∧ address = size before := by
  rw [h.label, labelAddress?_eq_some_iff hn]

/-- **The translation and the assembler agree.** Each line of the text is read back to the statement
that was written on it. The assembler refuses the text exactly when the instructions that were
counted do not fit into its memory; otherwise it finds as many instructions as were counted, the
labels that were declared, and each of them behind the instructions that were written before it. -/
theorem translate_assembles {t : Translation} (h : translate sources options = .ok t)
    (hspaces : ∀ source ∈ sources, IsName source.space)
    (hentry : options.startUp = true → IsName options.entry) :
    (∃ written, Text.lines t.text = written ++ [[]] ∧
      List.Forall₂ (fun line s => Statement.read (String.ofList line) = .ok s)
        written t.code.toList) ∧
    ∃ session, Session.ofSources sources options = .ok session ∧
      t = ⟨session.sink, session.statistics⟩ ∧
      if t.statistics.instructions > 32768 then
        assemble t.text = .error (.tooLarge t.statistics.instructions)
      else
        ∃ rom, assemble t.text = .ok rom ∧ rom.code.size = t.statistics.instructions ∧
          (∀ name : String, name ∈ rom.labels ↔ name ∈ session.context.registry.declared) ∧
          ∀ (name : String) (address : Nat), rom.labels[name]? = some address ↔
            ∃ before after, t.code.toList = before ++ .label name :: after ∧
              address = size before := by
  obtain ⟨sites, context, session, htranslates, hof, rfl, hdone⟩ := translates_of_translate h
  have hcode := hdone.code_eq
  have hplain : ∀ s ∈ session.sink.toList, s.Plain := by
    rw [hcode]
    exact htranslates.plain_of_names (fun source hsource => (hspaces source hsource).1) hentry
  have hnodup : (labelNames session.sink.toList).Nodup := by
    rw [hcode]
    exact htranslates.nodup_codeOf options.annotate
  have hsize : session.statistics.instructions = size session.sink.toList := by
    rw [hcode, size_codeOf, hdone.instructions]
    exact Nat.zero_add _
  refine ⟨⟨session.sink.toList.map fun s => s.render.toList, ?_, ?_⟩, session, hof, rfl, ?_⟩
  · exact lines_listing fun s hs => (hplain s hs).newline_not_mem
  · rw [List.forall₂_map_left_iff, List.forall₂_same]
    intro s hs
    rw [String.ofList_toList]
    exact Statement.read_render (hplain s hs)
  · have hassemble := assemble_listing (fun s hs => (hplain s hs).legible) hnodup
    change if session.statistics.instructions > 32768 then _ else _
    have hlimit : MemoryMap.size = 32768 := rfl
    rw [hlimit] at hassemble
    rw [hsize]
    split at hassemble
    next hbig => rw [if_pos hbig]; exact hassemble
    next hsmall =>
      rw [if_neg hsmall]
      obtain ⟨rom, hok, hassembled⟩ := hassemble
      refine ⟨rom, hok, hassembled.size_eq, fun name => ?_, hassembled.label_iff hnodup⟩
      have hdeclared : name ∈ session.context.registry.declared ↔
          name ∈ labelNames session.sink.toList := by
        rw [hdone.context, htranslates.mem_declared, hcode, labelNames_codeOf,
          htranslates.labelNames_eq]
        exact or_iff_right Std.HashSet.not_mem_empty
      rw [hdeclared, ← labelAddress?_isSome, ← hassembled.label,
        Std.HashMap.isSome_getElem?_iff_mem]

/-- A program of one command behind its start, on which the translation and the assembler agree. -/
theorem translate_assembles_started :
    ∃ t rom, translate [⟨"Main.vm", "Main", "push constant 7"⟩] { startUp := true } = .ok t ∧
      assemble t.text = .ok rom ∧ rom.code.size = t.statistics.instructions := by
  have hcall : Block.Lowers {} (.call "Sys.init" 0) _ _ :=
    .call (by decide) Std.HashSet.not_mem_empty
  have hstart : Task.Lowers {} (.startUp 256 "Sys.init") _ _ := .startUp (by decide) hcall
  have h : Translates {} (events [⟨"Main.vm", "Main", "push constant 7"⟩] { startUp := true })
      _ _ :=
    .task (.startUp _ _) hstart
      (.file (.task (.line 1 (c := .push .constant 7) rfl) (.written (.push rfl)) (.nil _)))
  obtain ⟨session, -, ht, hdone⟩ := translate_of_translates h
  obtain ⟨-, session', -, -, hrom⟩ := translate_assembles ht
    (fun source hsource => List.mem_singleton.mp hsource ▸ ⟨by decide, by decide⟩)
    fun _ => ⟨by decide, by decide⟩
  have hsize : session.statistics.instructions = 58 := hdone.instructions.trans (by decide)
  rw [if_neg (by rw [hsize]; decide)] at hrom
  obtain ⟨rom, hok, hcode, -⟩ := hrom
  exact ⟨_, rom, ht, hok, hcode⟩

end HackStack
