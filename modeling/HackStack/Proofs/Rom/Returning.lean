import HackStack.Proofs.Rom.Nesting

/-!
# Returning to the caller

In a translated program, a call finds the frame of its caller again (`HackStack.translate_returns`),
however deep the activations are nested between it and its return. The blocks that are gone through
meanwhile must leave alone what the frames below them have saved.

It is not enough for a function to leave alone its own frame. A pointer of the innermost function
may point into a frame further out, whose return then restores what was written there
(`HackStack.exists_overwritten_frame`).
-/

namespace HackStack

open Assembly Statement

/-! ### A function that writes to where THAT points -/

/-- A program of two functions, of which the inner one writes to where THAT points. -/
def striking : List Source :=
  [⟨"Main.vm", "Main", "call Outer.run 0\nlabel END\ngoto END"⟩,
   ⟨"Outer.vm", "Outer", "function Outer.run 0\ncall Inner.run 0\nreturn"⟩,
   ⟨"Inner.vm", "Inner",
    "function Inner.run 0\npush constant 0\npush constant 9\npop that 0\nreturn"⟩]

/-- The tasks of that program. -/
def strikingTasks : List Task :=
  [.written (.call "Outer.run" 0), .written (.label "END"), .written (.goto "END"),
    .written (.function "Outer.run" 0), .written (.call "Inner.run" 0), .written .ret,
    .written (.function "Inner.run" 0), .written (.push .constant 0), .written (.push .constant 9),
    .written (.pop (.based .that) 0), .written .ret]

/-- It can be translated, and fits into the instruction memory. -/
theorem translates_striking : ∃ sites context,
    Translates {} (events striking {}) sites context ∧ sites.map Site.task = strikingTasks ∧
      size (sites.flatMap Site.block) ≤ MemoryMap.size := by
  have hnone : ∀ label : Label, ¬Context.Taken {} label := fun _ => Std.HashSet.not_mem_empty
  refine ⟨_, _, .file (.task (.line 1 (c := .call "Outer.run" 0) rfl) (.written (.call (by decide)
      (hnone _)))
    (.task (.line 2 (c := .label "END") rfl) (.written (.label ?_))
    (.task (.line 3 (c := .goto "END") rfl) (.written (.goto "END"))
    (.file (.task (.line 1 (c := .function "Outer.run" 0) rfl) (.written (.function ?_))
    (.task (.line 2 (c := .call "Inner.run" 0) rfl) (.written (.call (by decide) ?_))
    (.task (.line 3 (c := .ret) rfl) (.written (.ret rfl))
    (.file (.task (.line 1 (c := .function "Inner.run" 0) rfl) (.written (.function ?_))
    (.task (.line 2 (c := .push .constant 0) rfl) (.written (.push rfl))
    (.task (.line 3 (c := .push .constant 9) rfl) (.written (.push rfl))
    (.task (.line 4 (c := .pop (.based .that) 0) rfl) (.written (.pop rfl rfl))
    (.task (.line 5 (c := .ret) rfl) (.written (.ret rfl)) (.nil _)))))))))))))), rfl, ?_⟩
  · exact Context.not_taken_declaring (by decide) (hnone _)
  · exact Context.not_taken_declaring (by decide)
      (Context.not_taken_declaring (by decide) (hnone _))
  · exact Context.not_taken_declaring (by decide) (Context.not_taken_declaring (by decide)
      (Context.not_taken_declaring (by decide) (hnone _)))
  · exact Context.not_taken_declaring (by decide) (Context.not_taken_declaring (by decide)
      (Context.not_taken_declaring (by decide) (Context.not_taken_declaring (by decide)
        (hnone _))))
  · decide +kernel

section

variable {rom : Rom} {sites : List Site} (kept : List Nat → List Nat)
  {that : Nat} {m : Machine}

/-- **The inner function** writes to where THAT points, and nowhere else in the frames. Its own
frame starts at the cell 261, and its two words on the stack lie behind that. -/
theorem body_inner (hsites : sites.map Site.task = strikingTasks)
    (hplaced : rom.InPlace sites) (hkept : ∀ t ∈ kept [256], t = 256 ∧ 261 ≤ that)
    (hthat : 257 ≤ that ∧ that < 261 ∨ 268 ≤ that ∧ that < 32768)
    (hpc : m.pc = rom.address sites 7) (hsp : m.memory.sp = Word.ofNat 266)
    (hcell : m.memory.read (Word.ofNat 4) = Word.ofNat that) :
    ∃ m', rom.Body sites kept 261 [256] m m' ∧ m'.pc = rom.address sites 10 ∧
      m'.memory.sp = Word.ofNat 267 ∧ m.memory.Keeps m'.memory [261] ∧
      m'.memory.read (Word.ofNat that) = Word.ofNat 9 ∧
      m'.memory.read (Word.ofNat 256) = m.memory.read (Word.ofNat 256) := by
  obtain ⟨site₇, hsite₇, htask₇⟩ := exists_site hsites (k := 7) rfl
  obtain ⟨site₈, hsite₈, htask₈⟩ := exists_site hsites (k := 8) rfl
  obtain ⟨site₉, hsite₉, htask₉⟩ := exists_site hsites (k := 9) rfl
  have hframes : ∀ t ∈ 261 :: kept [256], 16 ≤ t ∧ t + 5 ≤ 266 ∧ (that < t ∨ t + 5 ≤ that) := by
    intro t ht
    rcases List.mem_cons.mp ht with rfl | ht
    · omega
    · obtain ⟨rfl, hfar⟩ := hkept t ht
      omega
  -- The result, and the word that is written.
  obtain ⟨m₁, hpc₁, hmemory₁, hbody₁⟩ := Rom.Body.of_push hplaced hsite₇ htask₇ (by decide) hpc
    hsp (by decide) fun t ht => ⟨(hframes t ht).1, (hframes t ht).2.1⟩
  have hsp₁ : m₁.memory.sp = Word.ofNat 267 := by
    rw [hmemory₁]
    exact Memory.sp_pushed hsp (by decide) (by decide)
  obtain ⟨m₂, hpc₂, hmemory₂, hbody₂⟩ := Rom.Body.of_push hplaced hsite₈ htask₈ (by decide) hpc₁
    hsp₁ (by decide) fun t ht => ⟨(hframes t ht).1, by have := (hframes t ht).2.1; omega⟩
  have hsp₂ : m₂.memory.sp = Word.ofNat 268 := by
    rw [hmemory₂]
    exact Memory.sp_pushed hsp₁ (by decide) (by decide)
  have hread₂ : ∀ n, 0 < n → n < 266 →
      m₂.memory.read (Word.ofNat n) = m.memory.read (Word.ofNat n) := by
    intro n h0 hn
    rw [hmemory₂, Memory.read_pushed_of_ne, hmemory₁, Memory.read_pushed_of_ne]
    · exact Word.ofNat_ne (by omega)
    · rw [hsp]
      exact Word.ofNat_ne (by omega)
    · exact Word.ofNat_ne (by omega)
    · rw [hsp₁]
      exact Word.ofNat_ne (by omega)
  have hcell₂ : m₂.memory.read (Word.ofNat Pointer.that.cell) = Word.ofNat that :=
    (hread₂ 4 (by decide) (by decide)).trans hcell
  have habove : 261 + 5 ≤ 267 ∧ 267 < 32767 := by decide
  obtain ⟨m₃, hpc₃, hmemory₃, hbody₃⟩ := Rom.Body.of_pop hplaced hsite₉ htask₉ hpc₂ hsp₂
    habove hcell₂ (by omega) fun t ht => by have := hframes t ht; omega
  obtain ⟨hsp₃, hstruck⟩ := Memory.sp_poppedTo hcell₂ (by omega) hsp₂ (by decide)
  have hread₃ : ∀ n, 0 < n → n ≠ 13 → n < 266 → n ≠ that →
      m₃.memory.read (Word.ofNat n) = m.memory.read (Word.ofNat n) := by
    intro n h0 h13 hn hne
    rw [hmemory₃, Memory.read_poppedTo_of_ne hcell₂, hread₂ n h0 hn]
    · exact Word.ofNat_ne (by omega)
    · exact Word.ofNat_ne (by omega)
    · exact Word.ofNat_ne (by omega)
  refine ⟨m₃, hbody₁ _ (hbody₂ _ (hbody₃ _ (.done _))), hpc₃, hmemory₃ ▸ hsp₃,
    ⟨hread₃ 1 (by decide) (by decide) (by decide) (by omega),
      hread₃ 2 (by decide) (by decide) (by decide) (by omega), fun t ht i hi => ?_⟩,
    ?_, hread₃ 256 (by decide) (by decide) (by decide) (by omega)⟩
  · obtain rfl := List.mem_singleton.mp ht
    change i < 5 at hi
    exact hread₃ _ (by omega) (by omega) (by omega) (by omega)
  · rw [hmemory₃, hstruck, hmemory₂]
    exact Memory.read_pushed hsp₁ (by decide) (by decide)

/-- **A run of the two functions**, from the call of the outer one up to its return. THAT may point
at a pointer that the frame of the outer function has saved, if it need not be kept. -/
theorem body_outer (hsites : sites.map Site.task = strikingTasks)
    (hplaced : rom.InPlace sites) (hkept : ∀ t ∈ kept [256], t = 256 ∧ 261 ≤ that)
    (hthat : 257 ≤ that ∧ that < 261 ∨ 268 ≤ that ∧ that < 32768)
    (hpc : m.pc = rom.address sites 0) (hsp : m.memory.sp = Word.ofNat 256)
    (hcell : m.memory.read (Word.ofNat 4) = Word.ofNat that) :
    ∃ site site' m₁ m₂, rom.BeforeCall sites "Outer.run" 256 0 site m ∧
      m.RunsFor rom (size site.block) m₁ ∧ rom.Enters "Outer.run" site 256 0 m m₁ ∧
      rom.Body sites kept 256 [] m₁ m₂ ∧ rom.BeforeReturn sites 256 site' m₂ ∧
      m₁.memory.read (Word.ofNat 1) = m₂.memory.read (Word.ofNat 1) ∧
      m₁.memory.read (Word.ofNat 2) = m₂.memory.read (Word.ofNat 2) ∧
      m₁.memory.read (Word.ofNat 256) = m₂.memory.read (Word.ofNat 256) ∧
      m₂.memory.read (Word.ofNat that) = Word.ofNat 9 := by
  obtain ⟨site₀, hsite₀, htask₀⟩ := exists_site hsites (k := 0) rfl
  obtain ⟨site₄, hsite₄, htask₄⟩ := exists_site hsites (k := 4) rfl
  obtain ⟨site₅, hsite₅, htask₅⟩ := exists_site hsites (k := 5) rfl
  obtain ⟨site₁₀, hsite₁₀, htask₁₀⟩ := exists_site hsites (k := 10) rfl
  have houter := hplaced.entry (exists_site hsites (k := 3) rfl)
  have hinner := hplaced.entry (exists_site hsites (k := 6) rfl)
  have hlabel : ∀ {name : String} {address : Nat}, rom.labels[name]? = some address →
      name ∈ rom.labels := fun h => Std.HashMap.isSome_getElem?_iff_mem.mp (by rw [h]; rfl)
  have hcall : rom.BeforeCall sites "Outer.run" 256 0 site₀ m :=
    ⟨⟨0, hsite₀, hpc⟩, htask₀, predefined?_of_dot (by decide), hlabel houter, hsp, by decide,
      by decide⟩
  obtain ⟨m₁, hcalls, henters⟩ := hplaced.call hcall
  have hpc₁ : m₁.pc = rom.address sites 4 := Option.some.inj (henters.pc.symm.trans houter)
  have hcall₁ : rom.BeforeCall sites "Inner.run" 261 0 site₄ m₁ :=
    ⟨⟨4, hsite₄, hpc₁⟩, htask₄, predefined?_of_dot (by decide), hlabel hinner, henters.sp,
      by decide, by decide⟩
  have hcell₁ : m₁.memory.read (Word.ofNat 4) = Word.ofNat that := by
    rw [henters.others _ (by decide) (by decide) (by decide) (by decide), hcell]
  obtain ⟨m₂, hcalls₁, henters₁⟩ := hplaced.call hcall₁
  have hpc₂ : m₂.pc = rom.address sites 7 := Option.some.inj (henters₁.pc.symm.trans hinner)
  have hcell₂ : m₂.memory.read (Word.ofNat 4) = Word.ofNat that := by
    rw [henters₁.others _ (by decide) (by decide) (by decide) (by decide), hcell₁]
  -- The inner function does what it does, and returns.
  obtain ⟨m₃, hbody, hpc₃, hsp₃, hkeeps, hstruck, hword⟩ :=
    body_inner kept hsites hplaced hkept hthat hpc₂ henters₁.sp hcell₂
  have hret₁ : rom.BeforeReturn sites 261 site₁₀ m₃ := by
    refine ⟨⟨10, hsite₁₀, hpc₃⟩, htask₁₀, ?_, ?_⟩ <;> rw [hsp₃] <;> decide
  obtain ⟨m₄, hreturns₁, hreturned₁⟩ := hplaced.activation hcall₁ henters₁ hkeeps hret₁
  have hpc₄ : m₄.pc = rom.address sites 5 := by
    rw [(hplaced.places 4 _ _ hsite₄ htask₄).next, ← hpc₁]
    exact Option.some.inj (hreturned₁.pc.symm.trans henters₁.back)
  have hret : rom.BeforeReturn sites 256 site₅ m₄ := by
    refine ⟨⟨5, hsite₅, hpc₄⟩, htask₅, ?_, ?_⟩ <;> rw [hreturned₁.sp] <;> decide
  refine ⟨site₀, site₅, m₁, m₄, hcall, hcalls, henters,
    .activation hcall₁ (by decide) hcalls₁ hbody hret₁ hreturns₁ (.done m₄), hret,
    (hreturned₁.pointers .locals).symm, (hreturned₁.pointers .arguments).symm, ?_, ?_⟩
  · rw [hreturned₁.others _ (by decide) (by decide) (by decide) (by decide), hword,
      henters₁.others _ (by decide) (by decide) (by decide) (by decide)]
  · have hnat : (Word.ofNat that).toNat = that := Word.toNat_ofNat (by omega)
    rw [hreturned₁.others _ (by omega) (Word.ofNat_ne (by omega))
      (Word.ofNat_ne (by omega))
      (Word.ofNat_ne (by omega)), hstruck]

end

/-- It can be translated and assembled, and starts with its first call. -/
theorem exists_striking : ∃ t rom, translate striking {} = .ok t ∧ assemble t.text = .ok rom ∧
    (∀ source ∈ striking, isSymbol source.space.toList = true) ∧
    (sitesOf {} (events striking {})).map Site.task = strikingTasks ∧
    rom.address (sitesOf {} (events striking {})) 0 = 0 := by
  obtain ⟨sites, context, h, hsites, hfits⟩ := translates_striking
  have hspaces : ∀ source ∈ striking, isSymbol source.space.toList = true := by decide
  obtain ⟨t, rom, ht, hrom⟩ := h.exists_rom hspaces (fun hon => Bool.noConfusion hon) hfits
  obtain ⟨sites', context', h', hassembled⟩ :=
    assembled_of_translate ht hrom hspaces fun hon => Bool.noConfusion hon
  obtain rfl : sites' = sites := h'.sitesOf_eq.symm.trans h.sitesOf_eq
  refine ⟨t, rom, ht, hrom, hspaces, by rw [h.sitesOf_eq, hsites], ?_⟩
  rw [h.sitesOf_eq, Rom.address, List.drop_zero, hassembled.size_eq, size_codeOf, Nat.sub_self]

/-- A machine that has THAT point at a cell. -/
def pointingAt (that : Nat) : Machine := Machine.withPointers 300 400 500 (Word.ofNat that)

/-! ### Returns -/

/-- **A call finds the frame of its caller again.** In a program that has been translated and
assembled, a call enters a function. If the function goes through blocks and nested activations that
keep what the frames have saved, and comes to a return, then it returns from the call: to the return
address of the call, with the pointers of the caller, and with the result where argument 0 was. -/
theorem translate_returns {sources : List Source} {options : Options} {t : Translation} {rom : Rom}
    (ht : translate sources options = .ok t) (hrom : assemble t.text = .ok rom)
    (hspaces : ∀ source ∈ sources, isSymbol source.space.toList = true)
    {name : String} {s arguments : Nat} {site : Site} {m : Machine}
    (hcall : rom.BeforeCall (sitesOf {} (events sources options)) name s arguments site m) :
    ∃ m₁, m.RunsFor rom (size site.block) m₁ ∧ rom.Enters name site s arguments m m₁ ∧
      ∀ m₂ site', rom.Body (sitesOf {} (events sources options)) id s [] m₁ m₂ →
        rom.BeforeReturn (sitesOf {} (events sources options)) s site' m₂ →
        ∃ m₃, m₂.RunsFor rom (size site'.block) m₃ ∧ rom.Returns site s arguments m m₂ m₃ := by
  have h := inPlace_of_translate ht hrom hspaces
  obtain ⟨m₁, hcalls, henters⟩ := h.call hcall
  refine ⟨m₁, hcalls, henters, fun m₂ site' hbody => ?_⟩
  refine h.activation hcall henters (hbody.keeps h ?_ fun t ht => absurd ht List.not_mem_nil)
  intro t ht
  obtain rfl := List.mem_singleton.mp ht
  have habove := hcall.above
  omega

/-- A call whose function keeps what the frames have saved, while it calls another function that
writes outside of them. -/
theorem translate_returns_striking :
    ∃ t rom site site' m₁ m₂ m₃, translate striking {} = .ok t ∧ assemble t.text = .ok rom ∧
      rom.BeforeCall (sitesOf {} (events striking {})) "Outer.run" 256 0 site
        (pointingAt 3000) ∧
      rom.Body (sitesOf {} (events striking {})) id 256 [] m₁ m₂ ∧
      rom.BeforeReturn (sitesOf {} (events striking {})) 256 site' m₂ ∧
      rom.Returns site 256 0 (pointingAt 3000) m₂ m₃ ∧
      m₂.memory.read (Word.ofNat 3000) = Word.ofNat 9 := by
  obtain ⟨t, rom, ht, hrom, hspaces, hsites, hstart⟩ := exists_striking
  have hkept : ∀ t ∈ id [256], t = 256 ∧ 261 ≤ 3000 :=
    fun t ht => ⟨List.mem_singleton.mp ht, by decide⟩
  obtain ⟨site, site', m₁, m₂, hcall, hcalls, -, hbody, hret, -, -, -, hstruck⟩ :=
    body_outer id (m := pointingAt 3000) hsites (inPlace_of_translate ht hrom hspaces) hkept
      (Or.inr (by decide)) hstart.symm (Memory.read_ofNat (by decide))
      (Memory.read_ofNat (show 4 < 32768 by decide))
  obtain ⟨m₁', hcalls', -, hreturns⟩ := translate_returns ht hrom hspaces hcall
  obtain rfl := hcalls.unique hcalls'
  obtain ⟨m₃, -, hreturned⟩ := hreturns m₂ site' hbody hret
  exact ⟨t, rom, site, site', m₁, m₂, m₃, ht, hrom, hcall, hbody, hret, hreturned, hstruck⟩

/-- **It is not enough that a function keeps what its own frame has saved.** Here each of two
functions does, in the blocks between its call and its return. The inner one writes over a pointer
in the frame of the outer one, and the outer one restores what was written. -/
theorem exists_overwritten_frame :
    ∃ t rom site site' m₁ m₂ m₃, translate striking {} = .ok t ∧ assemble t.text = .ok rom ∧
      (∀ source ∈ striking, isSymbol source.space.toList = true) ∧
      rom.BeforeCall (sitesOf {} (events striking {})) "Outer.run" 256 0 site
        (pointingAt 257) ∧
      (pointingAt 257).RunsFor rom (size site.block) m₁ ∧
      rom.Body (sitesOf {} (events striking {})) (fun _ => []) 256 [] m₁ m₂ ∧
      rom.BeforeReturn (sitesOf {} (events striking {})) 256 site' m₂ ∧
      m₂.RunsFor rom (size site'.block) m₃ ∧
      (pointingAt 257).memory.read (Word.ofNat 1) = Word.ofNat 300 ∧
      m₃.memory.read (Word.ofNat 1) = Word.ofNat 9 := by
  obtain ⟨t, rom, ht, hrom, hspaces, hsites, hstart⟩ := exists_striking
  have hplaced := inPlace_of_translate ht hrom hspaces
  obtain ⟨site, site', m₁, m₂, hcall, hcalls, henters, hbody, hret, hlocals, harguments, hback,
    hstruck⟩ := body_outer (fun _ => []) (m := pointingAt 257) hsites hplaced
      (fun t ht => absurd ht List.not_mem_nil) (Or.inl (by decide)) hstart.symm
      (Memory.read_ofNat (by decide)) (Memory.read_ofNat (show 4 < 32768 by decide))
  -- The frame still leads back, but to pointers of which one has been written over.
  have hframe : m₂.memory.Frame 256 0 (Word.ofNat (0 + size site.block)) fun p =>
      m₂.memory.read (Word.ofNat (256 + 5 - p.frameOffset)) :=
    ⟨hlocals ▸ henters.frame.locals, harguments ▸ henters.frame.arguments,
      hback ▸ henters.frame.back, fun _ => rfl⟩
  obtain ⟨m₃, hreturns, -, hpointers, -⟩ :=
    hplaced.ret hret hframe (by decide) (hplaced.label _ _ henters.back)
  exact ⟨t, rom, site, site', m₁, m₂, m₃, ht, hrom, hspaces, hcall, hcalls, hbody, hret, hreturns,
    Memory.read_ofNat (show 1 < 32768 by decide), (hpointers .locals).trans hstruck⟩

end HackStack
