import HackStack.Proofs.Block.Comparison
import HackStack.Proofs.Rom.Calling
import HackStack.Proofs.Rom.Legible
import HackStack.Proofs.Session.Annotation

/-!
# Comparisons in a program

A comparison branches inside its code, between two labels that the translation has made up. In a
program that is accepted, these labels stand there and nowhere else, whatever other comparisons
there are. So the code of every comparison does what a comparison does
(`HackStack.translate_compares`): it ends behind its last label, with −1 or 0 in the place of the
two words that were compared. The answer is that for the exact difference if this fits into a word,
and the opposite if it does not, except that `eq` is always right.

The stack may be full: the stack pointer may be the number of cells.
-/

namespace HackStack

open Assembly Statement

namespace Machine

/-- **Two words have been compared**, in a run through a block: the outcome lies in the place of the
first, the stack pointer is behind it, and nothing else has changed. -/
structure Compares (rom : Rom) (block : Block) (op : Comparison) (m : Machine) (s : Nat)
    (m' : Machine) : Prop where
  runs : ∃ cycles ≤ size block, RunsFor rom cycles m m'
  pc : m'.pc = m.pc + size block
  sp : m'.memory.sp = Word.ofNat (s - 1)
  canonical : m'.memory.read (Word.ofNat (s - 2)) = -1 ∨ m'.memory.read (Word.ofNat (s - 2)) = 0
  right : op = .eq ∨
      (m.memory.read (Word.ofNat (s - 2))).DifferenceFits (m.memory.read (Word.ofNat (s - 1))) →
    (m'.memory.read (Word.ofNat (s - 2)) = -1 ↔
      op.Asks (m.memory.read (Word.ofNat (s - 2))) (m.memory.read (Word.ofNat (s - 1))))
  wrong : op ≠ .eq →
      ¬(m.memory.read (Word.ofNat (s - 2))).DifferenceFits (m.memory.read (Word.ofNat (s - 1))) →
    (m'.memory.read (Word.ofNat (s - 2)) = -1 ↔
      ¬op.Asks (m.memory.read (Word.ofNat (s - 2))) (m.memory.read (Word.ofNat (s - 1))))
  others : ∀ w, w ≠ Word.ofNat 0 → w ≠ Word.ofNat (s - 2) → m'.memory.read w = m.memory.read w

/-- **The code of a comparison compares** the two words on top, wherever it stands. -/
theorem exists_compares {rom : Rom} {op : Comparison} {yes done : String} {m : Machine}
    {s : Nat} (hholds : rom.Holds m.pc (Block.branches (Block.condition op) yes done))
    (hyes : MemoryMap.predefined? yes = none) (hdone : MemoryMap.predefined? done = none)
    (hfits : m.pc + size (Block.branches (Block.condition op) yes done) < 65536)
    (hsp : m.memory.sp = Word.ofNat s) (hs : 18 ≤ s) (hs' : s ≤ 32768) :
    ∃ m', Compares rom (Block.branches (Block.condition op) yes done) op m s m' := by
  obtain ⟨n, rfl⟩ : ∃ n, s = n + 2 := ⟨s - 2, by omega⟩
  have habove : m.memory.sp - 1 = Word.ofNat (n + 1) := by rw [hsp, Word.ofNat_succ_sub_one]
  have hbelow : m.memory.sp - 1 - 1 = Word.ofNat n := by rw [habove, Word.ofNat_succ_sub_one]
  obtain ⟨cycles, m', hrun, hcycles, hpc, hmemory⟩ :=
    exists_runsFor_branches hholds hyes hdone hfits (habove ▸ Word.addresses_ofNat (by omega))
      (hbelow ▸ Word.addresses_ofNat (by omega))
  rw [Memory.compared_eq hsp (by omega) (by omega)] at hmemory
  have hne : Word.ofNat n ≠ Word.ofNat 0 := Word.ofNat_ne (by omega)
  have hread : m'.memory.read (Word.ofNat n) = if (Block.condition op).taken
      (m.memory.read (Word.ofNat n) - m.memory.read (Word.ofNat (n + 1))) then -1 else 0 := by
    rw [hmemory, Memory.read_write_self (Word.addresses_ofNat (by omega))]
  -- Minus one is left if the difference of the words takes the jump.
  have hiff : m'.memory.read (Word.ofNat n) = -1 ↔ (Block.condition op).taken
      (m.memory.read (Word.ofNat n) - m.memory.read (Word.ofNat (n + 1))) = true := by
    rw [hread]
    split <;> simp [*]
  refine ⟨m', ⟨cycles, hcycles, hrun⟩, hpc, ?_, ?_, fun h => hiff.trans (Comparison.taken_iff h),
    fun hop h => hiff.trans (Comparison.taken_iff_not hop h), fun w h0 hw => ?_⟩
  · rw [hmemory]
    exact Memory.sp_landed hsp hne
  · change m'.memory.read (Word.ofNat n) = -1 ∨ m'.memory.read (Word.ofNat n) = 0
    rw [hread]
    split
    · exact Or.inl rfl
    · exact Or.inr rfl
  · rw [hmemory]
    exact Memory.read_landed_of_ne h0 hw

end Machine

/-! ### Comparisons in a program -/

/-- No label of a comparison is predefined. -/
theorem predefined?_compareLabel (context : Context) (branch : Branch) :
    MemoryMap.predefined? (context.compareLabel branch).render = none :=
  predefined?_of_dot (by simp [Context.compareLabel, Label.render])

/-- The code of a comparison, between the two labels it has been given. -/
def Context.branches (context : Context) (op : Comparison) : Block :=
  Block.branches (Block.condition op) (context.compareLabel .holds).render
    (context.compareLabel .done).render

/-- **The code of a comparison** is its branches. -/
theorem Task.Lowers.block_comparison {context context' : Context} {op : Comparison} {block : Block}
    (h : Task.Lowers context (.written (.operate (.comparison op))) block context') :
    block = context.branches op := by
  cases h with
  | written h =>
    cases h with
    | comparison op hholds hdone => rfl

/-- All lines of the code of a comparison are legible, and none is a comment. -/
theorem Context.legible_branches (context : Context) (op : Comparison) :
    ∀ s ∈ context.branches op, s.Legible ∧ s.isComment = false := by
  have hlabel : ∀ branch, LegibleName (context.compareLabel branch).render := fun branch =>
    (isName_compare _ branch).legible
  have hwritten : (context.branches op).WrittenWith LegibleName :=
    Block.writtenWith_branches (fun _ hname => IsName.legible hname) (hlabel .holds) (hlabel .done)
  have huncommented : (context.branches op).Uncommented := rfl
  exact fun s hs => ⟨(hwritten s hs).legible, huncommented.isComment_eq_false s hs⟩

/-- **The code of a comparison compares**, where it stands in a text that is assembled, and ends at
its last label. -/
theorem Block.StandsAt.exists_compares {context : Context} {op : Comparison} {text : String}
    {rom : Rom} {m : Machine} {s : Nat} (h : (context.branches op).StandsAt text m.pc)
    (hrom : assemble text = .ok rom) (hsp : m.memory.sp = Word.ofNat s) (hs : 18 ≤ s)
    (hs' : s ≤ 32768) :
    ∃ m', Machine.Compares rom (context.branches op) op m s m' ∧
      rom.labels[(context.compareLabel .done).render]? = some m'.pc := by
  have hlines := context.legible_branches op
  have hholds := h.holds hrom (fun s hs => (hlines s hs).1) fun s hs => (hlines s hs).2
  have hend : rom.labels[(context.compareLabel .done).render]? = some (m.pc + 15) :=
    hholds.right.tail.head_label
  -- The last label is an address, so no jump in the block goes astray.
  have haddress := Rom.label_le_of_assemble hrom hend
  have hsize : rom.code.size ≤ 32768 := Rom.size_le_of_assemble hrom
  have hfits : m.pc + 15 < 65536 := by omega
  obtain ⟨m', hm'⟩ := Machine.exists_compares hholds (predefined?_compareLabel context .holds)
    (predefined?_compareLabel context .done) hfits hsp hs hs'
  exact ⟨m', hm', hend.trans (congrArg some hm'.pc.symm)⟩

/-- **Every comparison compares.** In a program that is translated and assembled, let the machine
stand where the code of a comparison begins, with the stack pointer at a cell from 18 on. Then it
runs to where the last label of that code stands, and compares the two words on top. -/
theorem translate_compares {sources : List Source} {options : Options} {t : Translation} {rom : Rom}
    (ht : translate sources options = .ok t) (hrom : assemble t.text = .ok rom) {i : Nat}
    {op : Comparison} (hcommand : (commandsOf sources)[i]? = some (.operate (.comparison op))) :
    t.code.toList = codeOf options.annotate (sitesOf {} (events sources options)) ∧
    ∃ k site done, k = options.tasks.length + i ∧
      (sitesOf {} (events sources options))[k]? = some site ∧
      site.task = .written (.operate (.comparison op)) ∧
      site.block.getLast? = some (label done) ∧
      ∀ (m : Machine) (s : Nat),
        m.pc = addressBehind
          (codeOf options.annotate ((sitesOf {} (events sources options)).take k)) →
        m.memory.sp = Word.ofNat s → 18 ≤ s → s ≤ 32768 →
        ∃ m', Machine.Compares rom site.block op m s m' ∧ rom.labels[done]? = some m'.pc := by
  obtain ⟨sites, context, -, htranslates, -⟩ := translates_of_translate ht
  have hcodes := htranslates.code_eq ht
  rw [Translation.text, hcodes] at hrom
  rw [htranslates.sitesOf_eq]
  -- The commands are the tasks behind the start of the program.
  have htask : ((events sources options).filterMap Event.task?)[options.tasks.length + i]? =
      some (.written (.operate (.comparison op))) := by
    rw [filterMap_task?_events, List.getElem?_append_right (Nat.le_add_right _ _),
      Nat.add_sub_cancel_left, List.getElem?_map, hcommand]
    rfl
  obtain ⟨⟨here, task, block⟩, hsite, rfl⟩ := exists_site htranslates.map_task htask
  obtain ⟨_, hlowers⟩ := htranslates.lowers _ (List.mem_of_getElem? hsite)
  obtain rfl : block = here.branches op := hlowers.block_comparison
  refine ⟨hcodes, _, _, _, rfl, hsite, rfl, rfl, fun m s hpc hsp hs hs' => ?_⟩
  have hstands := Site.standsAt hsite options.annotate trivial
  rw [← hpc] at hstands
  exact hstands.exists_compares hrom hsp hs hs'

/-- A program that compares twice. -/
def comparingTwice : List Source := [⟨"Main.vm", "Main", "lt\ngt"⟩]

/-- A memory with the largest word and −1 on the stack. -/
def farApart : Memory :=
  ((Machine.reset.memory.write (Word.ofNat 0) (Word.ofNat 18)).write (Word.ofNat 16)
    (Word.ofNat 32767)).write (Word.ofNat 17) (-1)

/-- **A comparison may be wrong**: the largest word is greater than −1, and `gt` says that it is
not. -/
theorem translate_compares_far :
    ∃ t rom site m m', translate comparingTwice {} = .ok t ∧ assemble t.text = .ok rom ∧
      (sitesOf {} (events comparingTwice {}))[1]? = some site ∧
      m.pc = addressBehind (codeOf false ((sitesOf {} (events comparingTwice {})).take 1)) ∧
      m.memory = farApart ∧ Machine.Compares rom site.block .gt m 18 m' ∧
      m'.memory.read (Word.ofNat 16) = 0 := by
  have hnone : ∀ label : Label, ¬Context.Taken {} label := fun _ => Std.HashSet.not_mem_empty
  obtain ⟨sites, context, htranslates, hfits⟩ : ∃ sites context,
      Translates {} (events comparingTwice {}) sites context ∧
        size (sites.flatMap Site.block) ≤ MemoryMap.size := by
    refine ⟨_, _, .file (.task (.line 1 (c := .operate (.comparison .lt)) rfl)
        (.written (.comparison .lt (hnone _) (hnone _)))
      (.task (.line 2 (c := .operate (.comparison .gt)) rfl) (.written (.comparison .gt ?_ ?_))
      (.nil _))), by decide +kernel⟩
    · exact Context.not_taken_declaring (by decide)
        (Context.not_taken_declaring (by decide) (hnone _))
    · exact Context.not_taken_declaring (by decide)
        (Context.not_taken_declaring (by decide) (hnone _))
  obtain ⟨t, rom, ht, hrom⟩ := htranslates.exists_rom (by decide)
    (fun hon => Bool.noConfusion hon) hfits
  obtain ⟨-, k, site, done, rfl, hsite, -, -, hcompares⟩ :=
    @translate_compares comparingTwice {} t rom ht hrom 1 .gt (by decide)
  have hsp : farApart.sp = Word.ofNat 18 := by
    rw [Memory.sp, farApart, Memory.read_write_of_ne (by decide),
      Memory.read_write_of_ne (by decide), Memory.read_write_self (by decide)]
  have hfirst : farApart.read (Word.ofNat 16) = Word.ofNat 32767 := by
    rw [farApart, Memory.read_write_of_ne (by decide), Memory.read_write_self (by decide)]
  have hsecond : farApart.read (Word.ofNat 17) = -1 := by
    rw [farApart, Memory.read_write_self (by decide)]
  obtain ⟨m', hm', -⟩ := hcompares ⟨farApart, 0, 0, _, 0⟩ 18 rfl hsp (by decide) (by decide)
  have hno := hm'.canonical.resolve_left fun hyes => (hm'.wrong (by decide) ?_).mp hyes ?_
  · exact ⟨t, rom, site, _, m', ht, hrom, hsite, rfl, rfl, hm', hno⟩
  · change ¬(farApart.read (Word.ofNat 16)).DifferenceFits (farApart.read (Word.ofNat 17))
    rw [hfirst, hsecond]
    decide
  · change Comparison.Asks .gt (farApart.read (Word.ofNat 16)) (farApart.read (Word.ofNat 17))
    rw [hfirst, hsecond, Comparison.Asks]
    decide

end HackStack
