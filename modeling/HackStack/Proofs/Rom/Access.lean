import HackStack.Proofs.Block.Frame
import HackStack.Proofs.Rom.Statics
import HackStack.Proofs.Session.Annotation
import HackStack.Step

/-!
# What push and pop do

The code of `push` and `pop` may stand anywhere in a program (`HackStack.Block.StandsAt`). Where it
stands, it moves one word between the stack and the cell of the segment
(`HackStack.Rom.segmentCell?`), and changes nothing else but the stack pointer and, for a `pop` that
goes where a pointer points, one scratch cell. That is `HackStack.push_and_pop_move_one_word`.

The cell may be any but two: `pop` cannot write the stack pointer, which it has just moved, nor the
scratch cell that holds the address. Everything else is allowed to coincide. The cell may lie on the
stack, even where the word has been, and it may be the very pointer that led to it, since the
address is computed before anything is written.
-/

namespace HackStack

open Assembly Statement

/-- An operand that stands in a program has a value there. -/
theorem Rom.Holds.exists_value? {rom : Rom} {base : Nat} {code : List Statement}
    {operand : Operand} (h : rom.Holds base code)
    (hmem : .instruction (.address operand) ∈ code) : ∃ n, operand.value? rom = some n := by
  obtain ⟨before, after, rfl⟩ := List.append_of_mem hmem
  obtain ⟨op, -, hlinks⟩ := h.right.head
  cases operand with
  | number n => exact ⟨n, rfl⟩
  | symbol name =>
    obtain ⟨n, hvalue, -⟩ := hlinks
    exact ⟨n, hvalue⟩

/-! ### Cells of segments -/

/-- **The cell of a segment and an index.** The segments behind pointers lie where the pointers
point, with addresses that wrap around; two segments have fixed cells; and the cell of a static
variable is the one that the assembler has given to its name. A constant has no cell. -/
def Rom.segmentCell? (rom : Rom) (memory : Memory) (space : Option String) (index : Nat) :
    Segment → Option Word
  | .constant => none
  | .based p => some (memory.read (Word.ofNat p.cell) + Word.ofNat index)
  | .temp => some (Word.ofNat (5 + index))
  | .pointer => some (Word.ofNat (3 + index))
  | .static => space.bind fun space => rom.cells[staticName space index]?.map Word.ofNat

/-- The cell of a target. -/
def Rom.targetCell? (rom : Rom) (memory : Memory) : Block.Target → Option Word
  | .immediate _ => none
  | .direct operand => (operand.value? rom).map Word.ofNat
  | .indirect p offset => some (memory.read (Word.ofNat p.cell) + Word.ofNat offset)

section

variable {rom : Rom} {memory : Memory} {context : Context} {segment : Segment} {index : Nat}
  {denoted : Block.Target} {block : Block}

/-- A symbol that is neither predefined nor a label stands for the cell of a variable. -/
theorem Rom.value?_staticName {space : String} (hlabel : staticName space index ∉ rom.labels) :
    rom.value? (staticName space index) = rom.cells[staticName space index]? := by
  rw [Rom.value?, predefined?_staticName, Std.HashMap.getElem?_eq_none hlabel]
  rfl

/-- **A segment and an index denote their cell.** -/
theorem Rom.segmentCell?_eq (h : Block.target context segment index = .ok denoted)
    (hlabel : segment = .static → ∀ space, context.statics = some space →
      staticName space index ∉ rom.labels) :
    rom.segmentCell? memory context.statics index segment = rom.targetCell? memory denoted := by
  cases Block.target_eq_ok_iff.mp h with
  | constant | based | temp => rfl
  | this | that =>
    rw [targetCell?, Operand.value?, value?_pointer]
    rfl
  | static hspace =>
    have hvalue := value?_staticName (hlabel rfl _ hspace)
    rw [staticName] at hvalue
    rw [targetCell?, Operand.value?, hvalue, hspace]
    rfl

/-- A constant denotes its number. -/
theorem Block.eq_immediate_of_target (h : Block.target context .constant index = .ok denoted) :
    denoted = .immediate index := by
  cases Block.target_eq_ok_iff.mp h
  rfl

theorem Block.exists_of_push (h : Block.push context segment index = .ok block) :
    ∃ denoted, Block.target context segment index = .ok denoted ∧
      block = Block.fetch denoted ++ Block.pushD := by
  obtain ⟨denoted, htarget, h⟩ := bind_eq_ok_iff.mp h
  exact ⟨denoted, htarget, (Except.ok.inj h).symm⟩

theorem Block.exists_of_pop (h : Block.pop context segment index = .ok block) :
    ∃ denoted, Block.target context segment index = .ok denoted ∧
      Block.popTo denoted = .ok block :=
  bind_eq_ok_iff.mp h

/-- **The target of a block in a program has a cell**, unless it is a constant. -/
theorem Rom.exists_targetCell {base : Nat} (h : rom.Holds base block)
    (htarget : Block.target context segment index = .ok denoted) (hne : segment ≠ .constant)
    (hblock : block = Block.fetch denoted ++ Block.pushD ∨ Block.popTo denoted = .ok block) :
    ∃ e, rom.targetCell? memory denoted = some e := by
  have hdirect : ∀ operand, denoted = .direct operand →
      ∃ e, rom.targetCell? memory denoted = some e := by
    rintro operand rfl
    have hmem : .instruction (.address operand) ∈ block := by
      rcases hblock with rfl | hpop
      · exact List.mem_cons_self
      · obtain rfl := Except.ok.inj hpop
        exact List.mem_append_right _ List.mem_cons_self
    obtain ⟨n, hvalue⟩ := h.exists_value? hmem
    exact ⟨Word.ofNat n, by rw [targetCell?, hvalue]; rfl⟩
  cases Block.target_eq_ok_iff.mp htarget with
  | constant => exact absurd rfl hne
  | based => exact ⟨_, rfl⟩
  | temp | this | that | static => exact hdirect _ rfl

end

/-! ### What the blocks do -/

namespace Core

variable {rom : Rom} {c : Core} {denoted : Block.Target} {e : Word}

/-- Loading what lies in the cell of a target. -/
theorem exec_fetch (h : rom.targetCell? c.memory denoted = some e) (he : e.Addresses) :
    c.exec rom (Block.fetch denoted) = some ⟨c.memory, e, c.memory.read e⟩ := by
  cases denoted with
  | immediate value => cases h
  | direct operand =>
    obtain ⟨n, hvalue, rfl⟩ := Option.map_eq_some_iff.mp h
    exact exec_fetch_direct hvalue he
  | indirect p offset =>
    obtain rfl := Option.some.inj h
    exact exec_fetch_indirect he

end Core

/-- The memory before a pop into a target: the address of a target behind a pointer has been put
into the scratch cell. -/
def Memory.readied (memory : Memory) : Block.Target → Memory
  | .indirect p offset => memory.aimed p offset
  | .immediate _ | .direct _ => memory

theorem Memory.read_readied_of_ne {memory : Memory} {denoted : Block.Target} {w : Word}
    (hw : w ≠ Word.ofNat 13) : (memory.readied denoted).read w = memory.read w := by
  cases denoted with
  | indirect p offset => exact read_write_of_ne hw.symm
  | immediate value => rfl
  | direct operand => rfl

namespace Core

variable {rom : Rom} {c : Core} {denoted : Block.Target} {e : Word} {block : Block}

/-- Popping into the cell of a target. -/
theorem exec_popTo (h : rom.targetCell? c.memory denoted = some e)
    (hpop : Block.popTo denoted = .ok block) (he : e.Addresses)
    (hsp : (c.memory.sp - 1).Addresses) :
    ∃ c', c.exec rom block = some c' ∧
      c'.memory = (c.memory.readied denoted).popped.write e (c.memory.readied denoted).topmost := by
  cases denoted with
  | immediate value => cases h
  | direct operand =>
    obtain ⟨n, hvalue, rfl⟩ := Option.map_eq_some_iff.mp h
    obtain rfl := Except.ok.inj hpop
    exact ⟨_, exec_popTo_direct hvalue he hsp, rfl⟩
  | indirect p offset =>
    obtain rfl := Option.some.inj h
    obtain rfl := Except.ok.inj hpop
    have hscratch : (c.memory.aimed p offset).popped.read (Word.ofNat 13) =
        c.memory.read (Word.ofNat p.cell) + Word.ofNat offset := by
      rw [Memory.popped, Memory.read_write_of_ne (by decide), Memory.aimed,
        Memory.read_write_self (Word.addresses_ofNat (by decide))]
    have hkept : (c.memory.aimed p offset).sp = c.memory.sp :=
      Memory.read_write_of_ne (by decide)
    obtain ⟨c', hexec, hmemory⟩ := @exec_popTo_indirect rom c p offset (hkept ▸ hsp)
      (hscratch ▸ he)
    rw [Memory.hit, hscratch] at hmemory
    exact ⟨c', hexec, hmemory⟩

end Core

namespace Machine

/-- **One word has been pushed**, in a run through a block: it lies where the stack pointer was, the
stack pointer is behind it, and nothing else has changed. -/
structure Pushes (rom : Rom) (block : Block) (m : Machine) (s : Nat) (value : Word)
    (m' : Machine) : Prop where
  runs : RunsFor rom (size block) m m'
  pc : m'.pc = m.pc + size block
  sp : m'.memory.sp = Word.ofNat (s + 1)
  top : m'.memory.read (Word.ofNat s) = value
  others : ∀ w, w ≠ Word.ofNat 0 → w ≠ Word.ofNat s → m'.memory.read w = m.memory.read w

/-- **One word has been popped into a cell**, in a run through a block: nothing else has changed but
the stack pointer, and the scratch cell if the segment lies behind a pointer. -/
structure Pops (rom : Rom) (block : Block) (m : Machine) (s : Nat) (segment : Segment) (e : Word)
    (m' : Machine) : Prop where
  runs : RunsFor rom (size block) m m'
  pc : m'.pc = m.pc + size block
  sp : m'.memory.sp = Word.ofNat (s - 1)
  target : m'.memory.read e = m.memory.read (Word.ofNat (s - 1))
  others : ∀ w, w ≠ Word.ofNat 0 → w ≠ Word.ofNat 13 → w ≠ e →
    m'.memory.read w = m.memory.read w
  scratch_based : ∀ p, segment = .based p → m'.memory.read (Word.ofNat 13) = e
  scratch_kept : (∀ p, segment ≠ .based p) →
    m'.memory.read (Word.ofNat 13) = m.memory.read (Word.ofNat 13)

variable {rom : Rom} {m : Machine} {s : Nat} {block : Block}

/-- **Pushing what has been fetched.** -/
theorem exists_pushes {front : Block} {a value : Word}
    (hholds : rom.Holds m.pc (front ++ Block.pushD))
    (hfetch : m.core.exec rom front = some ⟨m.memory, a, value⟩) (hsp : m.memory.sp = Word.ofNat s)
    (hs : 16 ≤ s ∧ s ≤ 32766) : ∃ m', Pushes rom (front ++ Block.pushD) m s value m' := by
  have hpush := @Core.exec_pushD rom ⟨m.memory, a, value⟩
    (hsp ▸ Word.addresses_ofNat (by omega) : m.memory.sp.Addresses)
  have hruns := @runsFor_of_exec rom m.core _ m.pc m.steps _ hholds
    ((Core.exec_of_exec hfetch).trans hpush)
  refine ⟨_, hruns, rfl, Memory.sp_pushed hsp (by omega) (by omega),
    Memory.read_pushed hsp (by omega) (by omega), fun w h0 hw => ?_⟩
  exact Memory.read_pushed_of_ne h0 (hsp ▸ hw)

/-- **Popping into the cell of a target**, whatever else lies in that cell. -/
theorem exists_pops {segment : Segment} {context : Context} {index : Nat} {denoted : Block.Target}
    {e : Word} (hholds : rom.Holds m.pc block)
    (htarget : Block.target context segment index = .ok denoted)
    (hpop : Block.popTo denoted = .ok block) (hcell : rom.targetCell? m.memory denoted = some e)
    (hsp : m.memory.sp = Word.ofNat s) (hs : 17 ≤ s ∧ s ≤ 32768) (he : e.Addresses)
    (h0 : e ≠ Word.ofNat 0) (h13 : e ≠ Word.ofNat 13) :
    ∃ m', Pops rom block m s segment e m' := by
  obtain ⟨n, rfl⟩ : ∃ n, s = n + 1 := ⟨s - 1, by omega⟩
  have hbelow : m.memory.sp - 1 = Word.ofNat n := by rw [hsp, Word.ofNat_succ_sub_one]
  obtain ⟨c', hexec, hmemory⟩ := @Core.exec_popTo rom m.core _ _ _ hcell hpop he
    (hbelow ▸ Word.addresses_ofNat (by omega) : (m.memory.sp - 1).Addresses)
  have hmemory : c'.memory = (m.memory.readied denoted).popped.write e
    (m.memory.readied denoted).topmost := hmemory
  have hruns := @runsFor_of_exec rom m.core c' m.pc m.steps _ hholds hexec
  have hkept : ∀ w, w ≠ Word.ofNat 13 → (m.memory.readied denoted).read w = m.memory.read w :=
    fun w hw => Memory.read_readied_of_ne hw
  have hsp' : (m.memory.readied denoted).sp = Word.ofNat (n + 1) :=
    (hkept _ (by decide)).trans hsp
  have hn : Word.ofNat n ≠ Word.ofNat 13 := Word.ofNat_ne (by omega)
  have hscratch : c'.memory.read (Word.ofNat 13) =
      (m.memory.readied denoted).read (Word.ofNat 13) := by
    rw [hmemory, Memory.read_landed_of_ne (by decide) h13.symm]
  refine ⟨_, hruns, rfl, ?_, ?_, fun w hw0 hw13 hwe => ?_, fun p hp => ?_, fun hp => ?_⟩
  · exact (congrArg Memory.sp hmemory).trans (Memory.sp_landed hsp' h0)
  · refine (congrArg (Memory.read · e) hmemory).trans ?_
    exact (Memory.read_landed hsp' ⟨by omega, by omega⟩ he).trans (hkept _ hn)
  · refine (congrArg (Memory.read · w) hmemory).trans ?_
    exact (Memory.read_landed_of_ne hw0 hwe).trans (hkept _ hw13)
  · refine hscratch.trans ?_
    subst hp
    cases Block.target_eq_ok_iff.mp htarget with
    | based =>
      obtain rfl := Option.some.inj hcell
      have haddresses : (Word.ofNat 13).Addresses := Word.addresses_ofNat (by decide)
      exact Memory.read_write_self haddresses
  · refine hscratch.trans ?_
    cases Block.target_eq_ok_iff.mp htarget with
    | based q => exact absurd rfl (hp q)
    | constant | temp | this | that | static => rfl

end Machine

/-! ### Push and pop in a program -/

section

variable {text : String} {rom : Rom} {context : Context} {segment : Segment} {index : Nat}
  {denoted : Block.Target} {block : Block} {address : Nat}

/-- **The code of an access stands in the program** if the name of a static variable can be read. -/
theorem Block.StandsAt.holds_access (h : block.StandsAt text address)
    (hrom : assemble text = .ok rom)
    (hname : segment = .static → ∀ space, context.statics = some space →
      LegibleName (staticName space index))
    (htarget : Block.target context segment index = .ok denoted)
    (hblock : block = Block.fetch denoted ++ Block.pushD ∨ Block.popTo denoted = .ok block) :
    rom.Holds address block := by
  have hlegible : ∀ name, IsName name → LegibleName name := fun _ hname => hname.legible
  have hdenoted := Block.writtenWith_target hlegible hname htarget
  rcases hblock with rfl | hpop
  · have hwritten := writtenWith_append.mpr
      ⟨Block.writtenWith_fetch hlegible hdenoted, Block.writtenWith_pushD hlegible⟩
    have hlowers : Block.Lowers context (.push segment index) _ context := .push htarget
    exact h.holds hrom (fun s hs => (hwritten s hs).legible) hlowers.uncommented.isComment_eq_false
  · have hwritten := Block.writtenWith_popTo hlegible hdenoted hpop
    have hlowers : Block.Lowers context (.pop segment index) block context := .pop htarget hpop
    exact h.holds hrom (fun s hs => (hwritten s hs).legible) hlowers.uncommented.isComment_eq_false

/-- **Push and pop move one word**, wherever their code stands in a program: between the stack and
the cell of the segment, which they leave as it is or overwrite. A static variable must have a name
that can be read, and that is no label of the program. -/
theorem push_and_pop_move_one_word (hrom : assemble text = .ok rom)
    (hstatic : segment = .static → ∀ space, context.statics = some space →
      LegibleName (staticName space index) ∧ staticName space index ∉ rom.labels)
    {m : Machine} (hstands : block.StandsAt text m.pc) {s : Nat}
    (hsp : m.memory.sp = Word.ofNat s) :
    (Block.push context segment index = .ok block → 16 ≤ s → s ≤ 32766 →
      (segment = .constant → ∃ m', Machine.Pushes rom block m s (Word.ofNat index) m') ∧
      (segment ≠ .constant → ∃ e,
        rom.segmentCell? m.memory context.statics index segment = some e ∧
          (e.Addresses → ∃ m', Machine.Pushes rom block m s (m.memory.read e) m'))) ∧
    (Block.pop context segment index = .ok block → 17 ≤ s → s ≤ 32768 →
      ∃ e, rom.segmentCell? m.memory context.statics index segment = some e ∧
        (e.Addresses → e ≠ Word.ofNat 0 → e ≠ Word.ofNat 13 →
          ∃ m', Machine.Pops rom block m s segment e m')) := by
  have hname := fun hs space hspace => (hstatic hs space hspace).1
  have hlabel := fun hs space hspace => (hstatic hs space hspace).2
  constructor
  · intro hpush hs hs'
    obtain ⟨denoted, htarget, rfl⟩ := Block.exists_of_push hpush
    have hholds := hstands.holds_access hrom hname htarget (Or.inl rfl)
    refine ⟨fun hconstant => ?_, fun hne => ?_⟩
    · subst hconstant
      obtain rfl := Block.eq_immediate_of_target htarget
      exact Machine.exists_pushes hholds (Core.exec_fetch_immediate index) hsp ⟨hs, hs'⟩
    · obtain ⟨e, he⟩ := @Rom.exists_targetCell rom m.memory context segment index denoted _ _
        hholds htarget hne (Or.inl rfl)
      refine ⟨e, (Rom.segmentCell?_eq htarget hlabel).trans he, fun haddress => ?_⟩
      exact Machine.exists_pushes hholds (Core.exec_fetch he haddress) hsp ⟨hs, hs'⟩
  · intro hpop hs hs'
    obtain ⟨denoted, htarget, hpop⟩ := Block.exists_of_pop hpop
    have hholds := hstands.holds_access hrom hname htarget (Or.inr hpop)
    have hne : segment ≠ .constant := by
      rintro rfl
      obtain rfl := Block.eq_immediate_of_target htarget
      cases hpop
    obtain ⟨e, he⟩ := @Rom.exists_targetCell rom m.memory context segment index denoted _ _
      hholds htarget hne (Or.inr hpop)
    refine ⟨e, (Rom.segmentCell?_eq htarget hlabel).trans he, fun haddress h0 h13 => ?_⟩
    exact Machine.exists_pops hholds htarget hpop he hsp ⟨hs, hs'⟩ haddress h0 h13

end

/-- The code of a `pop` into the third word that `LCL` points at. -/
def poppingLocal : Block :=
  Block.loadD "LCL" ++ [number 2, assign .d (.add .a)] ++ Block.saveD MemoryMap.popTarget ++
    Block.popD ++ [symbol MemoryMap.popTarget, assign .a (.y .m), assign .m .d]

/-- A memory in which that word is the pointer itself: `LCL` points at the last of all words, and
behind that the addresses start again. -/
def pointingAround : Memory :=
  ((Machine.reset.memory.write (Word.ofNat 0) (Word.ofNat 17)).write (Word.ofNat 1)
    (Word.ofNat 65535)).write (Word.ofNat 16) (Word.ofNat 42)

/-- **The pointer may be overwritten** by the word that is popped. -/
theorem pops_into_pointer :
    ∃ rom m', assemble (listing poppingLocal) = .ok rom ∧
      rom.segmentCell? pointingAround none 2 (.based .locals) = some (Word.ofNat 1) ∧
      Machine.Pops rom poppingLocal ⟨pointingAround, 3, 4, 0, 0⟩ 17 (.based .locals) (Word.ofNat 1)
        m' ∧
      m'.memory.read (Word.ofNat 1) = Word.ofNat 42 := by
  have hindex : (Block.Target.indirect .locals 2).WrittenWith IsName :=
    show 2 ≤ MemoryMap.maxAddress by decide
  have hwritten : poppingLocal.WrittenWith IsName :=
    Block.writtenWith_popTo (fun _ => id) hindex rfl
  have hplain : ∀ s ∈ poppingLocal, s.Plain := fun s hs => writtenWith_isName.mp (hwritten s hs)
  have hassemble := assemble_listing (fun s hs => (hplain s hs).legible) (by decide)
  rw [if_neg (by decide)] at hassemble
  obtain ⟨rom, hrom, -⟩ := hassemble
  have hpointer : pointingAround.read (Word.ofNat 1) = Word.ofNat 65535 := by
    rw [pointingAround, Memory.read_write_of_ne (by decide), Memory.read_write_self (by decide)]
  have hsp : pointingAround.sp = Word.ofNat 17 := by
    rw [Memory.sp, pointingAround, Memory.read_write_of_ne (by decide),
      Memory.read_write_of_ne (by decide), Memory.read_write_self (by decide)]
  have htop : pointingAround.read (Word.ofNat 16) = Word.ofNat 42 := by
    rw [pointingAround, Memory.read_write_self (by decide)]
  have hcell : rom.segmentCell? pointingAround none 2 (.based .locals) = some (Word.ofNat 1) := by
    change some (pointingAround.read (Word.ofNat 1) + Word.ofNat 2) = _
    rw [hpointer]
    rfl
  have hstands : poppingLocal.StandsAt (listing poppingLocal) 0 := ⟨[], [], by simp, rfl⟩
  obtain ⟨e, he, hpops⟩ := (@push_and_pop_move_one_word _ rom {} (.based .locals) 2 _ hrom (by simp)
    ⟨pointingAround, 3, 4, 0, 0⟩ hstands 17 hsp).2 rfl (by decide) (by decide)
  obtain rfl := Option.some.inj (hcell.symm.trans he)
  obtain ⟨m', hm'⟩ := hpops (by decide) (by decide) (by decide)
  exact ⟨rom, m', hrom, hcell, hm', hm'.target.trans htop⟩

end HackStack
