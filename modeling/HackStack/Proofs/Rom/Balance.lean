import Mathlib.Algebra.Ring.Int.Defs
import HackStack.Proofs.Rom.Access
import HackStack.Proofs.Rom.Forward
import HackStack.Proofs.Rom.Nesting

/-!
# What commands do to the stack pointer

`HackStack.Command.stackEffect?` says of a command by how much it makes the stack grow. The code of
the command moves the stack pointer step by step. This file shows that the two agree, for every
command but calls and returns (`HackStack.stackEffect_agrees`): wherever the block of the command
stands in a program, and whichever way it takes, it moves the stack pointer by that much. It is
enough that the slots it touches lie on the stack, and that the cell of a segment is no stack
pointer (`HackStack.Rom.Admits`).

In a program without jumps of its own the blocks are run one after the other, so the effects add up
over programs of any length. The machine ends behind the last block, since each block leads to the
next one.
-/

namespace HackStack

open Assembly Statement

/-! ### What a command touches -/

/-- **The slots of the stack that a command reads or writes**, where the stack ends before the cell
`s`. Calls and returns work on frames and are left out. -/
def Command.slots (s : Nat) : Command → List Nat
  | push _ _ => [s]
  | pop _ _ | operate (.unary _) | ifGoto _ => [s - 1]
  | operate (.binary _) | operate (.comparison _) => [s - 2, s - 1]
  | function _ locals => List.range' s locals
  | label _ | goto _ | call _ _ | ret => []

/-- **The cell of a segment that a command accesses**, if it accesses one. -/
def Rom.accessedCell? (rom : Rom) (memory : Memory) (context : Context) : Command → Option Word
  | .push segment index | .pop segment index =>
    match Block.target context segment index with
    | .ok denoted => rom.targetCell? memory denoted
    | .error _ => none
  | .operate _ | .label _ | .goto _ | .ifGoto _ | .function _ _ | .call _ _ | .ret => none

/-- **A memory admits a command**: the slots that it touches are slots of a stack, and the cell of a
segment that it accesses is a cell of the memory other than the stack pointer. -/
structure Rom.Admits (rom : Rom) (context : Context) (c : Command) (memory : Memory) : Prop where
  slots : ∀ i ∈ c.slots memory.sp.toNat, 16 ≤ i ∧ i ≤ 32767
  cell : ∀ e, rom.accessedCell? memory context c = some e → 1 ≤ e.toNat ∧ e.toNat ≤ 32767

/-- **Where the block of a command leads**: behind itself, or to what the symbol of a target stands
for. -/
def Rom.LeadsTo (rom : Rom) (context : Context) (block : Block) (m : Machine) (pc : Nat) :
    Command → Prop
  | .goto target => rom.value? (context.userLabel target).render = some pc
  | .ifGoto target =>
    if m.memory.read (m.memory.sp - 1) = 0 then pc = m.pc + size block
    else rom.value? (context.userLabel target).render = some pc
  | .push _ _ | .pop _ _ | .operate _ | .label _ | .function _ _ | .call _ _ | .ret =>
    pc = m.pc + size block

/-- **A command has had its effect on the stack**, in a run through its block: the stack pointer has
moved by `effect`, and the locals of a function are zero. -/
structure Machine.Balances (rom : Rom) (context : Context) (c : Command) (block : Block)
    (effect : Int) (m m' : Machine) : Prop where
  runs : ∃ cycles ≤ size block, m.RunsFor rom cycles m'
  pc : rom.LeadsTo context block m m'.pc c
  sp : (m'.memory.sp.toNat : Int) = m.memory.sp.toNat + effect
  zeros : ∀ name locals, c = .function name locals → ∀ i < locals,
    m'.memory.read (Word.ofNat (m.memory.sp.toNat + i)) = 0

/-! ### The blocks -/

section

variable {rom : Rom} {context context' : Context} {c : Command} {block : Block} {effect : Int}
  {m : Machine} {s s' : Nat}

/-- A cell that may be accessed. -/
theorem Rom.Admits.addresses {segment : Segment} {index : Nat} {denoted : Block.Target} {e : Word}
    {memory : Memory} (h : rom.Admits context c memory)
    (hc : c = .push segment index ∨ c = .pop segment index)
    (htarget : Block.target context segment index = .ok denoted)
    (he : rom.targetCell? memory denoted = some e) : e.Addresses ∧ e ≠ Word.ofNat 0 := by
  have haccessed : rom.accessedCell? memory context c = some e := by
    rcases hc with rfl | rfl <;> rw [accessedCell?, htarget] <;> exact he
  obtain ⟨hlow, hhigh⟩ := h.cell e haccessed
  refine ⟨Nat.lt_succ_of_le hhigh, ?_⟩
  rintro rfl
  exact absurd hlow (by decide)

/-- A push that is admitted finds its word. -/
theorem Rom.Admits.exec_fetch {segment : Segment} {index : Nat} {denoted : Block.Target}
    {base : Nat} {core : Core} (h : rom.Admits context (.push segment index) core.memory)
    (hholds : rom.Holds base (Block.fetch denoted ++ Block.pushD))
    (htarget : Block.target context segment index = .ok denoted) :
    ∃ a v, core.exec rom (Block.fetch denoted) = some ⟨core.memory, a, v⟩ := by
  by_cases hconstant : segment = .constant
  · subst hconstant
    obtain rfl := Block.eq_immediate_of_target htarget
    exact ⟨_, _, Core.exec_fetch_immediate index⟩
  · obtain ⟨e, he⟩ := @Rom.exists_targetCell rom core.memory _ _ _ _ _ _ hholds htarget hconstant
      (.inl rfl)
    exact ⟨_, _, Core.exec_fetch he (h.addresses (.inl rfl) htarget he).1⟩

/-- **A straight block that moves the stack pointer** has this effect. -/
theorem Machine.balances_of_exec {after : Core} (hholds : rom.Holds m.pc block)
    (hexec : m.core.exec rom block = some after) (hc : c.isStraight = true)
    (hsp : m.memory.sp = Word.ofNat s) (hs : s < 65536) (hsp' : after.memory.sp = Word.ofNat s')
    (hs' : s' < 65536) (heffect : (s' : Int) = s + effect)
    (hzeros : ∀ name locals, c = .function name locals → ∀ i < locals,
      after.memory.read (Word.ofNat (s + i)) = 0) :
    ∃ m', Balances rom context c block effect m m' := by
  have hruns := @runsFor_of_exec rom m.core after m.pc m.steps block hholds hexec
  refine ⟨_, ⟨_, Nat.le_refl _, hruns⟩, ?_, ?_, ?_⟩
  · cases c with
    | goto | ifGoto | call | ret => exact absurd hc Bool.false_ne_true
    | push | pop | operate | label | function => rfl
  · change (after.memory.sp.toNat : Int) = m.memory.sp.toNat + effect
    rw [hsp', hsp, Word.toNat_ofNat hs, Word.toNat_ofNat hs']
    exact heffect
  · rw [hsp, Word.toNat_ofNat hs]
    exact hzeros

/-- There is a word on a stack that admits a command which reads it. -/
theorem Rom.Admits.exists_below {memory : Memory} (h : rom.Admits context c memory)
    (hc : ∀ s, s - 1 ∈ c.slots s) :
    ∃ n, memory.sp = Word.ofNat (n + 1) ∧ 16 ≤ n ∧ n ≤ 32767 := by
  obtain ⟨hlow, hhigh⟩ := h.slots _ (hc memory.sp.toNat)
  refine ⟨memory.sp.toNat - 1, ?_, hlow, hhigh⟩
  rw [Nat.sub_add_cancel (by omega), Word.ofNat_toNat]

/-- There are two words on a stack that admits a command which reads both. -/
theorem Rom.Admits.exists_two_below {memory : Memory} (h : rom.Admits context c memory)
    (hc : ∀ s, s - 1 ∈ c.slots s ∧ s - 2 ∈ c.slots s) :
    ∃ n, memory.sp = Word.ofNat (n + 2) ∧ 16 ≤ n ∧ n + 1 ≤ 32767 := by
  obtain ⟨hlow, -⟩ := h.slots _ (hc memory.sp.toNat).2
  obtain ⟨-, hhigh⟩ := h.slots _ (hc memory.sp.toNat).1
  refine ⟨memory.sp.toNat - 2, ?_, hlow, by omega⟩
  rw [Nat.sub_add_cancel (by omega), Word.ofNat_toNat]

namespace Machine

/-- A push moves the stack pointer up. -/
theorem balances_push {segment : Segment} {index : Nat} {denoted : Block.Target}
    (hadmits : rom.Admits context (.push segment index) m.memory)
    (hholds : rom.Holds m.pc (Block.fetch denoted ++ Block.pushD))
    (htarget : Block.target context segment index = .ok denoted) :
    ∃ m', Balances rom context (.push segment index) (Block.fetch denoted ++ Block.pushD) 1 m
      m' := by
  obtain ⟨hlow, hhigh⟩ := hadmits.slots _ (List.mem_singleton_self m.memory.sp.toNat)
  have hsp : m.memory.sp = Word.ofNat m.memory.sp.toNat := (Word.ofNat_toNat _).symm
  obtain ⟨a, v, hfetch⟩ := @Rom.Admits.exec_fetch _ _ _ _ _ _ m.core hadmits hholds htarget
  have hpush := @Core.exec_pushD rom ⟨m.memory, a, v⟩ (Nat.lt_succ_of_le hhigh)
  exact balances_of_exec hholds ((Core.exec_of_exec hfetch).trans hpush) rfl hsp (by omega)
    (Memory.sp_pushed hsp (by omega) (by omega)) (by omega) (by omega) fun _ _ hc => nomatch hc

/-- A pop moves the stack pointer down, whatever cell it writes. -/
theorem balances_pop {segment : Segment} {index : Nat} {denoted : Block.Target}
    (hadmits : rom.Admits context (.pop segment index) m.memory) (hholds : rom.Holds m.pc block)
    (htarget : Block.target context segment index = .ok denoted)
    (hpop : Block.popTo denoted = .ok block) :
    ∃ m', Balances rom context (.pop segment index) block (-1) m m' := by
  obtain ⟨n, hsp, hlow, hhigh⟩ := hadmits.exists_below fun s => List.mem_singleton_self (s - 1)
  have hbelow : (m.core.memory.sp - 1).Addresses := by
    rw [core, hsp, Word.ofNat_succ_sub_one]
    exact Word.addresses_ofNat (by omega)
  have hne := Block.ne_constant_of_popTo htarget hpop
  obtain ⟨e, he⟩ := @Rom.exists_targetCell rom m.memory _ _ _ _ _ _ hholds htarget hne (.inr hpop)
  obtain ⟨haddresses, h0⟩ := hadmits.addresses (.inr rfl) htarget he
  obtain ⟨after, hexec, hmemory⟩ := @Core.exec_popTo rom m.core _ _ _ he hpop haddresses hbelow
  have hreadied : (m.memory.readied denoted).sp = Word.ofNat (n + 1) :=
    (Memory.read_readied_of_ne (by decide)).trans hsp
  refine balances_of_exec hholds hexec rfl hsp (by omega) ?_ (show n < 65536 by omega) (by omega)
    fun _ _ hc => nomatch hc
  rw [hmemory]
  exact Memory.sp_landed hreadied h0

/-- An operator on one word leaves the stack pointer where it is. -/
theorem balances_unary {op : Unary}
    (hadmits : rom.Admits context (.operate (.unary op)) m.memory)
    (hholds : rom.Holds m.pc (Block.top ++ [.assign .m (Block.unaryComp op)])) :
    ∃ m', Balances rom context (.operate (.unary op))
      (Block.top ++ [.assign .m (Block.unaryComp op)]) 0 m m' := by
  obtain ⟨n, hsp, hlow, hhigh⟩ := hadmits.exists_below fun s => List.mem_singleton_self (s - 1)
  have hbelow : m.core.memory.sp - 1 = Word.ofNat n := by
    rw [core, hsp, Word.ofNat_succ_sub_one]
  have hexec := @Core.exec_unary rom m.core (Block.unaryComp op)
    (hbelow ▸ Word.addresses_ofNat (by omega)) (by cases op <;> rfl)
  refine balances_of_exec hholds hexec rfl hsp (by omega) ?_ (show n + 1 < 65536 by omega)
    (by omega) fun _ _ hc => nomatch hc
  refine (Memory.read_write_of_ne ?_).trans hsp
  rw [hbelow]
  exact Word.ofNat_ne (by omega)

/-- An operator on two words moves the stack pointer down. -/
theorem balances_binary {op : Binary}
    (hadmits : rom.Admits context (.operate (.binary op)) m.memory)
    (hholds : rom.Holds m.pc (Block.popThenTop ++ [.assign .m (Block.binaryComp op)])) :
    ∃ m', Balances rom context (.operate (.binary op))
      (Block.popThenTop ++ [.assign .m (Block.binaryComp op)]) (-1) m m' := by
  obtain ⟨n, hsp, hlow, hhigh⟩ := hadmits.exists_two_below fun s =>
    ⟨List.mem_cons_of_mem _ List.mem_cons_self, List.mem_cons_self⟩
  have habove : m.core.memory.sp - 1 = Word.ofNat (n + 1) := by
    rw [core, hsp, Word.ofNat_succ_sub_one]
  have hbelow : m.core.memory.sp - 1 - 1 = Word.ofNat n := by
    rw [habove, Word.ofNat_succ_sub_one]
  have hexec := @Core.exec_binary rom m.core (Block.binaryComp op)
    (habove ▸ Word.addresses_ofNat (by omega)) (hbelow ▸ Word.addresses_ofNat (by omega))
    (by cases op <;> rfl)
  refine balances_of_exec hholds hexec rfl hsp (by omega) ?_ (show n + 1 < 65536 by omega)
    (by omega) fun _ _ hc => nomatch hc
  refine Memory.sp_landed hsp ?_
  rw [hbelow]
  exact Word.ofNat_ne (by omega)

/-- A comparison moves the stack pointer down, whichever way it goes. -/
theorem balances_comparison {op : Comparison}
    (hadmits : rom.Admits context (.operate (.comparison op)) m.memory)
    (hholds : rom.Holds m.pc (context.branches op))
    (hfits : m.pc + size (context.branches op) < 65536) :
    ∃ m', Balances rom context (.operate (.comparison op)) (context.branches op) (-1) m m' := by
  obtain ⟨n, hsp, hlow, hhigh⟩ := hadmits.exists_two_below fun s =>
    ⟨List.mem_cons_of_mem _ List.mem_cons_self, List.mem_cons_self⟩
  obtain ⟨m', hcompares⟩ := exists_compares hholds (predefined?_compareLabel context .holds)
    (predefined?_compareLabel context .done) hfits hsp (by omega) (by omega)
  refine ⟨m', hcompares.runs, hcompares.pc, ?_, fun _ _ hc => nomatch hc⟩
  rw [hcompares.sp, hsp, Word.toNat_ofNat (by omega), Word.toNat_ofNat (by omega)]
  omega

/-- A function moves the stack pointer behind its locals, which are zero. -/
theorem balances_function {name : String} {locals : Nat}
    (hadmits : rom.Admits context (.function name locals) m.memory)
    (hholds : rom.Holds m.pc (.label name :: Block.zeros locals)) :
    ∃ m', Balances rom context (.function name locals) (.label name :: Block.zeros locals) locals
      m m' := by
  obtain ⟨s, hs, hsp⟩ : ∃ s < 65536, m.memory.sp = Word.ofNat s :=
    ⟨_, m.memory.sp.isLt, (Word.ofNat_toNat _).symm⟩
  have hslots : ∀ i < locals, 0 < s + i ∧ s + i < 32768 := by
    intro i hi
    have hslot := hadmits.slots (s + i)
    rw [hsp, Word.toNat_ofNat hs] at hslot
    have hbounds := hslot (List.mem_range'_1.mpr ⟨by omega, by omega⟩)
    omega
  have hfits : s + locals < 65536 := by
    rcases locals with _ | last
    · exact hs
    · have hslot := hslots last (Nat.lt_succ_self last)
      omega
  have haddresses : ∀ i < locals, (m.memory.zeroed i).sp.Addresses := by
    intro i hi
    rw [(Memory.zeroed_frame hsp fun j hj => hslots j (Nat.lt_trans hj hi)).1]
    exact Word.addresses_ofNat (hslots i hi).2
  obtain ⟨hend, hzeros, -⟩ := Memory.zeroed_frame hsp hslots
  obtain ⟨after, hexec, hmemory⟩ := @Core.exec_zeros rom m.core locals haddresses
  have hzeroed : after.memory = m.memory.zeroed locals := hmemory
  rw [← hzeroed] at hend hzeros
  refine balances_of_exec hholds hexec rfl hsp hs hend hfits (by omega) ?_
  rintro _ _ ⟨⟩ i hi
  exact hzeros i hi

/-- A label leaves everything as it is. -/
theorem balances_label {name : String} (hholds : rom.Holds m.pc [.label name]) {source : String} :
    ∃ m', Balances rom context (.label source) [.label name] 0 m m' := by
  have hsp : m.memory.sp = Word.ofNat m.memory.sp.toNat := (Word.ofNat_toNat _).symm
  have hs : m.memory.sp.toNat < 65536 := m.memory.sp.isLt
  exact balances_of_exec hholds rfl rfl hsp hs hsp hs (by omega) fun _ _ hc => nomatch hc

/-- A jump leads to what its symbol stands for, and leaves the stack alone. -/
theorem balances_goto {target : String} (hholds : rom.Holds m.pc (Block.goto context target))
    (hvalues : ∀ name n, rom.value? name = some n → n < 65536) :
    ∃ m', Balances rom context (.goto target) (Block.goto context target) 0 m m' := by
  obtain ⟨op, -, n, hvalue, -⟩ := hholds.head
  have hexec : m.core.exec rom [symbol (context.userLabel target).render] =
      some ⟨m.memory, Word.ofNat n, m.d⟩ := Core.exec_symbol hvalue
  obtain ⟨m', hruns, hpc, hmemory⟩ := runsFor_of_jump rfl rfl hholds hexec
  rw [Word.toNat_ofNat (hvalues _ n hvalue)] at hpc
  refine ⟨m', ⟨_, Nat.le_refl _, hruns⟩, hpc ▸ hvalue, ?_, fun _ _ hc => nomatch hc⟩
  rw [show m'.memory = m.memory from hmemory, Int.add_zero]

/-- **A conditional jump** pops a word, whether or not it leads to what its symbol stands for. -/
theorem balances_ifGoto {target : String}
    (hadmits : rom.Admits context (.ifGoto target) m.memory)
    (hholds : rom.Holds m.pc (Block.ifGoto context target))
    (hvalues : ∀ name n, rom.value? name = some n → n < 65536) :
    ∃ m', Balances rom context (.ifGoto target) (Block.ifGoto context target) (-1) m m' := by
  obtain ⟨s, hsp, hlow, hhigh⟩ := hadmits.exists_below fun s => List.mem_singleton_self (s - 1)
  have hbelow : m.memory.sp - 1 = Word.ofNat s := by rw [hsp, Word.ofNat_succ_sub_one]
  have htop : m.memory.topmost = m.memory.read (m.memory.sp - 1) := by
    rw [Memory.topmost_eq hsp ⟨by omega, by omega⟩, hbelow]
  obtain ⟨n, m', hvalue, hruns, hmemory, hpc⟩ := exists_runsFor_ifGoto hholds
    (hbelow ▸ Word.addresses_ofNat (by omega))
  rw [Word.toNat_ofNat (hvalues _ n hvalue)] at hpc
  refine ⟨m', ⟨_, Nat.le_refl _, hruns⟩, ?_, ?_, fun _ _ hc => nomatch hc⟩
  · rw [Rom.LeadsTo, ← htop, hpc]
    by_cases hzero : m.memory.topmost = 0
    · rw [if_pos hzero, if_pos hzero]
    · rw [if_neg hzero, if_neg hzero]
      exact hvalue
  · rw [hmemory, Memory.sp_popped, hbelow, hsp, Word.toNat_ofNat (by omega),
      Word.toNat_ofNat (by omega)]
    omega

end Machine

/-- **The block of a command has the effect that is declared.** -/
theorem Block.Lowers.exists_balances (h : Block.Lowers context c block context')
    (hholds : rom.Holds m.pc block) (hfits : m.pc + size block < 65536)
    (hvalues : ∀ name n, rom.value? name = some n → n < 65536)
    (hcall : ∀ name arguments, c ≠ .call name arguments)
    (heffect : c.stackEffect? = some effect) (hadmits : rom.Admits context c m.memory) :
    ∃ m', m.Balances rom context c block effect m' := by
  cases h with
  | call => exact absurd rfl (hcall _ _)
  | ret => cases heffect
  | push htarget =>
    obtain rfl := Option.some.inj heffect
    exact Machine.balances_push hadmits hholds htarget
  | pop htarget hpop =>
    obtain rfl := Option.some.inj heffect
    exact Machine.balances_pop hadmits hholds htarget hpop
  | unary op =>
    obtain rfl := Option.some.inj heffect
    exact Machine.balances_unary hadmits hholds
  | binary op =>
    obtain rfl := Option.some.inj heffect
    exact Machine.balances_binary hadmits hholds
  | comparison op =>
    obtain rfl := Option.some.inj heffect
    exact Machine.balances_comparison hadmits hholds hfits
  | label =>
    obtain rfl := Option.some.inj heffect
    exact Machine.balances_label hholds
  | goto target =>
    obtain rfl := Option.some.inj heffect
    exact Machine.balances_goto hholds hvalues
  | ifGoto target =>
    obtain rfl := Option.some.inj heffect
    exact Machine.balances_ifGoto hadmits hholds hvalues
  | function =>
    obtain rfl := Option.some.inj heffect
    exact Machine.balances_function hadmits hholds

end

/-! ### Programs -/

/-- Commands that go on with the next one declare their effect. -/
theorem Command.exists_stackEffect {c : Command} (h : c.isStraight = true) :
    ∃ effect, c.stackEffect? = some effect := by
  cases c with
  | ret => exact absurd h Bool.false_ne_true
  | push | pop | operate | label | goto | ifGoto | function | call => exact ⟨_, rfl⟩

section

variable {rom : Rom} {sites : List Site} {k : Nat} {site : Site} {c : Command} {effect : Int}
  {m : Machine}

/-- **The block of a command in a program** has the effect that is declared. -/
theorem Rom.InPlace.exists_balances (h : rom.InPlace sites) (hsize : rom.code.size < 65536)
    (hvalues : ∀ name n, rom.value? name = some n → n < 65536) (hsite : sites[k]? = some site)
    (htask : site.task = .written c) (hcall : ∀ name arguments, c ≠ .call name arguments)
    (heffect : c.stackEffect? = some effect) (hpc : m.pc = rom.address sites k)
    (hadmits : rom.Admits site.context c m.memory) :
    ∃ m', m.Balances rom site.context c site.block effect m' := by
  obtain ⟨hholds, hnext⟩ := h.places k site c hsite htask
  obtain ⟨context', hlowers⟩ := h.lowers site (List.mem_of_getElem? hsite)
  rw [← hpc] at hholds hnext
  have hfits : m.pc + size site.block < 65536 := by
    rw [← hnext]
    exact Nat.lt_of_le_of_lt (Nat.sub_le _ _) hsize
  rw [htask] at hlowers
  cases hlowers with
  | written hlowers => exact hlowers.exists_balances hholds hfits hvalues hcall heffect hadmits

/-- The block of a command without a jump leads to the next block. -/
theorem Rom.InPlace.exists_next (h : rom.InPlace sites) (hsize : rom.code.size < 65536)
    (hvalues : ∀ name n, rom.value? name = some n → n < 65536) (hsite : sites[k]? = some site)
    (htask : site.task = .written c) (hstraight : c.isStraight = true)
    (heffect : c.stackEffect? = some effect) (hpc : m.pc = rom.address sites k)
    (hadmits : rom.Admits site.context c m.memory) :
    ∃ n m', m.RunsFor rom n m' ∧ m'.pc = rom.address sites (k + 1) ∧
      (m'.memory.sp.toNat : Int) = m.memory.sp.toNat + effect := by
  have hcall : ∀ name arguments, c ≠ .call name arguments := by
    rintro name arguments rfl
    exact Bool.false_ne_true hstraight
  obtain ⟨m', ⟨n, -, hruns⟩, hleads, hsp, -⟩ :=
    h.exists_balances hsize hvalues hsite htask hcall heffect hpc hadmits
  refine ⟨n, m', hruns, ?_, hsp⟩
  rw [(h.places k site c hsite htask).next, ← hpc]
  cases c with
  | goto | ifGoto | call | ret => exact absurd hstraight Bool.false_ne_true
  | push | pop | operate | label | function => exact hleads

/-- **The effects add up** from block to block, if the commands before are admitted where the
machine comes to them. -/
theorem Rom.InPlace.exists_runsFor {commands : List Command} (h : rom.InPlace sites)
    (hsize : rom.code.size < 65536) (hvalues : ∀ name n, rom.value? name = some n → n < 65536)
    (htasks : sites.map Site.task = commands.map Task.written)
    (hstraight : ∀ c ∈ commands, c.isStraight = true) (hpc : m.pc = rom.address sites 0)
    (hadmits : ∀ j < k, ∀ site c n m', sites[j]? = some site → site.task = .written c →
      m.RunsFor rom n m' → m'.pc = rom.address sites j → rom.Admits site.context c m'.memory)
    (hk : k ≤ commands.length) :
    ∃ n m', m.RunsFor rom n m' ∧ m'.pc = rom.address sites k ∧
      (m'.memory.sp.toNat : Int) =
        m.memory.sp.toNat + ((commands.take k).filterMap Command.stackEffect?).sum := by
  induction k with
  | zero =>
    refine ⟨0, m, .zero m, hpc, ?_⟩
    rw [List.take_zero, List.filterMap_nil, List.sum_nil, Int.add_zero]
  | succ k ih =>
    obtain ⟨n, between, hruns, hbetween, hsp⟩ :=
      ih (fun j hj => hadmits j (Nat.lt_succ_of_lt hj)) (Nat.le_of_succ_le hk)
    have hcommand : commands[k]? = some commands[k] := List.getElem?_eq_getElem hk
    obtain ⟨site, hsite, htask⟩ := exists_site (k := k) htasks
      (List.getElem?_map .. ▸ congrArg (Option.map Task.written) hcommand)
    obtain ⟨effect, heffect⟩ := Command.exists_stackEffect (hstraight _ (List.getElem_mem hk))
    obtain ⟨more, m', hmore, hpc', hsp'⟩ := h.exists_next hsize hvalues hsite htask
      (hstraight _ (List.getElem_mem hk)) heffect hbetween
      (hadmits k (Nat.lt_succ_self k) site _ n between hsite htask hruns hbetween)
    refine ⟨n + more, m', hruns.trans hmore, hpc', ?_⟩
    rw [List.take_add_one, hcommand, Option.toList_some, List.filterMap_append, List.sum_append,
      hsp', hsp, Int.add_assoc]
    simp [heffect]

end

theorem map_task_of_translate {sources : List Source} {options : Options} {t : Translation}
    (ht : translate sources options = .ok t) :
    (sitesOf {} (events sources options)).map Site.task =
      options.tasks ++ (commandsOf sources).map Task.written := by
  obtain ⟨sites, context, -, h, -⟩ := translates_of_translate ht
  rw [h.sitesOf_eq]
  exact h.map_task_events

/-- A program that consists of the blocks of its sites starts with the first one. -/
theorem Rom.address_zero {rom : Rom} {sites : List Site} {annotate : Bool}
    (h : rom.code.size = size (codeOf annotate sites)) : rom.address sites 0 = 0 := by
  rw [address, List.drop_zero, h, size_codeOf, Nat.sub_self]

/-- **The declared effects agree with the code.** In a program that is translated and assembled, let
the machine stand before the block of a command other than a call or a return, with a memory that
admits the command. Then it runs through the block to where the command leads, and moves the stack
pointer by the effect that is declared; the locals of a function are zero.

If the program has no jumps of its own and no start, and the machine starts at its first
instruction, with a memory that admits every command that it comes to, then it ends behind the last
instruction, and has moved the stack pointer by the sum of the effects. -/
theorem stackEffect_agrees {sources : List Source} {options : Options} {t : Translation} {rom : Rom}
    (ht : translate sources options = .ok t) (hrom : assemble t.text = .ok rom)
    (hspaces : ∀ source ∈ sources, isSymbol source.space.toList = true) :
    (∀ k site c effect (m : Machine), (sitesOf {} (events sources options))[k]? = some site →
      site.task = .written c → (∀ name arguments, c ≠ .call name arguments) →
      c.stackEffect? = some effect → m.pc = rom.address (sitesOf {} (events sources options)) k →
      rom.Admits site.context c m.memory →
      ∃ m', m.Balances rom site.context c site.block effect m') ∧
    (options.startUp = false → (∀ c ∈ commandsOf sources, c.isStraight = true) →
      ∀ m : Machine, m.pc = 0 →
      (∀ k site c n m', (sitesOf {} (events sources options))[k]? = some site →
        site.task = .written c → m.RunsFor rom n m' →
        m'.pc = rom.address (sitesOf {} (events sources options)) k →
        rom.Admits site.context c m'.memory) →
      ∃ n m', m.RunsFor rom n m' ∧ m'.pc = rom.code.size ∧
        (m'.memory.sp.toNat : Int) =
          m.memory.sp.toNat + ((commandsOf sources).filterMap Command.stackEffect?).sum ∧
        ∀ limit, n < limit → m.run rom limit = (m', .ok n)) := by
  have hplace := inPlace_of_translate ht hrom hspaces
  have hvalues : ∀ name n, rom.value? name = some n → n < 65536 :=
    fun name n => Rom.value?_lt_of_assemble hrom
  have hsize : rom.code.size < 65536 :=
    Nat.lt_of_le_of_lt (Rom.size_le_of_assemble hrom) (by decide)
  constructor
  · intro k site c effect m hsite htask hcall heffect hpc hadmits
    exact hplace.exists_balances hsize hvalues hsite htask hcall heffect hpc hadmits
  · intro hoff hstraight m hpc hadmits
    -- Without a start, the sites are the commands of the files, one for one.
    have htasks : (sitesOf {} (events sources options)).map Site.task =
        (commandsOf sources).map Task.written := by
      rw [map_task_of_translate ht, Options.tasks, hoff]
      rfl
    have hstart := Rom.address_zero
      (isForward_of_translate ht hrom hspaces hoff hstraight).size_eq
    obtain ⟨n, m', hruns, hend, hsp⟩ := hplace.exists_runsFor hsize hvalues htasks hstraight
      (hpc.trans hstart.symm) (fun k _ => hadmits k) (Nat.le_refl _)
    have hlength := congrArg List.length htasks
    rw [List.length_map, List.length_map] at hlength
    rw [List.take_length] at hsp
    have hend : m'.pc = rom.code.size := by
      rw [hend, Rom.address, List.drop_eq_nil_of_le hlength.le]
      rfl
    exact ⟨n, m', hruns, hend, hsp, fun limit hlimit =>
      Machine.run_of_runsFor hruns (Machine.step_eq_halted_iff.mpr ⟨rfl, hend.ge⟩) hlimit⟩

/-- **It is enough to know the stack pointer**: commands that are admitted wherever the stack
pointer has been moved by the effects before them are admitted where the machine comes to them. -/
theorem Rom.InPlace.admits_of_effects {rom : Rom} {sites : List Site} {code : Block} {m : Machine}
    {commands : List Command} (h : rom.InPlace sites) (hforward : rom.IsForward code)
    (hvalues : ∀ name n, rom.value? name = some n → n < 65536)
    (htasks : sites.map Site.task = commands.map Task.written)
    (hstraight : ∀ c ∈ commands, c.isStraight = true) (hpc : m.pc = 0)
    (hstart : rom.address sites 0 = 0)
    (hadmits : ∀ k c, commands[k]? = some c → ∀ context memory, (Memory.sp memory).toNat =
        m.memory.sp.toNat + ((commands.take k).filterMap Command.stackEffect?).sum →
      rom.Admits context c memory) :
    ∀ k site c n m', sites[k]? = some site → site.task = .written c → m.RunsFor rom n m' →
      m'.pc = rom.address sites k → rom.Admits site.context c m'.memory := by
  intro k
  induction k using Nat.strong_induction_on with
  | _ k ih =>
    intro site c n m' hsite htask hruns hat
    have hcommand : commands[k]? = some c := by
      have hget := congrArg (·[k]?) htasks
      simp only [List.getElem?_map, hsite, Option.map_some, htask] at hget
      obtain ⟨c', hc', heq⟩ := Option.map_eq_some_iff.mp hget.symm
      rw [hc', Task.written.inj heq]
    obtain ⟨hlt, -⟩ := List.getElem?_eq_some_iff.mp hcommand
    obtain ⟨n', m'', hruns', hat', hsp⟩ := h.exists_runsFor
      (Nat.lt_of_le_of_lt hforward.size_eq.le hforward.fits) hvalues htasks hstraight
      (hpc.trans hstart.symm) ih hlt.le
    -- The machine comes to each address once.
    obtain rfl := hforward.unique hpc hruns hruns' (hat.trans hat'.symm)
    exact hadmits k c hcommand site.context m'.memory hsp

/-- A command that accesses no cell of a segment is admitted if the slots that it touches are slots
of a stack. -/
theorem Rom.admits_of_slots {rom : Rom} {context : Context} {c : Command} {memory : Memory}
    {s : Nat} (hcell : rom.accessedCell? memory context c = none) (hsp : memory.sp.toNat = s)
    (hslots : ∀ i ∈ c.slots s, 16 ≤ i ∧ i ≤ 32767) : rom.Admits context c memory where
  slots := by
    rw [hsp]
    exact hslots
  cell e he := absurd (hcell.symm.trans he) (by simp)

/-- Two words are pushed, compared, and followed by two locals: the stack has grown by three. -/
theorem stackEffect_agrees_enteringFunction :
    ∃ t rom n m', translate enteringFunction {} = .ok t ∧ assemble t.text = .ok rom ∧
      (Machine.withPointers 0 0 0 0).RunsFor rom n m' ∧ m'.pc = rom.code.size ∧
      (m'.memory.sp.toNat : Int) = 256 + 3 := by
  obtain ⟨t, rom, ht, hrom⟩ := exists_rom_enteringFunction
  have hspaces : ∀ source ∈ enteringFunction, isSymbol source.space.toList = true := by decide
  have hstraight : ∀ c ∈ commandsOf enteringFunction, c.isStraight = true := by decide
  have hforward := isForward_of_translate ht hrom hspaces rfl hstraight
  have hsp : (Machine.withPointers 0 0 0 0).memory.sp.toNat = 256 :=
    congrArg BitVec.toNat (Memory.read_ofNat (by decide))
  have hadmits : ∀ k c, (commandsOf enteringFunction)[k]? = some c → ∀ context memory,
      (Memory.sp memory).toNat = (Machine.withPointers 0 0 0 0).memory.sp.toNat +
        (((commandsOf enteringFunction).take k).filterMap Command.stackEffect?).sum →
      rom.Admits context c memory := by
    intro k c hc context memory h
    rw [hsp] at h
    have hcommands : commandsOf enteringFunction = [.push .constant 7, .push .constant 8,
        .operate (.comparison .gt), .function "Main.run" 2] := by decide
    rw [hcommands] at hc h
    -- The slots of each of the four commands are known numbers.
    rcases k with _ | _ | _ | _ | k
    on_goal 5 => exact absurd hc (by simp)
    all_goals
      obtain rfl := Option.some.inj hc
      exact Rom.admits_of_slots rfl (Int.ofNat.inj h) (by decide)
  obtain ⟨n, m', hruns, hend, hsum, -⟩ := (stackEffect_agrees ht hrom hspaces).2 rfl hstraight _ rfl
    ((inPlace_of_translate ht hrom hspaces).admits_of_effects hforward
      (fun name n => Rom.value?_lt_of_assemble hrom) (map_task_of_translate ht) hstraight rfl
      (Rom.address_zero hforward.size_eq) hadmits)
  rw [hsp] at hsum
  exact ⟨t, rom, n, m', ht, hrom, hruns, hend, hsum⟩

end HackStack
