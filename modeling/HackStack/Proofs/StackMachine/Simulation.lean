import HackStack.Proofs.Block.Comparison
import HackStack.Proofs.StackMachine.Straight

/-!
# The machine follows the stack machine

The two stand at the same task when the program counter is at the address of the task and the
memories agree (`HackStack.StackMachine.Program.Matches`). From there the machine runs through the
block of the task and comes to where the stack machine goes on
(`HackStack.StackMachine.Program.Loaded.perform_follows`), and so through runs of any length
(`HackStack.StackMachine.Program.Loaded.follows_run`).

A task without a jump is a straight block. For the others there is one lemma for each kind of jump:

* a jump of the source and a call go to the label of a task;
* a comparison goes one of two ways inside its block, and both end behind it;
* a return goes to the word that a call has saved, which is an address because programs fit into the
  instruction memory.
-/

namespace HackStack

open Assembly Statement

namespace StackMachine

namespace Program

/-- **The machine stands where the stack machine stands**: before the block of the same task, with a
memory that agrees. -/
structure Matches (P : Program) (s : State) (m : Machine) : Prop where
  pc : m.pc = P.address s.index
  memory : s.memory.Agrees m.memory

/-- The machine comes to where the stack machine stands. -/
def ComesTo (P : Program) (rom : Rom) (m : Machine) (s : State) : Prop :=
  ∃ cycles m', m.RunsFor rom cycles m' ∧ P.Matches s m'

/-- The machine may run on to where it comes to. -/
theorem ComesTo.trans {P : Program} {rom : Rom} {m m' : Machine} {s : State} {cycles : Nat}
    (hrun : m.RunsFor rom cycles m') (h : P.ComesTo rom m' s) : P.ComesTo rom m s := by
  obtain ⟨more, m'', hmore, hmatches⟩ := h
  exact ⟨_, m'', hrun.trans hmore, hmatches⟩

namespace Loaded

variable {P : Program} {rom : Rom} {sites : List Site} {m : Machine} {c : Core}
  {context context' : Context} {k next : Nat} {seen seen' : Memory}

/-- **A straight block** leads to what stands behind it. -/
theorem comesTo_of_exec {block : Block} (hholds : rom.Holds m.pc block)
    (hexec : m.core.exec rom block = some c) (hnext : m.pc + size block = P.address next)
    (hagrees : seen.Agrees c.memory) : P.ComesTo rom m ⟨next, seen⟩ := by
  have hrun : m.RunsFor rom (size block) (c.at (m.pc + size block) _) :=
    Machine.runsFor_of_exec hholds hexec
  exact ⟨_, _, hrun, hnext, hagrees⟩

/-- **A jump** leads to the task that the stack machine goes on at. -/
theorem comesTo_of_jump {block rest : Block} {comp : Comp} {jump : Jump} (h : P.Loaded rom sites)
    (hholds : rom.Holds m.pc (block ++ branch comp jump :: rest))
    (hexec : m.core.exec rom block = some c) (hcomp : comp.readsMemory = false)
    (htaken : jump.taken (comp.eval c.d c.a) = true) (htarget : c.a = Word.ofNat (P.address next))
    (hagrees : seen.Agrees c.memory) : P.ComesTo rom m ⟨next, seen⟩ := by
  have hrun : m.RunsFor rom (size block + 1) _ := Machine.runsFor_exec_branch hholds hexec hcomp
  refine ⟨_, _, hrun, ?_, hagrees⟩
  rw [if_pos htaken, htarget]
  exact h.toNat_address next

theorem goto_follows {name : String} (h : P.Loaded rom sites)
    (hholds : rom.Holds m.pc (Block.goto context name))
    (hgo : P.command k context.standing (.goto name) seen = (.ok next, seen'))
    (hagrees : seen.Agrees m.memory) : P.ComesTo rom m ⟨next, seen'⟩ := by
  obtain ⟨rfl, hvalue⟩ := h.value?_of_goTo hgo (by simp) (by simp)
  have hexec : m.core.exec rom [symbol (context.userLabel name).render] =
      some ⟨m.memory, Word.ofNat (P.address next), m.d⟩ := Core.exec_symbol hvalue
  exact h.comesTo_of_jump hholds hexec rfl rfl rfl hagrees

theorem ifGoto_follows {name : String} (h : P.Loaded rom sites)
    (hholds : rom.Holds m.pc (Block.ifGoto context name))
    (hnext : m.pc + size (Block.ifGoto context name) = P.address (k + 1))
    (hgo : P.command k context.standing (.ifGoto name) seen = (.ok next, seen'))
    (hagrees : seen.Agrees m.memory) : P.ComesTo rom m ⟨next, seen'⟩ := by
  simp only [command, Step.bind_eq_ok, pop_eq_ok] at hgo
  obtain ⟨_, _, ⟨hsp, rfl, rfl⟩, hgo⟩ := hgo
  rw [← hagrees.topmost hsp] at hgo
  obtain ⟨target, m', hvalue, hruns, hmemory, hpc⟩ :=
    Machine.exists_runsFor_ifGoto hholds (hagrees.below hsp)
  have hpopped : seen.popped.Agrees m'.memory := by
    rw [hmemory]
    exact hagrees.popped
  by_cases hzero : m.memory.topmost = 0
  · rw [if_pos hzero] at hgo hpc
    cases hgo
    exact ⟨_, m', hruns, hpc.trans hnext, hpopped⟩
  · rw [if_neg hzero] at hgo hpc
    obtain ⟨rfl, hlabel⟩ := h.value?_of_goTo hgo (by simp) (by simp)
    have htarget : some target = some (P.address next) := hvalue.symm.trans hlabel
    obtain rfl := Option.some.inj htarget
    exact ⟨_, m', hruns, hpc.trans (h.toNat_address next), hpopped⟩

/-! ### Comparisons -/

/-- **A comparison** leads to what stands behind it, whichever way it takes. -/
theorem comparison_follows {op : Comparison} {standing : Standing} {yes done : Label}
    (h : P.Loaded rom sites)
    (hholds : rom.Holds m.pc (Block.branches (Block.condition op) yes.render done.render))
    (hyes : MemoryMap.predefined? yes.render = none)
    (hdone : MemoryMap.predefined? done.render = none)
    (hnext : m.pc + size (Block.branches (Block.condition op) yes.render done.render) =
      P.address (k + 1))
    (hcompare : P.command k standing (.operate (.comparison op)) seen = (.ok next, seen'))
    (hagrees : seen.Agrees m.memory) : P.ComesTo rom m ⟨next, seen'⟩ := by
  simp only [command, Step.bind_eq_ok, pop_eq_ok, top_eq_ok, replaceTop_eq_ok] at hcompare
  obtain ⟨_, _, ⟨hsp, rfl, rfl⟩, _, _, ⟨hsecond, rfl, rfl⟩, _, _, ⟨-, rfl⟩, hend⟩ := hcompare
  cases hend
  rw [Memory.sp_popped] at hsecond ⊢
  have hbelow : (m.memory.sp - 1 - 1).Addresses := by
    rw [hagrees.sp]
    exact hsecond.1
  have hfits := hnext ▸ h.address_lt (k + 1)
  obtain ⟨cycles, m', hrun, -, hpc, hmemory⟩ :=
    Machine.exists_runsFor_branches hholds hyes hdone hfits (hagrees.below hsp) hbelow
  refine ⟨cycles, m', hrun, hpc.trans hnext, ?_⟩
  rw [hmemory, Memory.compared, taken_condition, hagrees.topmost hsp, hagrees.sp,
    hagrees.popped _ hsecond]
  exact hagrees.popped.write _ _

/-! ### Calls and returns -/

/-- **A call** leads to the function called, with a return address that leads behind the call. -/
theorem call_follows {returnLabel : Label} {name : String} {arguments : Nat}
    (h : P.Loaded rom sites)
    (hholds : rom.Holds m.pc (Block.callReturningTo returnLabel.render name arguments))
    (hreturn : MemoryMap.predefined? returnLabel.render = none)
    (hnext : m.pc + size (Block.callReturningTo returnLabel.render name arguments) =
      P.address (k + 1))
    (hcall : P.call k name arguments seen = (.ok next, seen')) (hagrees : seen.Agrees m.memory) :
    P.ComesTo rom m ⟨next, seen'⟩ := by
  simp only [call, Step.bind_eq_ok, push_eq_ok, load_eq_ok, store_eq_ok] at hcall
  obtain ⟨_, _, ⟨hsp, rfl⟩, _, _, hsave, _, _, ⟨-, rfl, rfl⟩, _, _, ⟨-, rfl⟩, _, _, ⟨-, rfl⟩,
    hgo⟩ := hcall
  obtain ⟨rfl, hname⟩ := h.value?_of_goTo hgo (by simp) (by simp)
  have hpushed := hagrees.pushed (Word.ofNat (P.address (k + 1)))
  obtain ⟨hcanSave, hsaved⟩ := savePointers_agrees hsave hpushed
  have hback : rom.labels[returnLabel.render]? = some (P.address (k + 1)) := by
    rw [← hnext]
    exact hholds.returnLabel_end
  obtain ⟨c, hexec, hmemory, ha⟩ := @Core.exec_call rom m.core returnLabel.render name
    (P.address (k + 1)) (P.address next) arguments (Rom.value?_label hback hreturn) hname
    (hagrees.sp ▸ hsp.1) hcanSave
  rw [Block.callReturningTo_eq] at hholds
  refine h.comesTo_of_jump hholds hexec rfl rfl ha ?_
  rw [hmemory]
  exact hsaved.framed _

/-- **A return** leads behind the call that has saved the return address. -/
theorem ret_follows (h : P.Loaded rom sites) (hholds : rom.Holds m.pc Block.leaveFrame)
    (hret : P.ret seen = (.ok next, seen')) (hagrees : seen.Agrees m.memory) :
    P.ComesTo rom m ⟨next, seen'⟩ := by
  simp only [ret, Step.bind_eq_ok, pop_eq_ok, load_eq_ok, store_eq_ok] at hret
  obtain ⟨_, _, ⟨-, rfl, rfl⟩, _, before, ⟨hframe, rfl, rfl⟩, _, _, ⟨hsp, rfl, rfl⟩, _, _,
    ⟨-, rfl, rfl⟩, _, _, ⟨hargument, rfl⟩, _, _, ⟨-, rfl⟩, _, _, hrestore, hback⟩ := hret
  obtain ⟨rfl, hnext⟩ := goBack_eq_ok hback
  have hlocals : m.memory.read (Word.ofNat 1) = before.read (Word.ofNat 1) :=
    hagrees.pointer .locals
  have hnoted := hagrees.noted
  have hdelivered := hnoted.delivered hsp
  have husable : ∀ {w : Word} {n : Nat}, w.Usable → ¬(Word.ofNat n).Usable → Word.ofNat n ≠ w := by
    rintro w n hw hn rfl
    exact hn hw
  have hcell : m.memory.noted.popped.read (Word.ofNat 2) = before.popped.read (Word.ofNat 2) :=
    hnoted.popped _ (Word.usable_ofNat (by decide))
  -- The stack machine writes cells that can be used, and no scratch cell is one of them.
  have hkept : ∀ n, ¬(Word.ofNat n).Usable →
      m.memory.noted.delivered.read (Word.ofNat n) = m.memory.noted.read (Word.ofNat n) := by
    intro n hn
    refine Memory.read_delivered_of_ne (husable (Word.usable_ofNat (by decide)) hn) ?_
    rw [hcell]
    exact husable hargument hn
  have hscratch : m.memory.noted.delivered.read (Word.ofNat 14) = before.read (Word.ofNat 1) := by
    rw [hkept 14 (by decide), Memory.read_noted_frameBase, hlocals]
  obtain ⟨hcanRestore, hreturned⟩ := restorePointers_agrees hrestore hdelivered hscratch
  have haddress : m.memory.returned.read (Word.ofNat 15) = Word.ofNat (P.address next) := by
    rw [Memory.returned, Memory.unwound, Memory.read_restoreds_of_ne (by decide) (by decide),
      hkept 15 (by decide), Memory.read_noted_returnAddress, hlocals]
    · exact (hagrees _ hframe).trans hnext.symm
    · rw [hlocals]
      exact (husable hframe (by decide)).symm
  have hframe' : (m.memory.read (Word.ofNat 1) - Word.ofNat MemoryMap.frameSize).Addresses := by
    rw [hlocals]
    exact hframe.1
  have hargument' : (m.memory.noted.popped.read (Word.ofNat 2)).Addresses := by
    rw [hcell]
    exact hargument.1
  obtain ⟨block, c, hblock, hexec, hmemory, ha⟩ := @Core.exec_return rom m.core hframe'
    (hnoted.below hsp) hargument' hcanRestore
  rw [hblock] at hholds
  refine h.comesTo_of_jump hholds hexec rfl rfl (ha.trans haddress) ?_
  rw [hmemory]
  exact hreturned

/-- **The start of a program** leads to the entry function. -/
theorem startUp_follows {returnLabel : Label} {stackBase : Nat} {entry : String}
    (h : P.Loaded rom sites)
    (hholds : rom.Holds m.pc
      (Block.setUp stackBase ++ Block.callReturningTo returnLabel.render entry 0))
    (hreturn : MemoryMap.predefined? returnLabel.render = none)
    (hnext : m.pc + size (Block.setUp stackBase ++
      Block.callReturningTo returnLabel.render entry 0) = P.address (k + 1))
    (hperform : P.perform k context.standing (.startUp stackBase entry) seen = (.ok next, seen'))
    (hagrees : seen.Agrees m.memory) : P.ComesTo rom m ⟨next, seen'⟩ := by
  simp only [perform, Step.bind_eq_ok, store_eq_ok] at hperform
  obtain ⟨_, _, ⟨-, rfl⟩, hcall⟩ := hperform
  have hrun : m.RunsFor rom (size (Block.setUp stackBase)) (Core.at _ _ _) :=
    Machine.runsFor_of_exec hholds.left (@Core.exec_setUp rom m.core stackBase)
  rw [size_append, ← Nat.add_assoc] at hnext
  exact ComesTo.trans hrun
    (h.call_follows hholds.right hreturn hnext hcall (hagrees.write _ _))

/-! ### Tasks -/

/-- **The machine follows the stack machine through a task.** -/
theorem perform_follows {site : Site} (h : P.Loaded rom sites) (hsite : sites[k]? = some site)
    (hpc : m.pc = P.address k) (hagrees : seen.Agrees m.memory)
    (hperform : P.perform k site.context.standing site.task seen = (.ok next, seen')) :
    P.ComesTo rom m ⟨next, seen'⟩ := by
  have hmem := List.mem_of_getElem? hsite
  obtain ⟨hholds, hnext⟩ := h.places k site hsite
  rw [← h.address, ← hpc] at hholds hnext
  obtain ⟨context', hlowers⟩ := h.lowers site hmem
  have hlabel := h.label site hmem
  have hstatic := h.static site hmem
  obtain ⟨context, task, block⟩ := site
  dsimp only at hlowers
  -- Straight blocks are done alike, once it is known what they do.
  have straight : (next = k + 1 ∧ ∃ c, m.core.exec rom block = some c ∧ seen'.Agrees c.memory) →
      P.ComesTo rom m ⟨next, seen'⟩ := by
    rintro ⟨rfl, c, hexec, hafter⟩
    exact comesTo_of_exec hholds hexec hnext.symm hafter
  cases hlowers with
  | startUp hbase hlowers =>
    cases hlowers with
    | call hreach hfree =>
      exact h.startUp_follows hholds (hlabel _ List.mem_cons_self) hnext.symm hperform hagrees
  | @written command _ _ hlowers =>
    have hcommand : P.command k context.standing command seen = (.ok next, seen') := hperform
    cases hlowers with
    | push htarget =>
      refine straight (push_agrees htarget hcommand ?_ hagrees)
      rintro rfl
      exact hstatic
    | pop htarget hblock =>
      refine straight (pop_agrees htarget hblock hcommand ?_ hagrees)
      rintro rfl
      exact hstatic
    | unary op => exact straight (unary_agrees hcommand hagrees)
    | binary op => exact straight (binary_agrees hcommand hagrees)
    | comparison op hholdsFree hdoneFree =>
      exact h.comparison_follows hholds (hlabel _ List.mem_cons_self)
        (hlabel _ (List.mem_cons_of_mem _ List.mem_cons_self)) hnext.symm hcommand hagrees
    | label hfree =>
      have hnothing : (Except.ok (k + 1), seen) = (Except.ok next, seen') := hcommand
      cases hnothing
      exact straight ⟨rfl, m.core, rfl, hagrees⟩
    | goto target => exact h.goto_follows hholds hcommand hagrees
    | ifGoto target => exact h.ifGoto_follows hholds hnext.symm hcommand hagrees
    | function hfree =>
      simp only [Program.command, Step.bind_eq_ok] at hcommand
      obtain ⟨_, _, hzeros, hend⟩ := hcommand
      cases hend
      obtain ⟨haddresses, hafter⟩ := pushZeros_agrees hzeros hagrees
      obtain ⟨c, hexec, hmemory⟩ := @Core.exec_zeros rom m.core _ haddresses
      refine straight ⟨rfl, c, hexec, ?_⟩
      rw [hmemory]
      exact hafter
    | call hreach hfree =>
      exact h.call_follows hholds (hlabel _ List.mem_cons_self) hnext.symm hcommand hagrees
    | ret hscope => exact h.ret_follows hholds hcommand hagrees

/-! ### Runs -/

variable {s s' : State}

/-- **The machine follows the stack machine through a step.** -/
theorem follows_step (h : P.Loaded rom sites) (hstep : P.Steps s s') (hmatches : P.Matches s m) :
    P.ComesTo rom m s' := by
  obtain ⟨standing, task, htask, hperform⟩ := hstep
  obtain ⟨site, hsite, rfl, rfl⟩ := h.exists_site htask
  exact h.perform_follows hsite hmatches.pc hmatches.memory hperform

/-- **The machine follows the stack machine through a run.** -/
theorem follows_run {n : Nat} (h : P.Loaded rom sites) (hrun : P.RunsFor n s s')
    (hmatches : P.Matches s m) : P.ComesTo rom m s' := by
  induction hrun generalizing m with
  | zero s => exact ⟨0, m, .zero m, hmatches⟩
  | succ hstep hrun ih =>
    obtain ⟨cycles, m', hcycles, hbetween⟩ := h.follows_step hstep hmatches
    exact ComesTo.trans hcycles (ih hbetween)

/-- **The machine halts where the stack machine does.** -/
theorem step_of_halted (h : P.Loaded rom sites) (hhalted : P.Halted s) (hmatches : P.Matches s m) :
    m.step rom = (m, .halted) := by
  have hend : m.pc = rom.code.size := by
    rw [Halted, h.tasks, List.length_map] at hhalted
    rw [hmatches.pc, h.address, Rom.address, List.drop_eq_nil_of_le hhalted]
    rfl
  exact Machine.step_eq_halted_iff.mpr ⟨rfl, hend.ge⟩

end Loaded

end Program

end StackMachine

end HackStack
