import HackStack.Proofs.StackMachine.Agreement
import HackStack.Proofs.StackMachine.Loading

/-!
# Straight commands

Where the stack machine performs a command without a jump, the block of the command does the same to
a memory that agrees: `HackStack.StackMachine.Program.push_agrees` and
`HackStack.StackMachine.Program.pop_agrees` for the segments, and
`HackStack.StackMachine.Program.unary_agrees` and `HackStack.StackMachine.Program.binary_agrees` for
the operators. All are computed with `HackStack.Core.exec`.

What a segment and an index denote is found twice, by the translation and by the stack machine;
`HackStack.StackMachine.Program.locate_agrees` says that they find the same. The jumps of a program
are found twice as well, and `HackStack.StackMachine.Program.Loaded.value?_of_goTo` says that the
symbol of a label stands for the task at which the stack machine goes on.
-/

namespace HackStack

open Assembly Statement

/-- A task that is jumped to or called begins with its label. -/
theorem Block.Lowers.head_label {context context' : Context} {c : Command} {block : Block}
    {label : Label} (h : Lowers context c block context')
    (hlabel : label ∈ context.standing.labels c)
    (hreturn : ∀ scope ordinal, label ≠ .returnTo scope ordinal)
    (hcompare : ∀ ordinal branch, label ≠ .compare ordinal branch) :
    ∃ rest, block = .label label.render :: rest := by
  cases h with
  | comparison op hholds hdone =>
    rcases List.mem_cons.mp hlabel with rfl | hlabel
    · exact absurd rfl (hcompare _ _)
    · exact absurd (List.mem_singleton.mp hlabel) (hcompare _ _)
  | label h =>
    obtain rfl := List.mem_singleton.mp hlabel
    exact ⟨[], rfl⟩
  | function h =>
    obtain rfl := List.mem_singleton.mp hlabel
    exact ⟨_, rfl⟩
  | call hreach h => exact absurd (List.mem_singleton.mp hlabel) (hreturn _ _)
  | _ => exact absurd hlabel List.not_mem_nil

namespace StackMachine

namespace Program

variable {P : Program} {rom : Rom} {sites : List Site} {seen seen' : Memory}

/-! ### Where a program goes on -/

theorem goTo_eq_ok {label : Label} {next : Nat} (h : P.goTo label seen = (.ok next, seen')) :
    seen' = seen ∧ ∃ s task, P.tasks[next]? = some (s, task) ∧ label ∈ s.labels task.command := by
  rw [goTo] at h
  generalize hfind : P.tasks.findIdx? _ = found at h
  cases found with
  | none => cases h
  | some index =>
    cases h
    obtain ⟨hlt, hlabel, -⟩ := List.findIdx?_eq_some_iff_getElem.mp hfind
    exact ⟨rfl, _, _, List.getElem?_eq_getElem hlt, by simpa using hlabel⟩

theorem goBack_eq_ok {back : Word} {next : Nat} (h : P.goBack back seen = (.ok next, seen')) :
    seen' = seen ∧ Word.ofNat (P.address next) = back := by
  cases hfind : (List.range P.tasks.length).find? fun k => P.Saves back k with
  | none =>
    rw [goBack, hfind] at h
    cases h
  | some k =>
    rw [goBack, hfind] at h
    cases h
    have hsaves : P.Saves back k := by simpa using List.find?_some hfind
    exact ⟨rfl, hsaves.2⟩

namespace Loaded

/-- **The symbol of a label** stands for the address of the task that begins with it. -/
theorem value?_of_goTo (h : P.Loaded rom sites) {label : Label} {next : Nat}
    (hgo : P.goTo label seen = (.ok next, seen'))
    (hreturn : ∀ scope ordinal, label ≠ .returnTo scope ordinal)
    (hcompare : ∀ ordinal branch, label ≠ .compare ordinal branch) :
    seen' = seen ∧ rom.value? label.render = some (P.address next) := by
  obtain ⟨hsame, s, task, htask, hlabel⟩ := goTo_eq_ok hgo
  obtain ⟨site, hsite, rfl, rfl⟩ := h.exists_site htask
  have hmem := List.mem_of_getElem? hsite
  refine ⟨hsame, Rom.value?_label ?_ (h.label site hmem label hlabel)⟩
  have hholds := (h.places next site hsite).holds
  obtain ⟨context', hlowers⟩ := h.lowers site hmem
  rw [h.address]
  obtain ⟨context, task, block⟩ := site
  cases hlowers with
  | startUp hbase hlowers => exact absurd (List.mem_singleton.mp hlabel) (hreturn _ _)
  | written hlowers =>
    obtain ⟨rest, rfl⟩ := hlowers.head_label hlabel hreturn hcompare
    exact hholds.head_label

end Loaded

/-! ### Straight blocks -/

variable {rom : Rom} {c : Core} {context : Context} {segment : Segment} {index : Nat}

/-- **What a target denotes** in a memory. -/
def Denotes (rom : Rom) (memory : Memory) : Block.Target → Word → Prop
  | .immediate _, _ => False
  | .direct operand, w => ∃ n, operand.value? rom = some n ∧ w = Word.ofNat n
  | .indirect p offset, w => w = memory.read (Word.ofNat p.cell) + Word.ofNat offset

/-- The symbols of static variables stand for their cells. -/
def KnowsStatic (P : Program) (rom : Rom) (s : Standing) (segment : Segment) (index : Nat) : Prop :=
  segment = .static → ∀ name, s.static? index = some name → rom.value? name = P.cell? name

/-- What an index into the static variables denotes. -/
theorem target_static {denoted : Block.Target}
    (h : Block.target context .static index = .ok denoted) :
    ∃ name, context.standing.static? index = some name ∧ denoted = .direct (.symbol name) := by
  cases Block.target_eq_ok_iff.mp h with
  | static hspace =>
    refine ⟨_, ?_, rfl⟩
    rw [Standing.static?, Context.standing, hspace]
    rfl

/-- **Segments and indices denote the same cells** for both machines. -/
theorem locate_agrees {denoted : Block.Target} {w : Word} {memory : Memory}
    (htarget : Block.target context segment index = .ok denoted)
    (h : P.locate context.standing index segment seen = (.ok w, seen'))
    (hstatic : P.KnowsStatic rom context.standing segment index) (hagrees : seen.Agrees memory) :
    seen' = seen ∧ Denotes rom memory denoted w := by
  cases Block.target_eq_ok_iff.mp htarget with
  | constant => cases h
  | based p =>
    simp only [locate, Step.bind_eq_ok, load_eq_ok] at h
    obtain ⟨_, _, ⟨-, rfl, rfl⟩, hw⟩ := h
    cases hw
    exact ⟨rfl, by rw [Denotes, hagrees.pointer p]⟩
  | temp =>
    cases h
    exact ⟨rfl, _, rfl, rfl⟩
  | this | that =>
    cases h
    exact ⟨rfl, _, Rom.value?_pointer _, rfl⟩
  | static =>
    obtain ⟨name, hname, hdenoted⟩ := target_static htarget
    rw [locate, hname, Option.bind_some, ← hstatic rfl _ hname] at h
    rw [hdenoted]
    cases hcell : rom.value? name with
    | none =>
      rw [hcell] at h
      cases h
    | some cell =>
      rw [hcell] at h
      cases h
      exact ⟨rfl, cell, hcell, rfl⟩

/-- **A target is fetched** as the stack machine fetches it. -/
theorem fetch_agrees {denoted : Block.Target} {v : Word}
    (htarget : Block.target context segment index = .ok denoted)
    (h : P.fetch context.standing index segment seen = (.ok v, seen'))
    (hstatic : P.KnowsStatic rom context.standing segment index) (hagrees : seen.Agrees c.memory) :
    seen' = seen ∧ ∃ a, c.exec rom (Block.fetch denoted) = some ⟨c.memory, a, v⟩ := by
  by_cases hconstant : segment = .constant
  · subst hconstant
    cases Block.target_eq_ok_iff.mp htarget
    cases h
    exact ⟨rfl, _, Core.exec_fetch_immediate index⟩
  · have hload : P.fetch context.standing index segment =
        P.locate context.standing index segment >>= load := by
      cases segment <;> first | rfl | exact absurd rfl hconstant
    rw [hload, Step.bind_eq_ok] at h
    obtain ⟨w, _, hlocate, hload⟩ := h
    obtain ⟨rfl, hdenotes⟩ := locate_agrees htarget hlocate hstatic hagrees
    obtain ⟨husable, rfl, rfl⟩ := load_eq_ok.mp hload
    refine ⟨rfl, w, ?_⟩
    rw [← hagrees w husable]
    cases denoted with
    | immediate value => exact absurd hdenotes id
    | direct operand =>
      obtain ⟨n, hvalue, rfl⟩ := hdenotes
      exact Core.exec_fetch_direct hvalue husable.1
    | indirect p offset =>
      cases hdenotes
      exact Core.exec_fetch_indirect husable.1

/-- **A word is pushed** as the stack machine pushes it. -/
theorem push_agrees {denoted : Block.Target} {k next : Nat}
    (htarget : Block.target context segment index = .ok denoted)
    (h : P.command k context.standing (.push segment index) seen = (.ok next, seen'))
    (hstatic : P.KnowsStatic rom context.standing segment index) (hagrees : seen.Agrees c.memory) :
    next = k + 1 ∧ ∃ c', c.exec rom (Block.fetch denoted ++ Block.pushD) = some c' ∧
      seen'.Agrees c'.memory := by
  simp only [command, Step.bind_eq_ok, push_eq_ok] at h
  obtain ⟨v, _, hfetch, _, _, ⟨hsp, rfl⟩, hnext⟩ := h
  cases hnext
  obtain ⟨rfl, a, hexec⟩ := fetch_agrees htarget hfetch hstatic hagrees
  have hsp' : c.memory.sp.Addresses := hagrees.sp ▸ hsp.1
  have hpush := @Core.exec_pushD rom ⟨c.memory, a, v⟩ hsp'
  exact ⟨rfl, _, (Core.exec_of_exec hexec).trans hpush, hagrees.pushed v⟩

/-- **A word is popped** as the stack machine pops it. -/
theorem pop_agrees {denoted : Block.Target} {block : Block} {k next : Nat}
    (htarget : Block.target context segment index = .ok denoted)
    (hblock : Block.popTo denoted = .ok block)
    (h : P.command k context.standing (.pop segment index) seen = (.ok next, seen'))
    (hstatic : P.KnowsStatic rom context.standing segment index) (hagrees : seen.Agrees c.memory) :
    next = k + 1 ∧ ∃ c', c.exec rom block = some c' ∧ seen'.Agrees c'.memory := by
  simp only [command, Step.bind_eq_ok, pop_eq_ok, store_eq_ok] at h
  obtain ⟨w, between, hlocate, _, _, ⟨hsp, rfl, rfl⟩, _, _, ⟨husable, rfl⟩, hnext⟩ := h
  cases hnext
  obtain ⟨rfl, hdenotes⟩ := locate_agrees htarget hlocate hstatic hagrees
  refine ⟨rfl, ?_⟩
  cases denoted with
  | immediate value => exact absurd hdenotes id
  | direct operand =>
    obtain ⟨n, hvalue, rfl⟩ := hdenotes
    cases hblock
    refine ⟨_, Core.exec_popTo_direct hvalue husable.1 (hagrees.below hsp), ?_⟩
    rw [← hagrees.topmost hsp]
    exact hagrees.popped.write _ _
  | indirect p offset =>
    cases hblock
    -- The address is put into a scratch cell first, where popping does not reach it.
    have haimed : between.Agrees (c.memory.aimed p offset) := hagrees.scratch (by decide) _
    have hscratch : (c.memory.aimed p offset).popped.read (Word.ofNat 13) = w := by
      rw [Memory.popped, Memory.read_write_of_ne (by decide), Memory.aimed,
        Memory.read_write_self (Word.addresses_ofNat (by decide)), hdenotes]
    obtain ⟨c', hexec, hmemory⟩ := @Core.exec_popTo_indirect rom c p offset (haimed.below hsp)
      (by rw [hscratch]; exact husable.1)
    refine ⟨c', hexec, ?_⟩
    rw [hmemory, Memory.hit, hscratch, haimed.topmost hsp]
    exact haimed.popped.write _ _

/-! ### Operators -/

/-- An operator on one word computes what it means. -/
theorem eval_unaryComp (op : Unary) (d x : Word) :
    (Block.unaryComp op).readsMemory = true ∧ (Block.unaryComp op).eval d x = unary op x := by
  cases op <;> exact ⟨rfl, rfl⟩

/-- An operator on two words computes what it means. -/
theorem eval_binaryComp (op : Binary) (x y : Word) :
    (Block.binaryComp op).readsMemory = true ∧ (Block.binaryComp op).eval y x = binary op x y := by
  cases op with
  | add => exact ⟨rfl, BitVec.add_comm y x⟩
  | sub => exact ⟨rfl, rfl⟩
  | and => exact ⟨rfl, BitVec.and_comm y x⟩
  | or => exact ⟨rfl, BitVec.or_comm y x⟩

/-- A comparison branches on what it means. -/
theorem taken_condition (op : Comparison) (difference : Word) :
    (Block.condition op).taken difference = holds op difference := by
  cases op <;> rfl

theorem unary_agrees {op : Unary} {k next : Nat}
    (h : P.command k context.standing (.operate (.unary op)) seen = (.ok next, seen'))
    (hagrees : seen.Agrees c.memory) :
    next = k + 1 ∧ ∃ c', c.exec rom (Block.top ++ [Statement.assign .m (Block.unaryComp op)]) =
      some c' ∧ seen'.Agrees c'.memory := by
  simp only [command, Step.bind_eq_ok, top_eq_ok, replaceTop_eq_ok] at h
  obtain ⟨_, _, ⟨hsp, rfl, rfl⟩, _, _, ⟨-, rfl⟩, hnext⟩ := h
  cases hnext
  refine ⟨rfl, _, Core.exec_unary (hagrees.below hsp) (eval_unaryComp op 0 0).1, ?_⟩
  change Memory.Agrees _ (Memory.write _ _ _)
  rw [(eval_unaryComp op _ _).2, hagrees.sp, hagrees _ hsp]
  exact hagrees.write _ _

theorem binary_agrees {op : Binary} {k next : Nat}
    (h : P.command k context.standing (.operate (.binary op)) seen = (.ok next, seen'))
    (hagrees : seen.Agrees c.memory) :
    next = k + 1 ∧
      ∃ c', c.exec rom (Block.popThenTop ++ [Statement.assign .m (Block.binaryComp op)]) =
        some c' ∧ seen'.Agrees c'.memory := by
  simp only [command, Step.bind_eq_ok, pop_eq_ok, top_eq_ok, replaceTop_eq_ok] at h
  obtain ⟨_, _, ⟨hsp, rfl, rfl⟩, _, _, ⟨hsecond, rfl, rfl⟩, _, _, ⟨-, rfl⟩, hnext⟩ := h
  cases hnext
  refine ⟨rfl, ?_⟩
  simp only [Memory.sp_popped] at hsecond ⊢
  have hsecond' : (c.memory.sp - 1 - 1).Addresses := by
    rw [hagrees.sp]
    exact hsecond.1
  refine ⟨_, Core.exec_binary (hagrees.below hsp) hsecond' (eval_binaryComp op 0 0).1, ?_⟩
  change Memory.Agrees _ (Memory.write _ _ _)
  rw [(eval_binaryComp op _ _).2, hagrees.sp, hagrees.popped _ hsecond, hagrees.topmost hsp]
  exact hagrees.popped.write _ _

end Program

end StackMachine

end HackStack
