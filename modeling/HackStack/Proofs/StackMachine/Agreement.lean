import HackStack.Proofs.Block.Exec
import HackStack.Proofs.StackMachine.Semantics

/-!
# Memories that agree

The stack machine does not see the scratch cells, and the code of its commands writes there as it
pleases. So the two memories agree only outside these cells (`HackStack.Memory.Agrees`).

What the stack machine does to its memory and what a block does to the other one are written down
separately, and this file compares them action by action: where an action succeeds, the part of the
block that stands for it does not fault, both find the same word, and the memories still agree.
-/

namespace HackStack

open StackMachine

/-- The cells below the scratch cells are usable. -/
theorem Word.usable_ofNat {n : Nat} (h : n < 13) : (ofNat n).Usable := by
  refine ⟨addresses_ofNat (by omega), fun hscratch => ?_⟩
  rw [toNat_ofNat (by omega)] at hscratch
  omega

theorem Pointer.usable_cell (p : Pointer) : (Word.ofNat p.cell).Usable :=
  Word.usable_ofNat (Nat.lt_trans p.cell_bounds.2 (by decide))

namespace Memory

/-- **Two memories agree** outside the scratch cells. -/
def Agrees (seen memory : Memory) : Prop := ∀ w : Word, w.Usable → memory.read w = seen.read w

namespace Agrees

variable {seen memory : Memory} {w v : Word}

/-- Memories still agree after the same write. -/
theorem write (h : seen.Agrees memory) (w v : Word) :
    (seen.write w v).Agrees (memory.write w v) := by
  intro w' hw'
  by_cases he : w = w'
  · subst he
    rw [read_write_self hw'.1, read_write_self hw'.1]
  · rw [read_write_of_ne he, read_write_of_ne he]
    exact h w' hw'

/-- Scratch cells may be written. -/
theorem scratch (h : seen.Agrees memory) (hw : ¬w.Usable) (v : Word) :
    seen.Agrees (memory.write w v) := by
  intro w' hw'
  have hne : w ≠ w' := by
    rintro rfl
    exact hw hw'
  rw [read_write_of_ne hne]
  exact h w' hw'

theorem sp (h : seen.Agrees memory) : memory.sp = seen.sp := h _ (Word.usable_ofNat (by decide))

theorem pointer (h : seen.Agrees memory) (p : Pointer) :
    memory.read (Word.ofNat p.cell) = seen.read (Word.ofNat p.cell) :=
  h _ (Pointer.usable_cell p)

end Agrees

end Memory

namespace StackMachine

variable {seen seen' memory : Memory} {w v : Word} {u : Unit}

/-! ### Single words -/

theorem load_eq_ok : load w seen = (.ok v, seen') ↔ w.Usable ∧ v = seen.read w ∧ seen' = seen := by
  rw [load]
  split
  next h =>
    refine ⟨fun he => ?_, fun ⟨_, hv, hs⟩ => by rw [hv, hs]⟩
    cases he
    exact ⟨h, rfl, rfl⟩
  next h => exact ⟨fun he => (by cases he), fun ⟨hu, _⟩ => absurd hu h⟩

theorem store_eq_ok : store w v seen = (.ok u, seen') ↔ w.Usable ∧ seen' = seen.write w v := by
  rw [store]
  split
  next h =>
    refine ⟨fun he => ?_, fun ⟨_, hs⟩ => by rw [hs]⟩
    cases he
    exact ⟨h, rfl⟩
  next h => exact ⟨fun he => (by cases he), fun ⟨hu, _⟩ => absurd hu h⟩

/-- **What a push does.** -/
theorem push_eq_ok : push v seen = (.ok u, seen') ↔ seen.sp.Usable ∧ seen' = seen.pushed v := by
  have hzero : (Word.ofNat 0).Usable := Word.usable_ofNat (by decide)
  simp only [push, Step.bind_eq_ok, load_eq_ok, store_eq_ok]
  constructor
  · rintro ⟨_, _, ⟨-, rfl, rfl⟩, _, _, ⟨hsp, rfl⟩, _, _, ⟨-, rfl, rfl⟩, -, rfl⟩
    exact ⟨hsp, rfl⟩
  · rintro ⟨hsp, rfl⟩
    exact ⟨_, _, ⟨hzero, rfl, rfl⟩, ⟨⟩, _, ⟨hsp, rfl⟩, _, _, ⟨hzero, rfl, rfl⟩, hzero, rfl⟩

/-- **What a pop does.** -/
theorem pop_eq_ok :
    pop seen = (.ok v, seen') ↔
      (seen.sp - 1).Usable ∧ v = seen.topmost ∧ seen' = seen.popped := by
  have hzero : (Word.ofNat 0).Usable := Word.usable_ofNat (by decide)
  simp only [pop, Step.bind_eq_ok, load_eq_ok, store_eq_ok]
  constructor
  · rintro ⟨_, _, ⟨-, rfl, rfl⟩, _, _, ⟨-, rfl⟩, hsp, rfl, rfl⟩
    exact ⟨hsp, rfl, rfl⟩
  · rintro ⟨hsp, rfl, rfl⟩
    exact ⟨_, _, ⟨hzero, rfl, rfl⟩, ⟨⟩, _, ⟨hzero, rfl⟩, hsp, rfl, rfl⟩

theorem top_eq_ok :
    top seen = (.ok v, seen') ↔
      (seen.sp - 1).Usable ∧ v = seen.read (seen.sp - 1) ∧ seen' = seen := by
  have hzero : (Word.ofNat 0).Usable := Word.usable_ofNat (by decide)
  simp only [top, Step.bind_eq_ok, load_eq_ok]
  constructor
  · rintro ⟨_, _, ⟨-, rfl, rfl⟩, hsp, rfl, rfl⟩
    exact ⟨hsp, rfl, rfl⟩
  · rintro ⟨hsp, rfl, rfl⟩
    exact ⟨_, _, ⟨hzero, rfl, rfl⟩, hsp, rfl, rfl⟩

theorem replaceTop_eq_ok :
    replaceTop v seen = (.ok u, seen') ↔
      (seen.sp - 1).Usable ∧ seen' = seen.write (seen.sp - 1) v := by
  have hzero : (Word.ofNat 0).Usable := Word.usable_ofNat (by decide)
  simp only [replaceTop, Step.bind_eq_ok, load_eq_ok, store_eq_ok]
  constructor
  · rintro ⟨_, _, ⟨-, rfl, rfl⟩, hsp, rfl⟩
    exact ⟨hsp, rfl⟩
  · rintro ⟨hsp, rfl⟩
    exact ⟨_, _, ⟨hzero, rfl, rfl⟩, hsp, rfl⟩

end StackMachine

namespace Memory.Agrees

variable {seen memory : Memory} {v : Word}

theorem pushed (h : seen.Agrees memory) (v : Word) :
    (seen.pushed v).Agrees (memory.pushed v) := by
  have hstored := h.write seen.sp v
  rw [Memory.pushed, Memory.pushed, h.sp, hstored.sp]
  exact hstored.write _ _

theorem popped (h : seen.Agrees memory) : seen.popped.Agrees memory.popped := by
  rw [Memory.popped, Memory.popped, h.sp]
  exact h.write _ _

theorem topmost (h : seen.Agrees memory) (hsp : (seen.sp - 1).Usable) :
    memory.topmost = seen.topmost := by
  rw [Memory.topmost, Memory.topmost, h.sp]
  exact h.popped _ hsp

theorem framed (h : seen.Agrees memory) (distance : Nat) :
    ((seen.write (Word.ofNat 2) (seen.sp - Word.ofNat distance)).write (Word.ofNat 1)
      seen.sp).Agrees (memory.framed distance) := by
  have hsp : (memory.write (Word.ofNat 2) (memory.sp - Word.ofNat distance)).sp = memory.sp :=
    read_write_of_ne (by decide)
  simp only [Memory.framed, hsp]
  rw [h.sp]
  exact (h.write _ _).write _ _

/-- The scratch cells of a return are not seen. -/
theorem noted (h : seen.Agrees memory) : seen.Agrees memory.noted :=
  (h.scratch (by decide) _).scratch (by decide) _

theorem delivered (h : seen.Agrees memory) (hsp : (seen.sp - 1).Usable) :
    ((seen.popped.write (seen.popped.read (Word.ofNat 2)) seen.topmost).write (Word.ofNat 0)
      (seen.popped.read (Word.ofNat 2) + 1)).Agrees memory.delivered := by
  have hargument : memory.popped.read (Word.ofNat 2) = seen.popped.read (Word.ofNat 2) :=
    h.popped _ (Word.usable_ofNat (by decide))
  simp only [Memory.delivered, hargument, h.topmost hsp]
  exact (h.popped.write _ _).write _ _

/-- The word below the stack pointer is in the memory where the stack machine can use it. -/
theorem below (h : seen.Agrees memory) (hsp : (seen.sp - 1).Usable) :
    (memory.sp - 1).Addresses := by
  rw [h.sp]
  exact hsp.1

end Memory.Agrees

namespace StackMachine

variable {seen seen' memory : Memory} {u : Unit}

/-! ### Lists of words -/

/-- Zeros are pushed alike. -/
theorem pushZeros_agrees {count : Nat} (h : pushZeros count seen = (.ok u, seen'))
    (hagrees : seen.Agrees memory) :
    (∀ i < count, (memory.zeroed i).sp.Addresses) ∧ seen'.Agrees (memory.zeroed count) := by
  induction count generalizing seen memory with
  | zero =>
    cases h
    exact ⟨fun i hi => absurd hi (Nat.not_lt_zero i), hagrees⟩
  | succ count ih =>
    rw [pushZeros, Step.bind_eq_ok] at h
    obtain ⟨_, _, hpush, hrest⟩ := h
    obtain ⟨hsp, rfl⟩ := push_eq_ok.mp hpush
    obtain ⟨haddresses, hafter⟩ := ih hrest (hagrees.pushed 0)
    refine ⟨fun i hi => ?_, hafter⟩
    cases i with
    | zero =>
      change memory.sp.Addresses
      rw [hagrees.sp]
      exact hsp.1
    | succ i => exact haddresses i (by omega)

/-- Pointers are pushed alike. -/
theorem savePointers_agrees {pointers : List Pointer}
    (h : savePointers pointers seen = (.ok u, seen')) (hagrees : seen.Agrees memory) :
    Memory.CanSave pointers memory ∧ seen'.Agrees (memory.saved pointers) := by
  induction pointers generalizing seen memory with
  | nil =>
    cases h
    exact ⟨trivial, hagrees⟩
  | cons p rest ih =>
    simp only [savePointers, Step.bind_eq_ok, load_eq_ok, push_eq_ok] at h
    obtain ⟨_, _, ⟨-, rfl, rfl⟩, _, _, ⟨hsp, rfl⟩, hrest⟩ := h
    have hpushed := hagrees.pushed (memory.read (Word.ofNat p.cell))
    rw [hagrees.pointer p] at hpushed
    obtain ⟨hsave, hafter⟩ := ih hrest hpushed
    rw [Memory.CanSave, Memory.saved, hagrees.pointer p, hagrees.sp]
    exact ⟨⟨hsp.1, hsave⟩, hafter⟩

/-- **A pointer is restored alike**, and the scratch cell goes down the saved words with it. -/
theorem restore_agrees {frame : Word} {p : Pointer} {rest : List Pointer}
    (h : restorePointers frame (p :: rest) seen = (.ok u, seen')) (hagrees : seen.Agrees memory)
    (hscratch : memory.read (Word.ofNat 14) - 1 = frame - Word.ofNat p.frameOffset) :
    ∃ between, restorePointers frame rest between = (.ok u, seen') ∧
      (memory.read (Word.ofNat 14) - 1).Addresses ∧ between.Agrees (memory.restored p) ∧
      (memory.restored p).read (Word.ofNat 14) = frame - Word.ofNat p.frameOffset := by
  simp only [restorePointers, Step.bind_eq_ok, load_eq_ok, store_eq_ok] at h
  obtain ⟨_, _, ⟨hbelow, rfl, rfl⟩, _, _, ⟨-, rfl⟩, hrest⟩ := h
  have hnoted := hagrees.scratch (w := Word.ofNat 14) (by decide)
    (frame - Word.ofNat p.frameOffset)
  have hcell := p.cell_bounds
  have hne : Word.ofNat p.cell ≠ Word.ofNat 14 := Word.ofNat_ne (by omega)
  refine ⟨_, hrest, ?_, ?_, ?_⟩
  · rw [hscratch]
    exact hbelow.1
  · simp only [Memory.restored, hscratch, hnoted _ hbelow]
    exact hnoted.write _ _
  · simp only [Memory.restored, hscratch]
    rw [Memory.read_write_of_ne hne, Memory.read_write_self (Word.addresses_ofNat (by decide))]

/-- **All pointers are restored alike.** -/
theorem restorePointers_agrees {frame : Word}
    (h : restorePointers frame Pointer.restored seen = (.ok u, seen'))
    (hagrees : seen.Agrees memory)
    (hscratch : memory.read (Word.ofNat 14) = frame) :
    Memory.CanRestore Pointer.restored memory ∧ seen'.Agrees memory.unwound := by
  have hdown : ∀ n : Nat, n < 4 → frame - Word.ofNat n - 1 = frame - Word.ofNat (n + 1) := by
    intro n hn
    bv_omega
  obtain ⟨_, h, hthat, hagrees, hscratch⟩ := restore_agrees h hagrees (by rw [hscratch]; rfl)
  obtain ⟨_, h, hthis, hagrees, hscratch⟩ :=
    restore_agrees h hagrees (by rw [hscratch]; exact hdown 1 (by decide))
  obtain ⟨_, h, harguments, hagrees, hscratch⟩ :=
    restore_agrees h hagrees (by rw [hscratch]; exact hdown 2 (by decide))
  obtain ⟨_, h, hlocals, hagrees, hscratch⟩ :=
    restore_agrees h hagrees (by rw [hscratch]; exact hdown 3 (by decide))
  cases h
  exact ⟨⟨hthat, hthis, harguments, hlocals, trivial⟩, hagrees⟩

end StackMachine

end HackStack
