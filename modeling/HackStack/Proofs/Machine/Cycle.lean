import HackStack.Proofs.Machine.Memory

/-!
# One cycle

A cycle of the machine goes one of four ways (`HackStack.Machine.Way`): it finds no instruction, it
loads a number, it executes a compute instruction, or it comes to one that faults. What is said here
about every cycle is found by looking at each of them.

* A cycle halts behind the last instruction and nowhere else
  (`HackStack.Machine.step_eq_halted_iff`).
* Every cycle that finds an instruction is counted, whether it executes the instruction
  (`HackStack.Machine.steps_of_ran`) or faults (`HackStack.Machine.steps_of_fault`).
-/

namespace HackStack

open Assembly

namespace Machine

/-- **The ways of a cycle**: the machine that it leads to, and what became of it. -/
inductive Way (rom : Rom) (m : Machine) : Machine × Cycle → Prop
  /-- The program counter is behind the last instruction. -/
  | halted (hend : rom.code.size ≤ m.pc) : Way rom m (m, .halted)
  /-- A number was loaded. -/
  | load {value : Nat} (hop : rom.code[m.pc]? = some (.load value)) :
      Way rom m
        ({ m with a := BitVec.ofNat 16 value, pc := m.pc + 1, steps := m.steps + 1 }, .ran)
  /-- A compute instruction was executed. -/
  | compute {fields : Compute} (hop : rom.code[m.pc]? = some (.compute fields))
      (hreaches : fields.usesMemory = true → m.a.Addresses) :
      Way rom m (Machine.compute fields { m with steps := m.steps + 1 }, .ran)
  /-- A compute instruction needs the memory while A is negative. -/
  | fault {fields : Compute} (hop : rom.code[m.pc]? = some (.compute fields))
      (huses : fields.usesMemory = true) (hnegative : ¬m.a.Addresses) :
      Way rom m ({ m with steps := m.steps + 1 }, .fault m.a m.pc)

variable {rom : Rom} {m m' : Machine}

/-- **Every cycle goes one of these ways.** -/
theorem way (rom : Rom) (m : Machine) : m.Way rom (m.step rom) := by
  rw [step]
  cases hop : rom.code[m.pc]? with
  | none => exact .halted (Array.getElem?_eq_none_iff.mp hop)
  | some op =>
    cases op with
    | load value => exact .load hop
    | compute fields =>
      simp only [execute]
      split
      next hfault =>
        obtain ⟨huses, hcell⟩ := Bool.and_eq_true_iff.mp hfault
        refine .fault hop huses fun haddresses => ?_
        rw [Word.cell?_eq_some haddresses] at hcell
        exact absurd hcell (by simp)
      next hreaches =>
        refine .compute hop fun huses => Decidable.byContradiction fun hnegative => hreaches ?_
        rw [huses, Word.cell?_eq_none hnegative]
        rfl

/-- There is an instruction where the program counter points into the program. -/
theorem pc_lt_of_op {op : Op} (hop : rom.code[m.pc]? = some op) : m.pc < rom.code.size :=
  (Array.getElem?_eq_some_iff.mp hop).1

/-- A machine halts behind the last instruction, and halting changes nothing. -/
theorem step_eq_halted_iff :
    m.step rom = (m', .halted) ↔ m' = m ∧ rom.code.size ≤ m.pc := by
  constructor
  · intro h
    have hway := m.way rom
    rw [h] at hway
    cases hway with
    | halted hend => exact ⟨rfl, hend⟩
  · rintro ⟨rfl, hend⟩
    rw [step, Array.getElem?_eq_none hend]

/-- A cycle is counted. -/
theorem steps_of_ran (h : m.step rom = (m', .ran)) : m'.steps = m.steps + 1 := by
  have hway := m.way rom
  rw [h] at hway
  cases hway with
  | load hop => rfl
  | compute hop hreaches => rfl

/-- An instruction that faults is counted as well. -/
theorem steps_of_fault {address : Word} {pc : Nat} (h : m.step rom = (m', .fault address pc)) :
    m'.steps = m.steps + 1 := by
  have hway := m.way rom
  rw [h] at hway
  cases hway with
  | fault hop huses hnegative => rfl

end Machine

end HackStack
