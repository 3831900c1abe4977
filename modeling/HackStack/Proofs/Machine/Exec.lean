import HackStack.Block.Stack
import HackStack.Machine.Run
import HackStack.Proofs.Machine.Cycle
import HackStack.Proofs.Rom.Linking

/-!
# Straight code

Code without jumps changes the memory and the two registers, and nothing else that matters. This
file says so with a function on lists of statements, `HackStack.Core.exec`, and shows that the
machine does what the function says wherever the statements stand in a program
(`HackStack.Machine.runsFor_of_exec`).

What a block does is then found by computing with `HackStack.Core.exec`, and no proof has to step
through the machine's cycles. The jump at the end of a block is one cycle of its own
(`HackStack.Machine.runsFor_branch`).
-/

namespace HackStack

open Assembly Statement

/-- What code without jumps changes. -/
structure Core where
  memory : Memory
  a : Word
  d : Word

/-- The memory and the registers of a machine. -/
def Machine.core (m : Machine) : Core := ⟨m.memory, m.a, m.d⟩

/-- A machine with this memory and these registers. -/
def Core.at (c : Core) (pc steps : Nat) : Machine := ⟨c.memory, c.a, c.d, pc, steps⟩

namespace Machine

/-! ### Runs -/

/-- **The machine runs** for a number of cycles, and an instruction is executed in each of them. -/
inductive RunsFor (rom : Rom) : Nat → Machine → Machine → Prop
  | zero (m : Machine) : RunsFor rom 0 m m
  | succ {n : Nat} {m m' m'' : Machine} (hran : m.step rom = (m', .ran))
      (h : RunsFor rom n m' m'') : RunsFor rom (n + 1) m m''

namespace RunsFor

variable {rom : Rom} {n n' : Nat} {m m' m'' : Machine}

theorem one (h : m.step rom = (m', .ran)) : RunsFor rom 1 m m' := .succ h (.zero m')

theorem trans (h : RunsFor rom n m m') (h' : RunsFor rom n' m' m'') :
    RunsFor rom (n + n') m m'' := by
  induction h with
  | zero m =>
    rw [Nat.zero_add]
    exact h'
  | succ hran h ih =>
    rw [Nat.add_right_comm]
    exact .succ hran (ih h')

/-- A machine runs in one way only. -/
theorem unique (h : RunsFor rom n m m') (h' : RunsFor rom n m m'') : m' = m'' := by
  induction h with
  | zero m =>
    cases h'
    rfl
  | succ hran h ih =>
    cases h' with
    | succ hran' h' =>
      rw [hran, Prod.mk.injEq] at hran'
      obtain ⟨rfl, -⟩ := hran'
      exact ih h'

/-- A run can be cut anywhere. -/
theorem split (h : RunsFor rom (n + n') m m'') :
    ∃ m', RunsFor rom n m m' ∧ RunsFor rom n' m' m'' := by
  induction n generalizing m with
  | zero =>
    rw [Nat.zero_add] at h
    exact ⟨m, .zero m, h⟩
  | succ n ih =>
    rw [Nat.add_right_comm] at h
    cases h with
    | succ hran h =>
      obtain ⟨m', hfirst, hrest⟩ := ih h
      exact ⟨m', .succ hran hfirst, hrest⟩

end RunsFor

/-- A cycle in which the instruction at the program counter is executed. -/
theorem step_of_getElem? {rom : Rom} {c : Core} {pc steps : Nat} {op : Op}
    (h : rom.code[pc]? = some op) :
    (c.at pc steps).step rom = execute op (c.at pc (steps + 1)) := by
  have hcode : rom.code[(c.at pc steps).pc]? = some op := h
  rw [step, hcode]
  rfl

end Machine

namespace Core

/-! ### Straight code -/

/-- What a compute instruction without a jump does where it does not fault. -/
def assign (dest : Dest) (comp : Comp) (c : Core) : Core :=
  let value := comp.eval c.d (if comp.readsMemory then c.memory.read c.a else c.a)
  { memory := if dest.writesM then c.memory.write c.a value else c.memory
    a := if dest.writesA then value else c.a
    d := if dest.writesD then value else c.d }

/-- Whether a compute instruction can reach the memory word that it needs. -/
def Reaches (dest : Dest) (comp : Comp) (c : Core) : Prop :=
  (comp.readsMemory || dest.writesM) = true → c.a.Addresses

instance (dest : Dest) (comp : Comp) (c : Core) : Decidable (c.Reaches dest comp) :=
  inferInstanceAs (Decidable (_ → _))

/-- **What straight code does**, if it does not fault. Labels and comments do nothing. -/
def exec (rom : Rom) : Block → Core → Option Core
  | [], c => some c
  | .instruction (.address (.number n)) :: rest, c => exec rom rest { c with a := Word.ofNat n }
  | .instruction (.address (.symbol name)) :: rest, c =>
    match rom.value? name with
    | some n => exec rom rest { c with a := Word.ofNat n }
    | none => none
  | .instruction (.compute ⟨some dest, comp, none⟩) :: rest, c =>
    if c.Reaches dest comp then exec rom rest (c.assign dest comp) else none
  | .instruction (.compute _) :: _, _ => none
  | .label _ :: rest, c | .comment _ :: rest, c => exec rom rest c

variable {rom : Rom} {c : Core} {rest : Block}

@[simp]
theorem exec_nil : exec rom [] c = some c := rfl

@[simp]
theorem exec_number (n : Nat) :
    exec rom (number n :: rest) c = exec rom rest { c with a := Word.ofNat n } := rfl

theorem exec_symbol {name : String} {n : Nat} (h : rom.value? name = some n) :
    exec rom (symbol name :: rest) c = exec rom rest { c with a := Word.ofNat n } := by
  have hexec : exec rom (symbol name :: rest) c =
      match rom.value? name with
      | some n => exec rom rest { c with a := Word.ofNat n }
      | none => none := rfl
  rw [hexec, h]

theorem exec_assign {dest : Dest} {comp : Comp} (h : c.Reaches dest comp) :
    exec rom (Statement.assign dest comp :: rest) c = exec rom rest (c.assign dest comp) :=
  if_pos h

/-- Straight code is executed piece by piece. -/
theorem exec_append (block : Block) :
    exec rom (block ++ rest) c = (exec rom block c).bind (exec rom rest) := by
  induction block generalizing c with
  | nil => rfl
  | cons s block ih =>
    match s with
    | .instruction (.address (.number n)) => exact ih
    | .instruction (.address (.symbol name)) =>
      simp only [List.cons_append, exec]
      cases rom.value? name with
      | none => rfl
      | some n => exact ih
    | .instruction (.compute ⟨some dest, comp, none⟩) =>
      simp only [List.cons_append, exec]
      split
      · exact ih
      · rfl
    | .instruction (.compute ⟨none, comp, none⟩) => rfl
    | .instruction (.compute ⟨none, comp, some jump⟩) => rfl
    | .instruction (.compute ⟨some dest, comp, some jump⟩) => rfl
    | .label name => exact ih
    | .comment text => exact ih

/-- A second piece of straight code goes on from where the first has led. -/
theorem exec_of_exec {block : Block} {c' : Core} (h : exec rom block c = some c') :
    exec rom (block ++ rest) c = exec rom rest c' := by
  rw [exec_append, h]
  rfl

end Core

namespace Machine

variable {rom : Rom} {c c' : Core} {pc steps : Nat} {block rest : Block}

/-- An assignment is one cycle. -/
theorem execute_assign {dest : Dest} {comp : Comp} (h : c.Reaches dest comp) :
    execute (.compute ⟨some dest, comp, none⟩) (c.at pc steps) =
      ((c.assign dest comp).at (pc + 1) steps, .ran) := by
  have hfault : ((⟨some dest, comp, none⟩ : Compute).usesMemory &&
      (c.at pc steps).a.cell?.isNone) = false := by
    rw [Bool.and_eq_false_imp]
    intro huses
    have haddresses : (c.at pc steps).a.Addresses := h huses
    rw [Word.cell?_eq_some haddresses]
    rfl
  rw [execute, hfault]
  rfl

/-- **The machine does what straight code does**, wherever the code stands. -/
theorem runsFor_of_exec (hholds : rom.Holds pc block) (h : c.exec rom block = some c') :
    RunsFor rom (size block) (c.at pc steps) (c'.at (pc + size block) (steps + size block)) := by
  induction block generalizing c pc steps with
  | nil =>
    obtain rfl := Option.some.inj h
    exact .zero _
  | cons s block ih =>
    -- An instruction is one cycle, and the rest follows it.
    have one : ∀ {i : Instruction} {op : Op} {between : Core}, s = .instruction i →
        rom.code[pc]? = some op →
        execute op (c.at pc (steps + 1)) = (between.at (pc + 1) (steps + 1), .ran) →
        between.exec rom block = some c' →
        RunsFor rom (size (s :: block)) (c.at pc steps)
          (c'.at (pc + size (s :: block)) (steps + size (s :: block))) := by
      rintro i op between rfl hop hexecute hrest
      have hstep : (c.at pc steps).step rom = (between.at (pc + 1) (steps + 1), .ran) :=
        (step_of_getElem? hop).trans hexecute
      have hrun : RunsFor rom (size block) (between.at (pc + 1) (steps + 1))
          (c'.at (pc + 1 + size block) (steps + 1 + size block)) := ih hholds.tail hrest
      rw [size_instruction, ← Nat.add_assoc, ← Nat.add_assoc, Nat.add_right_comm pc,
        Nat.add_right_comm steps]
      exact .succ hstep hrun
    match s with
    | .instruction (.address (.number n)) =>
      obtain ⟨op, hop, rfl⟩ := hholds.head
      exact one rfl hop rfl h
    | .instruction (.address (.symbol name)) =>
      obtain ⟨op, hop, n, hvalue, rfl⟩ := hholds.head
      rw [Core.exec, hvalue] at h
      exact one rfl hop rfl h
    | .instruction (.compute ⟨some dest, comp, none⟩) =>
      obtain ⟨op, hop, rfl⟩ := hholds.head
      rw [Core.exec] at h
      split at h
      next hreaches => exact one rfl hop (execute_assign hreaches) h
      next => exact absurd h (by simp)
    | .instruction (.compute ⟨none, comp, none⟩) => exact absurd h (by simp [Core.exec])
    | .instruction (.compute ⟨none, comp, some jump⟩) => exact absurd h (by simp [Core.exec])
    | .instruction (.compute ⟨some dest, comp, some jump⟩) => exact absurd h (by simp [Core.exec])
    | .label name =>
      rw [size_label]
      exact ih hholds.tail h
    | .comment text =>
      rw [size_comment]
      exact ih hholds.tail h

/-- **Straight code is gone through** from its first instruction to its last. -/
theorem pc_of_exec {m : Machine} {n : Nat} (hholds : rom.Holds pc block)
    (h : c.exec rom block = some c') (hn : n ≤ size block)
    (hruns : RunsFor rom n (c.at pc steps) m) : m.pc = pc + n := by
  obtain ⟨front, rest, rfl, rfl⟩ := exists_append_of_le_size hn
  rw [Core.exec_append] at h
  obtain ⟨between, hfront, -⟩ := Option.bind_eq_some_iff.mp h
  obtain rfl := hruns.unique (runsFor_of_exec hholds.left hfront)
  rfl

/-- **A jump** is one cycle, and leaves memory and registers alone. -/
theorem runsFor_branch {comp : Comp} {jump : Jump}
    (hholds : rom.Holds pc (branch comp jump :: rest)) (hcomp : comp.readsMemory = false) :
    RunsFor rom 1 (c.at pc steps)
      (c.at (if jump.taken (comp.eval c.d c.a) then c.a.toNat else pc + 1) (steps + 1)) := by
  obtain ⟨op, hop, rfl⟩ := hholds.head
  refine .one ((step_of_getElem? hop).trans ?_)
  have hfault : ((⟨none, comp, some jump⟩ : Compute).usesMemory &&
      (c.at pc (steps + 1)).a.cell?.isNone) = false := by
    rw [Compute.usesMemory, hcomp]
    rfl
  have hvalue : comp.eval c.d (if comp.readsMemory then c.memory.read c.a else c.a) =
      comp.eval c.d c.a := by rw [hcomp]; rfl
  rw [execute, hfault, if_neg Bool.false_ne_true]
  change (Machine.mk c.memory c.a c.d
    (if jump.taken (comp.eval c.d (if comp.readsMemory then c.memory.read c.a else c.a)) then
      c.a.toNat else pc + 1) (steps + 1), Cycle.ran) = _
  rw [hvalue]
  rfl

/-- **Straight code with a jump behind it.** -/
theorem runsFor_exec_branch {comp : Comp} {jump : Jump}
    (hholds : rom.Holds pc (block ++ branch comp jump :: rest)) (h : c.exec rom block = some c')
    (hcomp : comp.readsMemory = false) :
    RunsFor rom (size block + 1) (c.at pc steps)
      (c'.at (if jump.taken (comp.eval c'.d c'.a) then c'.a.toNat else pc + size block + 1)
        (steps + size block + 1)) :=
  (runsFor_of_exec hholds.left h).trans (runsFor_branch hholds.right hcomp)

/-- **A block that jumps at its end** leads to where A points. -/
theorem runsFor_of_jump {m : Machine} {code : Block}
    (hblock : block = code ++ branch .zero .always :: rest) (hrest : size rest = 0)
    (hholds : rom.Holds m.pc block) (hexec : m.core.exec rom code = some c) :
    ∃ m', m.RunsFor rom (size block) m' ∧ m'.pc = c.a.toNat ∧ m'.memory = c.memory := by
  have hsize : size block = size code + 1 := by
    rw [hblock, size_append]
    change size code + size (.instruction _ :: rest) = _
    rw [size_instruction, hrest]
  rw [hblock] at hholds
  have hruns := @runsFor_exec_branch rom m.core c m.pc m.steps code rest .zero .always hholds hexec
    rfl
  rw [hsize]
  exact ⟨_, hruns, rfl, rfl⟩

/-! ### Bounded runs -/

/-- All cycles are counted. -/
theorem RunsFor.steps_eq {m m' : Machine} {n : Nat} (h : RunsFor rom n m m') :
    m'.steps = m.steps + n := by
  induction h with
  | zero m => rfl
  | succ hran h ih => rw [ih, steps_of_ran hran, Nat.add_assoc, Nat.add_comm 1]

/-- A bounded run goes on from where its first cycles have led, if it may execute one more. -/
theorem runFor_of_runsFor {m m' : Machine} {n start limit left : Nat} (h : RunsFor rom n m m')
    (hleft : n < max left 1) :
    runFor rom start limit left m = runFor rom start limit (left - n) m' := by
  induction h generalizing left with
  | zero m => rfl
  | @succ n m between m' hran h ih =>
    obtain ⟨left, rfl⟩ := Nat.exists_eq_add_of_le' (show 2 ≤ left by omega)
    rw [runFor.eq_def]
    simp only [hran]
    rw [ih (show n < max (left + 1) 1 by omega), Nat.add_sub_add_right (left + 1) 1 n]

/-- A bounded run ends where the machine halts. -/
theorem run_of_halted {m m' : Machine} {n limit : Nat} (h : RunsFor rom n m m')
    (hhalted : m'.step rom = (m', .halted)) (hlimit : n < max limit 1) :
    m.run rom limit = (m', .ok n) := by
  rw [run, runFor_of_runsFor h hlimit, runFor.eq_def]
  simp only [hhalted]
  rw [h.steps_eq, Nat.add_sub_cancel_left]

/-- **A run that ends is found by `HackStack.Machine.run`**, if enough cycles are allowed. -/
theorem run_of_runsFor {m m' : Machine} {n limit : Nat} (h : RunsFor rom n m m')
    (hhalted : m'.step rom = (m', .halted)) (hlimit : n < limit) :
    m.run rom limit = (m', .ok n) :=
  run_of_halted h hhalted (Nat.lt_of_lt_of_le hlimit (Nat.le_max_left ..))

end Machine

end HackStack
