import HackStack.Proofs.Block.Frame

/-!
# What a comparison does

The code of a comparison takes the difference of two words and goes one of two ways. Both ways end
behind the last label, and they leave the same memory but for the word on top, which is −1 or 0
(`HackStack.Machine.exists_runsFor_branches`).

The difference is a word, so its sign is that of the exact difference only if that fits into a word
(`HackStack.Word.DifferenceFits`). Where it does not, the word is off by 65536: its sign is the
other one, and it is not zero. So `gt` and `lt` are right for words whose difference fits and wrong
for all others, and `eq` is always right
(`HackStack.Comparison.taken_iff`, `HackStack.Comparison.taken_iff_not`).
-/

namespace HackStack

open Assembly Statement

/-! ### Differences -/

/-- Whether the exact difference of two words is a word. -/
def Word.DifferenceFits (l r : Word) : Prop :=
  -32768 ≤ l.toInt - r.toInt ∧ l.toInt - r.toInt ≤ 32767

instance (l r : Word) : Decidable (l.DifferenceFits r) := inferInstanceAs (Decidable (_ ∧ _))

/-- What a comparison asks. -/
def Comparison.Asks : Comparison → Word → Word → Prop
  | .eq, l, r => l = r
  | .gt, l, r => r.toInt < l.toInt
  | .lt, l, r => l.toInt < r.toInt

namespace Word

variable {l r : Word}

/-- **The difference of two words**, where it fits. -/
theorem toInt_sub_of_fits (h : l.DifferenceFits r) : (l - r).toInt = l.toInt - r.toInt := by
  obtain ⟨hlow, hhigh⟩ := h
  rw [BitVec.toInt_sub, Int.bmod_def]
  omega

/-- **The difference of two words where it does not fit** has the sign of the other difference. -/
theorem toInt_sub_of_not_fits (h : ¬l.DifferenceFits r) :
    (r.toInt < l.toInt ∧ (l - r).toInt < 0) ∨ (l.toInt < r.toInt ∧ 0 < (l - r).toInt) := by
  have hl := l.toInt_lt
  have hl' := l.le_toInt
  have hr := r.toInt_lt
  have hr' := r.le_toInt
  rw [DifferenceFits] at h
  rw [BitVec.toInt_sub, Int.bmod_def]
  omega

end Word

namespace Comparison

variable {op : Comparison} {l r : Word}

/-- **A comparison is right** where the difference fits, and a comparison for equality always. -/
theorem taken_iff (h : op = .eq ∨ l.DifferenceFits r) :
    (Block.condition op).taken (l - r) = true ↔ op.Asks l r := by
  cases op with
  | eq =>
    refine decide_eq_true_iff.trans ?_
    rw [← BitVec.toInt_zero, BitVec.toInt_inj, Asks]
    bv_omega
  | gt =>
    have hdifference := Word.toInt_sub_of_fits (h.resolve_left (by simp))
    refine decide_eq_true_iff.trans ?_
    rw [hdifference, Asks]
    omega
  | lt =>
    have hdifference := Word.toInt_sub_of_fits (h.resolve_left (by simp))
    refine decide_eq_true_iff.trans ?_
    rw [hdifference, Asks]
    omega

/-- **An order is wrong** where the difference does not fit. -/
theorem taken_iff_not (hop : op ≠ .eq) (h : ¬l.DifferenceFits r) :
    (Block.condition op).taken (l - r) = true ↔ ¬op.Asks l r := by
  have hdifference := Word.toInt_sub_of_not_fits h
  cases op with
  | eq => exact absurd rfl hop
  | gt =>
    refine decide_eq_true_iff.trans ?_
    rw [Asks]
    omega
  | lt =>
    refine decide_eq_true_iff.trans ?_
    rw [Asks]
    omega

end Comparison

/-! ### Two ways -/

/-- The memory behind a comparison: the outcome has taken the place of the two words. -/
def Memory.compared (memory : Memory) (jump : Jump) : Memory :=
  memory.popped.write (memory.sp - 1 - 1)
    (if jump.taken (memory.popped.read (memory.sp - 1 - 1) - memory.topmost) then -1 else 0)

/-- The outcome of a comparison, and where it lies. -/
theorem Memory.compared_eq {memory : Memory} {jump : Jump} {n : Nat}
    (hsp : memory.sp = Word.ofNat (n + 2)) (hn : 0 < n) (hn' : n + 1 < 65536) :
    memory.compared jump = memory.popped.write (Word.ofNat n)
      (if jump.taken (memory.read (Word.ofNat n) - memory.read (Word.ofNat (n + 1))) then -1
        else 0) := by
  have hne : Word.ofNat 0 ≠ Word.ofNat n := Word.ofNat_ne (by omega)
  have hfirst : memory.popped.read (Word.ofNat n) = memory.read (Word.ofNat n) :=
    read_write_of_ne hne
  rw [compared, topmost_eq hsp ⟨by omega, hn'⟩, hsp, Word.ofNat_succ_sub_one,
    Word.ofNat_succ_sub_one, hfirst]

namespace Machine

variable {rom : Rom} {m : Machine} {jump : Jump} {yes done : String}

/-- **The code of a comparison** ends behind its last label, whichever way it goes. -/
theorem exists_runsFor_branches (hholds : rom.Holds m.pc (Block.branches jump yes done))
    (hyes : MemoryMap.predefined? yes = none) (hdone : MemoryMap.predefined? done = none)
    (hfits : m.pc + size (Block.branches jump yes done) < 65536)
    (hsp : (m.memory.sp - 1).Addresses) (hbelow : (m.memory.sp - 1 - 1).Addresses) :
    ∃ cycles m', m.RunsFor rom cycles m' ∧ cycles ≤ size (Block.branches jump yes done) ∧
      m'.pc = m.pc + size (Block.branches jump yes done) ∧
      m'.memory = m.memory.compared jump := by
  have hsize : size (Block.branches jump yes done) = 15 := rfl
  have hblock : Block.branches jump yes done =
      (Block.popThenTop ++ [Statement.assign .d (.ySubD .m), symbol yes]) ++ branch .d jump ::
        ((Block.top ++ [Statement.assign .m .zero, symbol done]) ++ branch .zero .always ::
          (.label yes :: (Block.top ++ [Statement.assign .m .negOne, .label done]))) := rfl
  rw [hsize] at hfits ⊢
  rw [hblock] at hholds
  have hsecondWay := hholds.right.tail.right.tail
  have hyesAt : rom.value? yes = some (m.pc + 12) :=
    Rom.value?_label hsecondWay.head_label hyes
  have hdoneAt : rom.value? done = some (m.pc + 15) :=
    Rom.value?_label hsecondWay.tail.right.tail.head_label hdone
  -- The jump has a target either way: the second way if it is taken, and the first if it is not.
  have hfirst := @Core.exec_difference rom m.core _ _ hsp hbelow hyesAt
  have hrun : m.RunsFor rom 7 (Core.at ⟨m.memory.popped, Word.ofNat (m.pc + 12),
      m.memory.popped.read (m.memory.sp - 1 - 1) - m.memory.topmost⟩
        (if jump.taken (m.memory.popped.read (m.memory.sp - 1 - 1) - m.memory.topmost) then
          (Word.ofNat (m.pc + 12)).toNat else m.pc + 7) (m.steps + 7)) :=
    runsFor_exec_branch hholds hfirst rfl
  rw [Word.toNat_ofNat (by omega)] at hrun
  rw [Memory.compared]
  generalize m.memory.popped.read (m.memory.sp - 1 - 1) - m.memory.topmost = difference at hrun ⊢
  have htruth : ∀ (comp : Comp) (rest : Block), comp.readsMemory = false →
      Core.exec rom (Block.top ++ Statement.assign .m comp :: rest)
          ⟨m.memory.popped, Word.ofNat (m.pc + 12), difference⟩ =
        Core.exec rom rest ⟨m.memory.popped.write (m.memory.sp - 1 - 1)
          (comp.eval difference (m.memory.sp - 1 - 1)), m.memory.sp - 1 - 1, difference⟩ := by
    intro comp rest hcomp
    rw [← Memory.sp_popped m.memory] at hbelow ⊢
    exact @Core.exec_truth rom ⟨_, _, difference⟩ comp hbelow hcomp rest
  by_cases htaken : jump.taken difference = true
  · rw [if_pos htaken] at hrun ⊢
    have hway := @runsFor_of_exec rom _ _ (m.pc + 12) (m.steps + 7) _ hsecondWay
      (htruth .negOne [.label done] rfl)
    exact ⟨7 + 3, _, hrun.trans hway, by decide, rfl, rfl⟩
  · rw [if_neg htaken] at hrun ⊢
    have hexec := (htruth .zero [symbol done] rfl).trans (Core.exec_symbol hdoneAt)
    have hway := @runsFor_exec_branch rom _ _ (m.pc + 7) (m.steps + 7) _ _ .zero .always
      hholds.right.tail hexec rfl
    exact ⟨7 + 5, _, hrun.trans hway, by decide, Word.toNat_ofNat hfits, rfl⟩

end Machine

end HackStack
