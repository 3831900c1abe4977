import HackStack.Proofs.Machine.Limits

/-!
# Runs in slices

A run that has come to its limit can be gone on with: the machine that it leaves behind is run
again, with a limit of its own. This file says that a run is not changed by being cut.

* A run that is resumed ends as the run ends that was allowed the instructions of both slices
  (`HackStack.Machine.Ends.resumed`). What it returns counts from where it was resumed, and
  `HackStack.Machine.resumed` puts the instructions of the first slice in front.
* A run that has ended in another way ends so under every limit that is not smaller
  (`HackStack.Machine.Ends.mono`).

Both slices have to be allowed an instruction. A run executes one even where it is allowed none, and
a slice of that kind would take an instruction that the whole run does not have.
-/

namespace HackStack

namespace Machine

variable {rom : Rom} {m m' between : Machine} {first second : Nat} {r : Except RunError Nat}

/-- **What a run returns in all** that was resumed after `before` instructions and then returned
this. -/
def resumed (before : Nat) : Except RunError Nat → Except RunError Nat
  | .ok n => .ok (before + n)
  | .error (.stepLimit limit) => .error (.stepLimit (before + limit))
  | .error (.outsideMemory address pc) => .error (.outsideMemory address pc)

/-! ### What a run returns in all -/

theorem resumed_eq_ok_iff {before n : Nat} : resumed before r = .ok (before + n) ↔ r = .ok n := by
  rcases r with (_ | _) | n' <;> simp [resumed]

theorem resumed_eq_outsideMemory_iff {before pc : Nat} {address : Word} :
    resumed before r = .error (.outsideMemory address pc) ↔
      r = .error (.outsideMemory address pc) := by
  rcases r with (_ | _) | n <;> simp [resumed]

/-- A run has come to its limit if its last slice has. -/
theorem exists_resumed_eq_stepLimit_iff {before : Nat} :
    (∃ limit, resumed before r = .error (.stepLimit limit)) ↔
      ∃ limit, r = .error (.stepLimit limit) := by
  rcases r with (_ | _) | n <;> simp [resumed]

/-! ### The two slices -/

/-- **A run that is resumed** ends where the whole run ends. -/
theorem Ends.resumed (h : between.Ends rom second m' r) (hsecond : 1 ≤ second)
    (hfirst : m.RunsFor rom first between) :
    m.Ends rom (first + second) m' (resumed first r) := by
  -- Where each slice is allowed an instruction, the limits add up.
  have hlimit : max (first + second) 1 = first + max second 1 := by omega
  cases h with
  | halted hruns hpc hn => exact .halted (hfirst.trans hruns) hpc (by omega)
  | fault hruns hfault hn => exact .fault (hfirst.trans hruns) hfault (by omega)
  | limit hruns =>
    refine .limit ?_
    rw [hlimit]
    exact hfirst.trans hruns

/-- **A run that has ended before its limit** ends so under a larger one. -/
theorem Ends.mono {limit larger : Nat} (h : m.Ends rom limit m' r)
    (hended : ∀ n, r ≠ .error (.stepLimit n)) (hle : limit ≤ larger) :
    m.Ends rom larger m' r := by
  cases h with
  | halted hruns hpc hn => exact .halted hruns hpc (by omega)
  | fault hruns hfault hn => exact .fault hruns hfault (by omega)
  | limit hruns => exact absurd rfl (hended limit)

/-- **The whole run** is the second slice, with the instructions of the first in front. -/
theorem run_add_of_stepLimit {n : Nat} (hfirst : 1 ≤ first) (hsecond : 1 ≤ second)
    (h : m.run rom first = (between, .error (.stepLimit n))) :
    m.run rom (first + second) =
      ((between.run rom second).1, resumed first (between.run rom second).2) := by
  obtain ⟨-, hruns⟩ := run_eq_stepLimit_iff.mp h
  rw [Nat.max_eq_left hfirst] at hruns
  exact run_eq_of_ends ((run_eq_iff.mp (Eq.refl (between.run rom second))).resumed hsecond hruns)

/-- **Running in slices is running at once.** A run comes to its limit, and the machine that it
leaves behind is run again. Then this machine ends up as the machine of a single run does that is
allowed as many instructions as both; it halts after `k` of them exactly if the single run halts
after `first + k`, comes to its limit exactly if the single run does, and faults exactly if the
single run does, at the same address and the same instruction. A first slice that has halted or
faulted is the single run already. -/
theorem run_in_slices (rom : Rom) (m : Machine) {first second : Nat} (hfirst : 1 ≤ first)
    (hsecond : 1 ≤ second) :
    (∀ between n, m.run rom first = (between, .error (.stepLimit n)) →
      (between.run rom second).1 = (m.run rom (first + second)).1 ∧
      (∀ k, (between.run rom second).2 = .ok k ↔
        (m.run rom (first + second)).2 = .ok (first + k)) ∧
      ((∃ limit, (between.run rom second).2 = .error (.stepLimit limit)) ↔
        ∃ limit, (m.run rom (first + second)).2 = .error (.stepLimit limit)) ∧
      ∀ address pc, (between.run rom second).2 = .error (.outsideMemory address pc) ↔
        (m.run rom (first + second)).2 = .error (.outsideMemory address pc)) ∧
    ∀ m' r, m.run rom first = (m', r) → (∀ n, r ≠ .error (.stepLimit n)) →
      m.run rom (first + second) = (m', r) := by
  constructor
  · intro between n h
    rw [run_add_of_stepLimit hfirst hsecond h]
    exact ⟨rfl, fun k => resumed_eq_ok_iff.symm, exists_resumed_eq_stepLimit_iff.symm,
      fun address pc => resumed_eq_outsideMemory_iff.symm⟩
  · intro m' r h hended
    exact run_eq_of_ends ((run_eq_iff.mp h).mono hended (Nat.le_add_right first second))

/-- An instruction that reaches outside the memory, behind two that do not. -/
def twoThenFault : Rom :=
  ⟨#[.load 7, .compute ⟨some .a, .negOne, none⟩, .compute ⟨some .d, .y .m, none⟩], ∅, ∅⟩

/-- The first slice ends directly before the instruction that faults, and the second one, which is
allowed a single instruction, faults as the whole run does. -/
theorem run_in_slices_twoThenFault :
    1 ≤ 2 ∧ 1 ≤ 1 ∧ ∃ between,
      Machine.reset.run twoThenFault 2 = (between, .error (.stepLimit 2)) ∧
      (between.run twoThenFault 1).1 = (Machine.reset.run twoThenFault 3).1 ∧
      (between.run twoThenFault 1).2 = .error (.outsideMemory (-1) 2) ∧
      (Machine.reset.run twoThenFault 3).2 = .error (.outsideMemory (-1) 2) := by
  obtain ⟨between, hfirst⟩ : ∃ between,
      Machine.reset.run twoThenFault 2 = (between, .error (.stepLimit 2)) := ⟨_, rfl⟩
  have hwhole : (Machine.reset.run twoThenFault 3).2 = .error (.outsideMemory (-1) 2) := rfl
  obtain ⟨hmachine, -, -, hfault⟩ :=
    (run_in_slices twoThenFault .reset (show 1 ≤ 2 by decide) (show 1 ≤ 1 by decide)).1 between 2
      hfirst
  exact ⟨by decide, by decide, between, hfirst, hmachine, (hfault _ _).mpr hwhole, hwhole⟩

end Machine

end HackStack
