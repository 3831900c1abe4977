import HackStack.Proofs.Machine.Exec

/-!
# What a run may execute

`HackStack.Machine.run` and `HackStack.Machine.runTo` are given a number of steps. This file says
for every program, every machine and every number how such a run ends, in terms of the cycles of the
machine alone (`HackStack.Machine.limits_of_runs`).

Both look at the limit directly after an instruction, before they look whether the machine has come
to its goal. Two things follow, and both are at odds with the wording of
`HackStack.RunError.stepLimit`, which reports steps that did not reach the goal.

* A goal that is reached with the last instruction allowed counts as not reached
  (`HackStack.Machine.exists_tight_limit`).
* One instruction is executed even where none is allowed. In the statements below the number of
  instructions allowed is therefore `max limit 1`.

The proofs follow the cycles. For a number of them a machine either runs, or it comes before to a
state where it has reached its goal or cannot go on (`HackStack.Machine.exists_end`); and a bounded
run goes along (`HackStack.Machine.runFor_of_runsFor`, `HackStack.Machine.runToFor_of_runsFor`), so
that only the cycle in which it ends is left.
-/

namespace HackStack

namespace Machine

variable {rom : Rom} {m m' m'' : Machine} {n target : Nat}

/-! ### Where a machine cannot go on -/

/-- **The first cycles of a machine** are all executed, none of them from a state that is a goal; or
there is a first state among them that is a goal or from which no instruction is executed. -/
theorem exists_end (rom : Rom) (goal : Machine → Prop) (cycles : Nat) (m : Machine) :
    (∃ m', m.RunsFor rom cycles m' ∧ ∀ k < cycles, ∀ m₁, m.RunsFor rom k m₁ → ¬goal m₁) ∨
    ∃ n m', n < cycles ∧ m.RunsFor rom n m' ∧ (∀ k < n, ∀ m₁, m.RunsFor rom k m₁ → ¬goal m₁) ∧
      (goal m' ∨ ¬goal m' ∧ (m'.step rom).2 ≠ .ran) := by
  induction cycles with
  | zero => exact .inl ⟨m, .zero m, fun k hk => absurd hk (Nat.not_lt_zero k)⟩
  | succ cycles ih =>
    rcases ih with ⟨m', hruns, hbefore⟩ | ⟨n, m', hn, hrest⟩
    · by_cases hgoal : goal m'
      · exact .inr ⟨cycles, m', Nat.lt_succ_self _, hruns, hbefore, .inl hgoal⟩
      by_cases hran : (m'.step rom).2 = .ran
      · refine .inl ⟨_, hruns.trans (.one (Prod.ext rfl hran)), ?_⟩
        intro k hk m₁ hm₁
        rcases Nat.lt_succ_iff_lt_or_eq.mp hk with hk | rfl
        · exact hbefore k hk m₁ hm₁
        · rw [hm₁.unique hruns]
          exact hgoal
      · exact .inr ⟨cycles, m', Nat.lt_succ_self _, hruns, hbefore, .inr ⟨hgoal, hran⟩⟩
    · exact .inr ⟨n, m', Nat.lt_succ_of_lt hn, hrest⟩

/-- A run of one cycle. -/
theorem RunsFor.step_eq (h : m.RunsFor rom 1 m') : m.step rom = (m', .ran) := by
  cases h with
  | succ hran hrest =>
    cases hrest
    exact hran

/-- A cycle that executes no instruction finds none, or faults. -/
theorem halted_or_fault (h : (m.step rom).2 ≠ .ran) :
    m.step rom = (m, .halted) ∨ ∃ m' address pc, m.step rom = (m', .fault address pc) := by
  match hstep : m.step rom with
  | (m', .ran) => exact absurd (congrArg Prod.snd hstep) h
  | (m', .halted) =>
    obtain ⟨rfl, -⟩ := step_eq_halted_iff.mp hstep
    exact .inl rfl
  | (m', .fault address pc) => exact .inr ⟨m', address, pc, rfl⟩

/-! ### Running until the end -/

variable {limit : Nat} {address : Word} {pc : Nat}

theorem run_of_fault (h : m.RunsFor rom n m') (hfault : m'.step rom = (m'', .fault address pc))
    (hlimit : n < max limit 1) :
    m.run rom limit = (m'', .error (.outsideMemory address pc)) := by
  rw [run, runFor_of_runsFor h hlimit, runFor.eq_def]
  simp only [hfault]

/-- A run that comes to its limit does not look where it is. -/
theorem run_of_limit (h : m.RunsFor rom (max limit 1) m') :
    m.run rom limit = (m', .error (.stepLimit limit)) := by
  obtain ⟨k, hk⟩ : ∃ k, max limit 1 = k + 1 := ⟨max limit 1 - 1, by omega⟩
  rw [hk] at h
  obtain ⟨m₁, hfirst, hlast⟩ := h.split
  rw [run, runFor_of_runsFor hfirst (by omega), runFor.eq_def]
  simp only [hlast.step_eq]
  rcases show limit - k = 0 ∨ limit - k = 1 by omega with hleft | hleft <;> rw [hleft]

/-- **How a run ends**: where the run has led, and what it returns. -/
inductive Ends (rom : Rom) (limit : Nat) (m : Machine) : Machine → Except RunError Nat → Prop
  /-- The program counter has come behind the last instruction. -/
  | halted {n : Nat} {m' : Machine} (hruns : m.RunsFor rom n m')
      (hpc : rom.code.size ≤ m'.pc) (hn : n < max limit 1) : Ends rom limit m m' (.ok n)
  /-- An instruction would reach outside the memory. -/
  | fault {n : Nat} {m₁ m' : Machine} {address : Word} {pc : Nat} (hruns : m.RunsFor rom n m₁)
      (hfault : m₁.step rom = (m', .fault address pc)) (hn : n < max limit 1) :
      Ends rom limit m m' (.error (.outsideMemory address pc))
  /-- All instructions that are allowed have been executed. -/
  | limit {m' : Machine} (hruns : m.RunsFor rom (max limit 1) m') :
      Ends rom limit m m' (.error (.stepLimit limit))

theorem run_eq_of_ends {r : Except RunError Nat} (h : Ends rom limit m m' r) :
    m.run rom limit = (m', r) := by
  cases h with
  | halted hruns hpc hn => exact run_of_halted hruns (step_eq_halted_iff.mpr ⟨rfl, hpc⟩) hn
  | fault hruns hfault hn => exact run_of_fault hruns hfault hn
  | limit hruns => exact run_of_limit hruns

/-- Every run ends in one of these ways. -/
theorem run_eq_iff {r : Except RunError Nat} :
    m.run rom limit = (m', r) ↔ Ends rom limit m m' r := by
  refine ⟨fun h => ?_, run_eq_of_ends⟩
  obtain ⟨m₁, r₁, hends⟩ : ∃ m₁ r₁, Ends rom limit m m₁ r₁ := by
    rcases exists_end rom (fun _ => False) (max limit 1) m with
      ⟨m₁, hruns, -⟩ | ⟨n, m₁, hn, hruns, -, hgoal | ⟨-, hstuck⟩⟩
    · exact ⟨_, _, .limit hruns⟩
    · exact hgoal.elim
    rcases halted_or_fault hstuck with hhalted | ⟨m₂, address, pc, hfault⟩
    · exact ⟨_, _, .halted hruns (step_eq_halted_iff.mp hhalted).2 hn⟩
    · exact ⟨_, _, .fault hruns hfault hn⟩
  obtain ⟨rfl, rfl⟩ := Prod.mk.inj (h.symm.trans (run_eq_of_ends hends))
  exact hends

/-! ### Running to an address -/

/-- None of the first `n` states of a machine is at the address. -/
def Avoids (rom : Rom) (target n : Nat) (m : Machine) : Prop :=
  ∀ k < n, ∀ m', m.RunsFor rom k m' → m'.pc ≠ target

theorem Avoids.pc_ne (h : Avoids rom target n m) (hn : 0 < n) : m.pc ≠ target :=
  h 0 hn m (.zero m)

/-- The states after the first one are those of the machine that the first cycle leads to. -/
theorem Avoids.of_ran (h : Avoids rom target (n + 1) m) (hran : m.step rom = (m', .ran)) :
    Avoids rom target n m' :=
  fun k hk m₁ hm₁ => h (k + 1) (Nat.succ_lt_succ hk) m₁ (.succ hran hm₁)

/-- A run to an address goes on from where its first cycles have led, if they do not come past the
address and it may execute one more. -/
theorem runToFor_of_runsFor {start left : Nat} (h : m.RunsFor rom n m')
    (havoids : Avoids rom target n m) (hleft : n < max left 1) :
    runToFor rom target start left m = runToFor rom target start (left - n) m' := by
  induction h generalizing left with
  | zero m => rfl
  | @succ n m between m' hran h ih =>
    obtain ⟨left, rfl⟩ := Nat.exists_eq_add_of_le' (show 2 ≤ left by omega)
    rw [runToFor.eq_def]
    simp only [if_neg (havoids.pc_ne (Nat.succ_pos n)), hran]
    rw [ih (havoids.of_ran hran) (show n < max (left + 1) 1 by omega),
      Nat.add_sub_add_right (left + 1) 1 n]

/-- **How a run to an address ends.** -/
inductive EndsAt (rom : Rom) (target limit : Nat) (m : Machine) :
    Machine → Except RunError Nat → Prop
  /-- The program counter has come to the address, for the first time. -/
  | reached {n : Nat} {m' : Machine} (hruns : m.RunsFor rom n m')
      (havoids : Avoids rom target n m) (hpc : m'.pc = target) (hn : n < max limit 1) :
      EndsAt rom target limit m m' (.ok n)
  /-- The program counter has come behind the last instruction, elsewhere. -/
  | halted {n : Nat} {m' : Machine} (hruns : m.RunsFor rom n m')
      (havoids : Avoids rom target (n + 1) m) (hpc : rom.code.size ≤ m'.pc)
      (hn : n < max limit 1) : EndsAt rom target limit m m' (.error (.stepLimit n))
  /-- An instruction would reach outside the memory. -/
  | fault {n : Nat} {m₁ m' : Machine} {address : Word} {pc : Nat} (hruns : m.RunsFor rom n m₁)
      (havoids : Avoids rom target (n + 1) m) (hfault : m₁.step rom = (m', .fault address pc))
      (hn : n < max limit 1) : EndsAt rom target limit m m' (.error (.outsideMemory address pc))
  /-- All instructions that are allowed have been executed. -/
  | limit {m' : Machine} (hruns : m.RunsFor rom (max limit 1) m')
      (havoids : Avoids rom target (max limit 1) m) :
      EndsAt rom target limit m m' (.error (.stepLimit (max limit 1)))

/-- A first state that is not at the address is one more that is not. -/
theorem Avoids.succ (h : Avoids rom target n m) (hruns : m.RunsFor rom n m')
    (hpc : m'.pc ≠ target) : Avoids rom target (n + 1) m := by
  intro k hk m₁ hm₁
  rcases Nat.lt_succ_iff_lt_or_eq.mp hk with hk | rfl
  · exact h k hk m₁ hm₁
  · rw [hm₁.unique hruns]
    exact hpc

theorem Avoids.mono {n' : Nat} (h : Avoids rom target n m) (hle : n' ≤ n) :
    Avoids rom target n' m :=
  fun k hk => h k (Nat.lt_of_lt_of_le hk hle)

theorem runTo_eq_of_endsAt {r : Except RunError Nat} (h : EndsAt rom target limit m m' r) :
    m.runTo rom target limit = (m', r) := by
  cases h with
  | @reached n _ hruns havoids hpc hn =>
    rw [runTo, runToFor_of_runsFor hruns havoids hn, runToFor.eq_def]
    simp only [if_pos hpc]
    rw [hruns.steps_eq, Nat.add_sub_cancel_left]
  | @halted n _ hruns havoids hpc hn =>
    rw [runTo, runToFor_of_runsFor hruns (havoids.mono (Nat.le_succ n)) hn, runToFor.eq_def]
    simp only [if_neg (havoids n (Nat.lt_succ_self n) m' hruns),
      step_eq_halted_iff.mpr ⟨rfl, hpc⟩]
    rw [hruns.steps_eq, Nat.add_sub_cancel_left]
  | @fault n m₁ _ _ _ hruns havoids hfault hn =>
    rw [runTo, runToFor_of_runsFor hruns (havoids.mono (Nat.le_succ n)) hn, runToFor.eq_def]
    simp only [if_neg (havoids n (Nat.lt_succ_self n) m₁ hruns), hfault]
  | limit hruns havoids =>
    have hsteps : m'.steps - m.steps = max limit 1 := by
      rw [hruns.steps_eq, Nat.add_sub_cancel_left]
    obtain ⟨k, hk⟩ : ∃ k, max limit 1 = k + 1 := ⟨max limit 1 - 1, by omega⟩
    rw [hk] at hruns havoids
    obtain ⟨m₁, hfirst, hlast⟩ := hruns.split
    rw [runTo, runToFor_of_runsFor hfirst (havoids.mono (Nat.le_succ k)) (by omega),
      runToFor.eq_def]
    simp only [if_neg (havoids k (Nat.lt_succ_self k) m₁ hfirst), hlast.step_eq, hsteps]
    rcases show limit - k = 0 ∨ limit - k = 1 by omega with hleft | hleft <;> rw [hleft]

/-- Every run to an address ends in one of these ways. -/
theorem runTo_eq_iff {r : Except RunError Nat} :
    m.runTo rom target limit = (m', r) ↔ EndsAt rom target limit m m' r := by
  refine ⟨fun h => ?_, runTo_eq_of_endsAt⟩
  obtain ⟨m₁, r₁, hends⟩ : ∃ m₁ r₁, EndsAt rom target limit m m₁ r₁ := by
    rcases exists_end rom (fun m => m.pc = target) (max limit 1) m with
      ⟨m₁, hruns, havoids⟩ | ⟨n, m₁, hn, hruns, havoids, hpc | ⟨hpc, hstuck⟩⟩
    · exact ⟨_, _, .limit hruns havoids⟩
    · exact ⟨_, _, .reached hruns havoids hpc hn⟩
    have havoids : Avoids rom target (n + 1) m := Avoids.succ havoids hruns hpc
    rcases halted_or_fault hstuck with hhalted | ⟨m₂, address, pc, hfault⟩
    · exact ⟨_, _, .halted hruns havoids (step_eq_halted_iff.mp hhalted).2 hn⟩
    · exact ⟨_, _, .fault hruns havoids hfault hn⟩
  obtain ⟨rfl, rfl⟩ := Prod.mk.inj (h.symm.trans (runTo_eq_of_endsAt hends))
  exact hends

/-! ### What the limit means -/

/-- A run executes as many instructions as it is allowed, or fewer. -/
theorem Ends.steps_le {r : Except RunError Nat} (h : Ends rom limit m m' r) :
    m'.steps ≤ m.steps + max limit 1 := by
  cases h with
  | halted hruns hpc hn =>
    rw [hruns.steps_eq]
    omega
  | fault hruns hfault hn =>
    rw [steps_of_fault hfault, hruns.steps_eq]
    omega
  | limit hruns => exact hruns.steps_eq.le

theorem EndsAt.steps_le {r : Except RunError Nat} (h : EndsAt rom target limit m m' r) :
    m'.steps ≤ m.steps + max limit 1 := by
  cases h with
  | reached hruns havoids hpc hn | halted hruns havoids hpc hn =>
    rw [hruns.steps_eq]
    omega
  | fault hruns havoids hfault hn =>
    rw [steps_of_fault hfault, hruns.steps_eq]
    omega
  | limit hruns havoids => exact hruns.steps_eq.le

theorem run_eq_ok_iff :
    m.run rom limit = (m', .ok n) ↔
      m.RunsFor rom n m' ∧ rom.code.size ≤ m'.pc ∧ n < max limit 1 := by
  rw [run_eq_iff]
  constructor
  · intro h
    cases h with
    | halted hruns hpc hn => exact ⟨hruns, hpc, hn⟩
  · rintro ⟨hruns, hpc, hn⟩
    exact .halted hruns hpc hn

theorem run_eq_stepLimit_iff :
    m.run rom limit = (m', .error (.stepLimit n)) ↔
      n = limit ∧ m.RunsFor rom (max limit 1) m' := by
  rw [run_eq_iff]
  constructor
  · intro h
    cases h with
    | limit hruns => exact ⟨rfl, hruns⟩
  · rintro ⟨rfl, hruns⟩
    exact .limit hruns

theorem run_eq_outsideMemory_iff :
    m.run rom limit = (m', .error (.outsideMemory address pc)) ↔
      ∃ n m₁, m.RunsFor rom n m₁ ∧ m₁.step rom = (m', .fault address pc) ∧ n < max limit 1 := by
  rw [run_eq_iff]
  constructor
  · intro h
    cases h with
    | fault hruns hfault hn => exact ⟨_, _, hruns, hfault, hn⟩
  · rintro ⟨n, m₁, hruns, hfault, hn⟩
    exact .fault hruns hfault hn

theorem runTo_eq_ok_iff :
    m.runTo rom target limit = (m', .ok n) ↔
      m.RunsFor rom n m' ∧ m'.pc = target ∧ Avoids rom target n m ∧ n < max limit 1 := by
  rw [runTo_eq_iff]
  constructor
  · intro h
    cases h with
    | reached hruns havoids hpc hn => exact ⟨hruns, hpc, havoids, hn⟩
  · rintro ⟨hruns, hpc, havoids, hn⟩
    exact .reached hruns havoids hpc hn

theorem runTo_eq_stepLimit_iff :
    m.runTo rom target limit = (m', .error (.stepLimit n)) ↔
      m.RunsFor rom n m' ∧ Avoids rom target n m ∧
        (n = max limit 1 ∨ n < max limit 1 ∧ m'.pc ≠ target ∧ rom.code.size ≤ m'.pc) := by
  rw [runTo_eq_iff]
  constructor
  · intro h
    cases h with
    | halted hruns havoids hpc hn =>
      exact ⟨hruns, havoids.mono (Nat.le_succ n),
        .inr ⟨hn, havoids n (Nat.lt_succ_self n) m' hruns, hpc⟩⟩
    | limit hruns havoids => exact ⟨hruns, havoids, .inl rfl⟩
  · rintro ⟨hruns, havoids, rfl | ⟨hn, hne, hpc⟩⟩
    · exact .limit hruns havoids
    · exact .halted hruns (havoids.succ hruns hne) hpc hn

theorem runTo_eq_outsideMemory_iff :
    m.runTo rom target limit = (m', .error (.outsideMemory address pc)) ↔
      ∃ n m₁, m.RunsFor rom n m₁ ∧ Avoids rom target (n + 1) m ∧
        m₁.step rom = (m', .fault address pc) ∧ n < max limit 1 := by
  rw [runTo_eq_iff]
  constructor
  · intro h
    cases h with
    | fault hruns havoids hfault hn => exact ⟨_, _, hruns, havoids, hfault, hn⟩
  · rintro ⟨n, m₁, hruns, havoids, hfault, hn⟩
    exact .fault hruns havoids hfault hn

/-- **What the limits of runs mean.** No run tries more instructions than it is allowed, where one
is allowed at least. A run ends well exactly if it comes behind the last instruction with an
instruction to spare, and reports its limit exactly if all instructions are executed. A run to an
address ends well exactly if it comes there with an instruction to spare, and then with the first
cycle that leads there. It reports its limit exactly if it halts elsewhere, or has executed all
instructions without being at the address before the last of them. -/
theorem limits_of_runs (rom : Rom) (limit : Nat) (m : Machine) :
    (m.run rom limit).1.steps ≤ m.steps + max limit 1 ∧
    (∀ m' n, m.run rom limit = (m', .ok n) ↔
      m.RunsFor rom n m' ∧ rom.code.size ≤ m'.pc ∧ n < max limit 1) ∧
    (∀ m' n, m.run rom limit = (m', .error (.stepLimit n)) ↔
      n = limit ∧ m.RunsFor rom (max limit 1) m') ∧
    (∀ m' address pc, m.run rom limit = (m', .error (.outsideMemory address pc)) ↔
      ∃ n m₁, m.RunsFor rom n m₁ ∧ m₁.step rom = (m', .fault address pc) ∧ n < max limit 1) ∧
    ∀ target,
      (m.runTo rom target limit).1.steps ≤ m.steps + max limit 1 ∧
      (∀ m' n, m.runTo rom target limit = (m', .ok n) ↔
        m.RunsFor rom n m' ∧ m'.pc = target ∧ Avoids rom target n m ∧ n < max limit 1) ∧
      (∀ m' n, m.runTo rom target limit = (m', .error (.stepLimit n)) ↔
        m.RunsFor rom n m' ∧ Avoids rom target n m ∧
          (n = max limit 1 ∨ n < max limit 1 ∧ m'.pc ≠ target ∧ rom.code.size ≤ m'.pc)) ∧
      ∀ m' address pc, m.runTo rom target limit = (m', .error (.outsideMemory address pc)) ↔
        ∃ n m₁, m.RunsFor rom n m₁ ∧ Avoids rom target (n + 1) m ∧
          m₁.step rom = (m', .fault address pc) ∧ n < max limit 1 := by
  have hrun := (run_eq_iff.mp (Eq.refl (m.run rom limit))).steps_le
  refine ⟨hrun, fun m' n => run_eq_ok_iff, fun m' n => run_eq_stepLimit_iff,
    fun m' address pc => run_eq_outsideMemory_iff, fun target => ?_⟩
  have hrunTo := (runTo_eq_iff.mp (Eq.refl (m.runTo rom target limit))).steps_le
  exact ⟨hrunTo, fun m' n => runTo_eq_ok_iff, fun m' n => runTo_eq_stepLimit_iff,
    fun m' address pc => runTo_eq_outsideMemory_iff⟩

/-- Three instructions without a jump. -/
def threeLoads : Rom := ⟨#[.load 1, .load 2, .load 3], ∅, ∅⟩

/-- **A limit that is just enough is reported as too small.** Two instructions lead to address 2,
and a third one behind the program. A run that is allowed as many reports its limit, though the
machine is where the run was to lead; and a run that is allowed none executes one. -/
theorem exists_tight_limit :
    (∃ m', Machine.reset.RunsFor threeLoads 2 m' ∧ m'.pc = 2 ∧
      Machine.reset.runTo threeLoads 2 2 = (m', .error (.stepLimit 2))) ∧
    (∃ m', Machine.reset.RunsFor threeLoads 3 m' ∧ m'.pc = threeLoads.code.size ∧
      Machine.reset.run threeLoads 3 = (m', .error (.stepLimit 3))) ∧
    (Machine.reset.run threeLoads 0).1.steps = 1 :=
  ⟨⟨_, .succ rfl (.succ rfl (.zero _)), rfl, rfl⟩,
    ⟨_, .succ rfl (.succ rfl (.succ rfl (.zero _))), rfl, rfl⟩, rfl⟩

end Machine

end HackStack
