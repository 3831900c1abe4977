import HackStack.Proofs.Rom.Access

/-!
# Code that spares a cell

Straight code spares a memory cell if none of its instructions writes the cell, in whatever program
the code stands and wherever it faults. `HackStack.Core.Spares` says so with a condition on what the
code leads to, so that code can be taken part by part (`HackStack.Core.spares_append`). As long as
the machine is in the code, the cell holds the word that it held before
(`HackStack.Machine.read_of_spares`).

The names in the code need not be legible. The line of a symbol loads some number in any case
(`HackStack.Rom.Loads`), which only for a predefined symbol is known beforehand.
-/

namespace HackStack

open Assembly Statement

/-! ### What lines are read as -/

/-- **A statement of a program that has been assembled**: it stands on one line, which has been read
if there is code on it. -/
structure Assembly.Statement.Found (s : Statement) : Prop where
  newline_not_mem : '\n' ∉ s.render.toList
  written : s.WrittenWith (fun name => '\n' ∉ name.toList) ∨ ∃ name, s = symbol name
  read : s.isComment = false → ∃ s', statementOn? s.render.toList = some s'

/-- The line of a statement other than a comment holds code. -/
theorem code_render_ne_nil {s : Statement} (hs : s.isComment = false)
    (h : s.WrittenWith (fun name => '\n' ∉ name.toList) ∨ ∃ name, s = symbol name) :
    Text.code s.render.toList ≠ [] := by
  have starts : ∀ (c : Char) (text : List Char), Text.isBlank c = false → c ≠ '/' →
      s.render.toList = c :: text → Text.code s.render.toList ≠ [] := by
    intro c text hc hslash hrender
    obtain ⟨rest, hcode⟩ := exists_code_cons hc hslash text
    rw [hrender, hcode]
    exact List.cons_ne_nil _ _
  have plain : s.Plain → Text.code s.render.toList ≠ [] := fun h => (h.legible.read_code hs).1
  match s with
  | instruction (.address (.number n)) =>
    exact plain (h.resolve_right (by simp [symbol]))
  | instruction (.address (.symbol name)) =>
    exact starts '@' name.toList (by decide) (by decide) (toList_render_symbol name)
  | instruction (.compute fields) => exact plain trivial
  | label name => exact starts '(' _ (by decide) (by decide) (toList_render_label name)
  | comment text => exact absurd hs Bool.noConfusion

/-- **The statements of a listing that is assembled** have been found. -/
theorem found_of_assemble {code : List Statement} {rom : Rom}
    (hrom : assemble (listing code) = .ok rom) (hline : ∀ s ∈ code, '\n' ∉ s.render.toList)
    (hwritten : ∀ s ∈ code,
      s.WrittenWith (fun name => '\n' ∉ name.toList) ∨ ∃ name, s = symbol name) :
    ∀ s ∈ code, s.Found := by
  intro s hs
  refine ⟨hline s hs, hwritten s hs, fun hcomment => ?_⟩
  have hcode := code_render_ne_nil hcomment (hwritten s hs)
  obtain ⟨s', hread⟩ := Layout.read_of_assemble hline hrom hs hcode
  refine ⟨s', ?_⟩
  rw [statementOn?, if_neg (by simpa using hcode), hread]
  rfl

/-- **As many instructions are found as were written.** -/
theorem Assembly.Statement.Found.addressBehind_eq {s : Statement} (h : s.Found) :
    addressBehind [s] = size [s] := by
  have plain : s.Plain → addressBehind [s] = size [s] := fun hplain =>
    addressBehind_eq_size fun _ hmem => List.mem_singleton.mp hmem ▸ hplain
  have found : ∀ s s', s.Found → statementOn? s.render.toList = some s' →
      addressBehind [s] = size [s'] := by
    intro s s' h hread
    rw [addressBehind, statementsOf_singleton h.newline_not_mem, hread]
    rfl
  cases s with
  | instruction i =>
    rcases i with (n | name) | fields
    · exact plain (h.written.resolve_right (by simp [symbol]))
    · obtain ⟨s', hread⟩ := h.read rfl
      obtain ⟨operand, rfl⟩ := exists_of_statementOn?_address ((toList_render_symbol name) ▸ hread)
      exact (found _ _ h hread).trans rfl
    · exact plain trivial
  | label name =>
    obtain ⟨s', hread⟩ := h.read rfl
    obtain ⟨name', rfl⟩ := exists_of_statementOn?_label ((toList_render_label name) ▸ hread)
    exact (found _ _ h hread).trans rfl
  | comment text => exact plain (h.written.resolve_right (by simp [symbol]))

/-- As many instructions are found in code as were written. -/
theorem addressBehind_of_found {code : List Statement} (h : ∀ s ∈ code, s.Found) :
    addressBehind code = size code := by
  induction code with
  | nil => rfl
  | cons s rest ih =>
    obtain ⟨hs, hrest⟩ := List.forall_mem_cons.mp h
    rw [← List.singleton_append, addressBehind_append, size_append, hs.addressBehind_eq, ih hrest]

/-- **The line of a symbol loads a number**: that of the operand that the assembler has read
there. -/
def Rom.Loads (rom : Rom) (name : String) (n : Nat) : Prop :=
  ∃ operand, statementOn? (symbol name).render.toList = some (.instruction (.address operand)) ∧
    operand.value? rom = some n

section

variable {rom : Rom} {name : String} {n k pc : Nat} {rest : Block}

/-- A symbol loads one number only. -/
theorem Rom.Loads.unique (h : rom.Loads name n) (h' : rom.Loads name k) : n = k := by
  obtain ⟨operand, hread, hvalue⟩ := h
  obtain ⟨operand', hread', hvalue'⟩ := h'
  obtain rfl : operand = operand' := by simpa using hread.symm.trans hread'
  exact Option.some.inj (hvalue.symm.trans hvalue')

/-- **A legible symbol** loads what it stands for. -/
theorem LegibleName.loads (hname : LegibleName name) (hvalue : rom.value? name = some n) :
    rom.Loads name n :=
  ⟨.symbol name, hname.symbol.statementOn?_eq, hvalue⟩

/-- **A symbol in a program** loads the number that the program holds where the symbol stands. -/
theorem Rom.Holds.exists_loads (hfound : (symbol name).Found)
    (h : rom.Holds pc (statementsOf (listing (symbol name :: rest)))) :
    ∃ n, rom.Loads name n ∧ rom.code[pc]? = some (.load n) := by
  obtain ⟨s, hread⟩ := hfound.read rfl
  obtain ⟨operand, rfl⟩ := exists_of_statementOn?_address ((toList_render_symbol name) ▸ hread)
  rw [← List.singleton_append, statementsOf_append, statementsOf_singleton hfound.newline_not_mem,
    hread] at h
  obtain ⟨op, hop, hlinks⟩ := h.head
  cases operand with
  | number n => exact ⟨n, ⟨_, hread, rfl⟩, hlinks ▸ hop⟩
  | symbol name' =>
    obtain ⟨n, hvalue, rfl⟩ := hlinks
    exact ⟨n, ⟨_, hread, hvalue⟩, hop⟩

/-- What stands behind a statement in a program. -/
theorem Rom.Holds.behind {s : Statement} (hfound : s.Found)
    (h : rom.Holds pc (statementsOf (listing (s :: rest)))) :
    rom.Holds (pc + size [s]) (statementsOf (listing rest)) := by
  rw [← List.singleton_append, statementsOf_append] at h
  rw [← hfound.addressBehind_eq]
  exact h.right

end

/-! ### Straight code -/

namespace Core

/-- **Straight code spares a cell**: no instruction writes it, and what the code leads to satisfies
`Q`. An instruction that would fault leads nowhere. -/
def Spares (rom : Rom) (w : Word) (Q : Core → Prop) : Block → Core → Prop
  | [], c => Q c
  | .instruction (.address (.number n)) :: rest, c =>
    Spares rom w Q rest { c with a := Word.ofNat n }
  | .instruction (.address (.symbol name)) :: rest, c =>
    ∀ n, rom.Loads name n → Spares rom w Q rest { c with a := Word.ofNat n }
  | .instruction (.compute ⟨some dest, comp, none⟩) :: rest, c =>
    c.Reaches dest comp →
      (dest.writesM = true → c.a ≠ w) ∧ Spares rom w Q rest (c.assign dest comp)
  | .instruction (.compute _) :: _, _ => False
  | .label _ :: rest, c | .comment _ :: rest, c => Spares rom w Q rest c

variable {rom : Rom} {w : Word} {Q Q' : Core → Prop} {block rest : Block} {c : Core}

/-- **Code spares a cell part by part.** -/
theorem spares_append : c.Spares rom w Q (block ++ rest) ↔
    c.Spares rom w (fun c' => c'.Spares rom w Q rest) block := by
  induction block generalizing c with
  | nil => exact Iff.rfl
  | cons s block ih =>
    match s with
    | .instruction (.address (.number n)) => exact ih
    | .instruction (.address (.symbol name)) => exact forall₂_congr fun n _ => ih
    | .instruction (.compute ⟨some dest, comp, none⟩) =>
      exact forall_congr' fun _ => and_congr_right fun _ => ih
    | .instruction (.compute ⟨none, comp, jump⟩) => exact Iff.rfl
    | .instruction (.compute ⟨some dest, comp, some jump⟩) => exact Iff.rfl
    | .label name => exact ih
    | .comment text => exact ih

/-- Less can be asked of what the code leads to. -/
theorem Spares.mono (h : c.Spares rom w Q block) (hQ : ∀ c', Q c' → Q' c') :
    c.Spares rom w Q' block := by
  induction block generalizing c with
  | nil => exact hQ c h
  | cons s block ih =>
    match s with
    | .instruction (.address (.number n)) => exact ih h
    | .instruction (.address (.symbol name)) => exact fun n hn => ih (h n hn)
    | .instruction (.compute ⟨some dest, comp, none⟩) =>
      exact fun hreaches => ⟨(h hreaches).1, ih (h hreaches).2⟩
    | .instruction (.compute ⟨none, comp, jump⟩) => exact h.elim
    | .instruction (.compute ⟨some dest, comp, some jump⟩) => exact h.elim
    | .label name => exact ih h
    | .comment text => exact ih h

end Core

namespace Machine

variable {rom : Rom} {w : Word} {Q : Core → Prop} {block : Block} {c : Core} {m : Machine}
  {pc steps n : Nat}

/-- An assignment that has been executed had its memory word. -/
theorem reaches_of_ran {dest : Dest} {comp : Comp}
    (h : execute (.compute ⟨some dest, comp, none⟩) (c.at pc steps) = (m, .ran)) :
    c.Reaches dest comp := by
  intro huses
  refine Decidable.byContradiction fun hnegative => ?_
  have hfault : ((⟨some dest, comp, none⟩ : Compute).usesMemory &&
      (c.at pc steps).a.cell?.isNone) = true := by
    rw [Bool.and_eq_true]
    refine ⟨huses, ?_⟩
    rw [show (c.at pc steps).a.cell? = none from Word.cell?_eq_none hnegative]
    rfl
  rw [execute, if_pos hfault] at h
  cases (Prod.mk.inj h).2

/-- **The cell that straight code spares keeps its word** as long as the machine is in the code,
which it goes through from its first instruction on. -/
theorem read_of_spares (hfound : ∀ s ∈ block, s.Found)
    (hholds : rom.Holds pc (statementsOf (listing block))) (h : c.Spares rom w Q block)
    (hn : n ≤ size block) (hruns : RunsFor rom n (c.at pc steps) m) :
    m.pc = pc + n ∧ m.memory.read w = c.memory.read w := by
  induction block generalizing c pc steps n with
  | nil =>
    obtain rfl := Nat.le_zero.mp hn
    cases hruns
    exact ⟨rfl, rfl⟩
  | cons s block ih =>
    obtain ⟨hs, hblock⟩ := List.forall_mem_cons.mp hfound
    have hbehind := hholds.behind hs
    -- An instruction is one cycle, and the rest follows it.
    have one : ∀ {i : Instruction}, s = .instruction i →
        (∀ m', (c.at pc steps).step rom = (m', .ran) → ∃ between : Core,
          m' = between.at (pc + 1) (steps + 1) ∧ between.memory.read w = c.memory.read w ∧
            between.Spares rom w Q block) →
        m.pc = pc + n ∧ m.memory.read w = c.memory.read w := by
      rintro i rfl hstep
      cases hruns with
      | zero => exact ⟨rfl, rfl⟩
      | @succ n m' _ _ hran hrest =>
        obtain ⟨between, rfl, hkept, hspares⟩ := hstep _ hran
        rw [size_instruction] at hn
        obtain ⟨hpc, hread⟩ := ih hblock hbehind hspares (Nat.le_of_succ_le_succ hn) hrest
        exact ⟨hpc.trans (Nat.add_right_comm pc 1 n), hread.trans hkept⟩
    match s with
    | .instruction (.address (.number k)) =>
      have hplain : (Statement.instruction (.address (.number k))).Plain :=
        hs.written.resolve_right (by simp [symbol])
      rw [statementsOf_cons hplain.legible] at hholds
      obtain ⟨op, hop, rfl⟩ := hholds.head
      refine one rfl fun m' hran => ⟨{ c with a := Word.ofNat k }, ?_, rfl, h⟩
      exact (Prod.mk.inj (hran.symm.trans (step_of_getElem? hop))).1
    | .instruction (.address (.symbol name)) =>
      obtain ⟨k, hloads, hop⟩ := Rom.Holds.exists_loads hs hholds
      refine one rfl fun m' hran => ⟨{ c with a := Word.ofNat k }, ?_, rfl, h k hloads⟩
      exact (Prod.mk.inj (hran.symm.trans (step_of_getElem? hop))).1
    | .instruction (.compute ⟨some dest, comp, none⟩) =>
      have hplain : (Statement.instruction (.compute ⟨some dest, comp, none⟩)).Plain := trivial
      rw [statementsOf_cons hplain.legible] at hholds
      obtain ⟨op, hop, rfl⟩ := hholds.head
      refine one rfl fun m' hran => ?_
      rw [step_of_getElem? hop] at hran
      have hreaches := reaches_of_ran hran
      obtain ⟨hspared, hrest⟩ := h hreaches
      rw [execute_assign hreaches] at hran
      refine ⟨_, (Prod.mk.inj hran).1.symm, ?_, hrest⟩
      rw [Core.assign]
      split
      next hwrites => exact Memory.read_write_of_ne (hspared hwrites)
      next => rfl
    | .instruction (.compute ⟨none, comp, jump⟩) => exact h.elim
    | .instruction (.compute ⟨some dest, comp, some jump⟩) => exact h.elim
    | .label name => exact ih hblock hbehind h ((size_label name block) ▸ hn) hruns
    | .comment text => exact ih hblock hbehind h ((size_comment text block) ▸ hn) hruns

end Machine

end HackStack
