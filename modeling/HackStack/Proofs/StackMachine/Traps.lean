import HackStack.Proofs.StackMachine.Straight

/-!
# What can stop a loaded program

A program that has been translated stops before its end only for what its memory holds: a command
reaches for a word that the stack machine does not have, or a return address is not one that a call
has saved (`HackStack.StackMachine.Program.Loaded.ofMemory_of_traps`). Where a program goes on has
been declared, and its static variables have cells.
-/

namespace HackStack

open Assembly Statement

namespace StackMachine

variable {α β : Type}

/-- A trap that depends on what the memory holds. -/
def Trap.OfMemory (why : Trap) : Prop :=
  (∃ address, why = .memory address) ∨ ∃ back, why = .strayReturn back

/-- **An action is careful** if it traps only for what the memory holds. -/
def Careful (x : Action α) : Prop := ∀ seen why, (x seen).1 = .error why → why.OfMemory

/-! ### Careful actions -/

theorem careful_pure (a : α) : Careful (pure a) := fun _ _ h => by cases h

theorem Careful.bind {x : Action α} {f : α → Action β} (hx : Careful x) (hf : ∀ a, Careful (f a)) :
    Careful (x >>= f) := by
  intro seen why h
  rw [Step.bind_apply] at h
  rcases hfirst : x seen with ⟨why' | a, between⟩
  · rw [hfirst] at h
    cases h
    exact hx seen why (by rw [hfirst])
  · rw [hfirst] at h
    exact hf a between why h

theorem careful_load (w : Word) : Careful (load w) := by
  intro seen why h
  rw [load] at h
  split at h
  · cases h
  · cases h
    exact Or.inl ⟨w, rfl⟩

theorem careful_store (w v : Word) : Careful (store w v) := by
  intro seen why h
  rw [store] at h
  split at h
  · cases h
  · cases h
    exact Or.inl ⟨w, rfl⟩

theorem careful_push (v : Word) : Careful (push v) :=
  (careful_load _).bind fun _ => (careful_store _ _).bind fun _ =>
    (careful_load _).bind fun _ => careful_store _ _

theorem careful_pop : Careful pop :=
  (careful_load _).bind fun _ => (careful_store _ _).bind fun _ => careful_load _

theorem careful_top : Careful top := (careful_load _).bind fun _ => careful_load _

theorem careful_replaceTop (v : Word) : Careful (replaceTop v) :=
  (careful_load _).bind fun _ => careful_store _ _

theorem careful_pushZeros (count : Nat) : Careful (pushZeros count) := by
  induction count with
  | zero => exact careful_pure ()
  | succ count ih => exact (careful_push 0).bind fun _ => ih

theorem careful_savePointers (pointers : List Pointer) : Careful (savePointers pointers) := by
  induction pointers with
  | nil => exact careful_pure ()
  | cons p rest ih =>
    exact (careful_load _).bind fun _ => (careful_push _).bind fun _ => ih

theorem careful_restorePointers (frame : Word) (pointers : List Pointer) :
    Careful (restorePointers frame pointers) := by
  induction pointers with
  | nil => exact careful_pure ()
  | cons p rest ih =>
    exact (careful_load _).bind fun _ => (careful_store _ _).bind fun _ => ih

namespace Program

variable {P : Program} {rom : Rom} {sites : List Site} {k : Nat} {context : Context}
  {segment : Segment} {index : Nat} {denoted : Block.Target}

/-! ### Places in the program -/

theorem careful_goBack (back : Word) : Careful (P.goBack back) := by
  intro seen why h
  cases hfind : (List.range P.tasks.length).find? fun k => P.Saves back k with
  | none =>
    rw [goBack, hfind] at h
    cases h
    exact Or.inr ⟨back, rfl⟩
  | some k =>
    rw [goBack, hfind] at h
    cases h

/-- What has been declared is found. -/
theorem careful_goTo {label : Label}
    (h : ∃ entry ∈ P.tasks, label ∈ entry.1.labels entry.2.command) : Careful (P.goTo label) := by
  intro seen why htrap
  rw [goTo] at htrap
  generalize hfind : P.tasks.findIdx? _ = found at htrap
  cases found with
  | none =>
    obtain ⟨entry, hentry, hlabel⟩ := h
    have hmissing := List.findIdx?_eq_none_iff.mp hfind entry hentry
    exact absurd hlabel (by simpa using hmissing)
  | some next => cases htrap

/-- Calls of declared functions are careful. -/
theorem careful_call {name : String} (arguments : Nat)
    (h : ∃ entry ∈ P.tasks, .entry name ∈ entry.1.labels entry.2.command) :
    Careful (P.call k name arguments) :=
  (careful_push _).bind fun _ => (careful_savePointers _).bind fun _ =>
    (careful_load _).bind fun _ =>
    (careful_store _ _).bind fun _ => (careful_store _ _).bind fun _ => careful_goTo h

theorem careful_ret : Careful P.ret :=
  (careful_load _).bind fun _ => (careful_load _).bind fun _ => careful_pop.bind fun _ =>
    (careful_load _).bind fun _ => (careful_store _ _).bind fun _ =>
      (careful_store _ _).bind fun _ => (careful_restorePointers _ _).bind fun _ => careful_goBack _

/-! ### Segments -/

/-- There is a cell for each segment but `constant`. -/
theorem careful_locate (hconstant : segment ≠ .constant)
    (hstatic : segment = .static →
      ∃ name cell, context.standing.static? index = some name ∧ P.cell? name = some cell) :
    Careful (P.locate context.standing index segment) := by
  cases segment with
  | constant => exact absurd rfl hconstant
  | based p => exact (careful_load _).bind fun _ => careful_pure _
  | temp => exact careful_pure _
  | pointer => exact careful_pure _
  | static =>
    obtain ⟨name, cell, hname, hcell⟩ := hstatic rfl
    intro seen why h
    rw [locate, hname, Option.bind_some, hcell] at h
    cases h

theorem careful_fetch
    (hstatic : segment = .static →
      ∃ name cell, context.standing.static? index = some name ∧ P.cell? name = some cell) :
    Careful (P.fetch context.standing index segment) := by
  by_cases hconstant : segment = .constant
  · subst hconstant
    exact careful_pure _
  · have hload : P.fetch context.standing index segment =
        P.locate context.standing index segment >>= load := by
      cases segment <;> first | rfl | exact absurd rfl hconstant
    rw [hload]
    exact (careful_locate hconstant hstatic).bind careful_load

namespace Loaded

/-- The symbol of a static variable that code loads has a cell. -/
theorem exists_cell (hknown : P.KnowsStatic rom context.standing segment index)
    (htarget : Block.target context segment index = .ok denoted)
    (hloads : ∀ operand, denoted = .direct operand →
      ∃ base rest, rom.Holds base (.instruction (.address operand) :: rest)) :
    segment = .static →
      ∃ name cell, context.standing.static? index = some name ∧ P.cell? name = some cell := by
  rintro rfl
  obtain ⟨name, hname, rfl⟩ := target_static htarget
  obtain ⟨base, rest, hholds⟩ := hloads _ rfl
  obtain ⟨op, -, cell, hvalue, -⟩ := hholds.head
  exact ⟨name, cell, hname, (hknown rfl name hname) ▸ hvalue⟩

/-- **The tasks of a loaded program are careful**, if everything that it goes on at is declared. -/
theorem careful_perform {site : Site} (h : P.Loaded rom sites) (hclosed : P.Closed)
    (hsite : sites[k]? = some site) :
    Careful (P.perform k site.context.standing site.task) := by
  have hmem := List.mem_of_getElem? hsite
  have hholds := (h.places k site hsite).holds
  obtain ⟨context', hlowers⟩ := h.lowers site hmem
  have hstatic := h.static site hmem
  -- A label that the task goes to is declared, so that it is found.
  have htarget : ∀ label, site.context.standing.target? site.task.command = some label →
      ∃ entry ∈ P.tasks, label ∈ entry.1.labels entry.2.command := by
    refine hclosed (site.context.standing, site.task) ?_
    rw [h.tasks]
    exact List.mem_map_of_mem hmem
  obtain ⟨context, task, block⟩ := site
  dsimp only at hlowers ⊢
  cases hlowers with
  | startUp hbase hlowers =>
    exact (careful_store _ _).bind fun _ => careful_call 0 (htarget _ rfl)
  | written hlowers =>
    cases hlowers with
    | @push segment index denoted hdenoted =>
      have hknown : P.KnowsStatic rom context'.standing segment index := by
        rintro rfl
        exact hstatic
      refine (careful_fetch (exists_cell hknown hdenoted ?_)).bind fun _ =>
        (careful_push _).bind fun _ => careful_pure _
      rintro operand rfl
      exact ⟨_, _, hholds⟩
    | @pop segment index denoted _ hdenoted hblock =>
      have hknown : P.KnowsStatic rom context'.standing segment index := by
        rintro rfl
        exact hstatic
      have hconstant := Block.ne_constant_of_popTo hdenoted hblock
      refine (careful_locate hconstant (exists_cell hknown hdenoted ?_)).bind fun _ =>
        careful_pop.bind fun _ => (careful_store _ _).bind fun _ => careful_pure _
      rintro operand rfl
      cases hblock
      exact ⟨_, _, hholds.right⟩
    | unary op =>
      exact careful_top.bind fun _ => (careful_replaceTop _).bind fun _ => careful_pure _
    | binary op =>
      exact careful_pop.bind fun _ => careful_top.bind fun _ =>
        (careful_replaceTop _).bind fun _ => careful_pure _
    | comparison op hholdsFree hdoneFree =>
      exact careful_pop.bind fun _ => careful_top.bind fun _ =>
        (careful_replaceTop _).bind fun _ => careful_pure _
    | label hfree => exact careful_pure _
    | goto target => exact careful_goTo (htarget _ rfl)
    | ifGoto target =>
      refine careful_pop.bind fun v => ?_
      split
      · exact careful_pure _
      · exact careful_goTo (htarget _ rfl)
    | function hfree => exact (careful_pushZeros _).bind fun _ => careful_pure _
    | call hreach hfree => exact careful_call _ (htarget _ rfl)
    | ret hscope => exact careful_ret

/-- **A loaded program traps only for what its memory holds.** -/
theorem ofMemory_of_traps {s : State} {why : Trap} (h : P.Loaded rom sites) (hclosed : P.Closed)
    (htraps : P.Traps s why) : why.OfMemory := by
  obtain ⟨standing, task, htask, htrap⟩ := htraps
  obtain ⟨site, hsite, rfl, rfl⟩ := h.exists_site htask
  exact h.careful_perform hclosed hsite _ _ htrap

end Loaded

end Program

end StackMachine

end HackStack
