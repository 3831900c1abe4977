import HackStack.Proofs.Block.Exec

/-!
# What is in a frame

A call pushes the return address and the four pointers, and a return takes them back. This file
reads the words of the memories that the two leave behind: `HackStack.Memory.called_frame` for the
frame that a call has built, and `HackStack.Memory.returned_frame` for what a return makes of a
frame.

Both come from an induction over the list of pointers, in the order in which the code goes through
them. All words that are not named are unchanged. What a function does meanwhile must keep what the
frames have saved (`HackStack.Memory.Keeps`); pushing does, and so does popping to a cell outside of
them.
-/

namespace HackStack

/-! ### Pointers -/

namespace Pointer

/-- Every pointer has a cell of its own. -/
theorem cell_injective {p q : Pointer} (h : Word.ofNat p.cell = Word.ofNat q.cell) : p = q := by
  revert h
  cases p <;> cases q <;> decide

theorem frameOffset_bounds (p : Pointer) : 0 < p.frameOffset ∧ p.frameOffset < 5 := by
  cases p <;> decide

/-- A call saves the pointers from the bottom of the frame on. -/
theorem all_getElem? (p : Pointer) : all[4 - p.frameOffset]? = some p := by
  cases p <;> rfl

/-- A return restores them from the top of the frame on. -/
theorem restored_getElem? (p : Pointer) : restored[p.frameOffset - 1]? = some p := by
  cases p <;> rfl

end Pointer

namespace Memory

variable {memory : Memory} {w v : Word} {s : Nat}

/-! ### Pushing -/

theorem read_pushed_of_ne (h0 : w ≠ Word.ofNat 0) (hsp : w ≠ memory.sp) :
    (memory.pushed v).read w = memory.read w := by
  rw [pushed, read_write_of_ne h0.symm, read_write_of_ne hsp.symm]

/-- The stack pointer behind a push. -/
theorem sp_pushed (hsp : memory.sp = Word.ofNat s) (hs : 0 < s) (hs' : s < 32768) :
    (memory.pushed v).sp = Word.ofNat (s + 1) := by
  have hne : Word.ofNat s ≠ Word.ofNat 0 := Word.ofNat_ne (by omega)
  rw [pushed, sp, read_write_self (Word.addresses_ofNat (by decide)), sp, hsp,
    read_write_of_ne hne]
  change memory.sp + 1 = _
  rw [hsp]
  bv_omega

/-- The word that was pushed. -/
theorem read_pushed (hsp : memory.sp = Word.ofNat s) (hs : 0 < s) (hs' : s < 32768) :
    (memory.pushed v).read (Word.ofNat s) = v := by
  have hne : Word.ofNat 0 ≠ Word.ofNat s := Word.ofNat_ne (by omega)
  rw [pushed, read_write_of_ne hne, hsp, read_write_self (Word.addresses_ofNat hs')]

/-- **Zeros that are pushed** lie from the stack pointer on. -/
theorem zeroed_frame {count : Nat} (hsp : memory.sp = Word.ofNat s)
    (h : ∀ i < count, 0 < s + i ∧ s + i < 32768) :
    (memory.zeroed count).sp = Word.ofNat (s + count) ∧
      (∀ i < count, (memory.zeroed count).read (Word.ofNat (s + i)) = 0) ∧
      ∀ w, w ≠ Word.ofNat 0 → (∀ i < count, w ≠ Word.ofNat (s + i)) →
        (memory.zeroed count).read w = memory.read w := by
  induction count generalizing memory s with
  | zero => exact ⟨hsp, fun i hi => absurd hi (Nat.not_lt_zero i), fun w _ _ => rfl⟩
  | succ count ih =>
    obtain ⟨hs, hs'⟩ := h 0 (Nat.succ_pos count)
    have hslots : ∀ i < count, 0 < s + 1 + i ∧ s + 1 + i < 32768 := by
      intro i hi
      have hslot := h (i + 1) (Nat.succ_lt_succ hi)
      omega
    obtain ⟨hend, hzeros, hothers⟩ := ih (sp_pushed hsp hs hs') hslots
    -- Behind the first push, the slots of the rest lie one further up.
    have hshift : ∀ i, s + (i + 1) = s + 1 + i := fun i => by omega
    refine ⟨?_, ?_, ?_⟩
    · rw [zeroed, hend, Nat.add_right_comm]
      rfl
    · intro i hi
      rw [zeroed]
      cases i with
      | zero =>
        rw [Nat.add_zero, hothers _ (Word.ofNat_ne (by omega))
          fun i hi => Word.ofNat_ne (by have := hslots i hi; omega)]
        exact read_pushed hsp hs hs'
      | succ i =>
        rw [hshift]
        exact hzeros i (Nat.lt_of_succ_lt_succ hi)
    · intro w h0 hw
      rw [zeroed, hothers w h0 fun i hi => hshift i ▸ hw (i + 1) (Nat.succ_lt_succ hi)]
      exact read_pushed_of_ne h0 (hsp ▸ hw 0 (Nat.succ_pos count))

/-- **Pointers that are pushed** lie in their order from the stack pointer on. -/
theorem saved_frame {pointers : List Pointer} (hsp : memory.sp = Word.ofNat s) (hs : 16 ≤ s)
    (hfits : s + pointers.length ≤ 32768) :
    CanSave pointers memory ∧
      (memory.saved pointers).sp = Word.ofNat (s + pointers.length) ∧
      (∀ i p, pointers[i]? = some p →
        (memory.saved pointers).read (Word.ofNat (s + i)) = memory.read (Word.ofNat p.cell)) ∧
      ∀ w, w ≠ Word.ofNat 0 → (∀ i < pointers.length, w ≠ Word.ofNat (s + i)) →
        (memory.saved pointers).read w = memory.read w := by
  induction pointers generalizing memory s with
  | nil => exact ⟨trivial, hsp, fun i p h => absurd h (by simp), fun w _ _ => rfl⟩
  | cons p rest ih =>
    rw [List.length_cons] at hfits
    have hpushed := @sp_pushed memory (memory.read (Word.ofNat p.cell)) s hsp (by omega) (by omega)
    obtain ⟨hcan, hsp', hwords, hothers⟩ := ih hpushed (by omega) (by omega)
    -- The push leaves the pointers as they are, so the rest is saved from where it was.
    have hcell : ∀ q : Pointer, (memory.pushed (memory.read (Word.ofNat p.cell))).read
        (Word.ofNat q.cell) = memory.read (Word.ofNat q.cell) := by
      intro q
      have hq := q.cell_bounds
      refine read_pushed_of_ne ?_ ?_
      · exact Word.ofNat_ne (by omega)
      · rw [hsp]
        exact Word.ofNat_ne (by omega)
    refine ⟨⟨?_, hcan⟩, ?_, fun i q hq => ?_, fun w h0 hw => ?_⟩
    · rw [hsp]
      exact Word.addresses_ofNat (by omega)
    · rw [saved, hsp', List.length_cons, Nat.add_right_comm, Nat.add_assoc]
    · cases i with
      | zero =>
        obtain rfl := Option.some.inj hq
        rw [saved, Nat.add_zero, hothers _ (Word.ofNat_ne (by omega))
          fun i hi => Word.ofNat_ne (by omega)]
        exact read_pushed hsp (by omega) (by omega)
      | succ i =>
        rw [saved, ← hcell q, ← hwords i q hq, Nat.add_right_comm, Nat.add_assoc]
    · have hfirst : w ≠ memory.sp := by
        rw [hsp]
        exact hw 0 (by simp)
      rw [saved, hothers w h0 fun i hi => ?_]
      · exact read_pushed_of_ne h0 hfirst
      · have hnext := hw (i + 1) (by simpa using hi)
        rwa [Nat.add_right_comm, Nat.add_assoc]

/-! ### Calling -/

/-- **The frame of a function**, above `arguments` arguments and from the cell `s` on: the return
address, and the pointers of the caller. -/
structure Frame (memory : Memory) (s arguments : Nat) (back : Word) (caller : Pointer → Word) :
    Prop where
  locals : memory.read (Word.ofNat 1) = Word.ofNat (s + 5)
  arguments : memory.read (Word.ofNat 2) = Word.ofNat (s - arguments)
  back : memory.read (Word.ofNat s) = back
  saved : ∀ p : Pointer, memory.read (Word.ofNat (s + 5 - p.frameOffset)) = caller p

/-- **A call builds a frame**, and changes nothing else but the stack pointer. -/
theorem called_frame {address arguments : Nat} (hsp : memory.sp = Word.ofNat s)
    (hs : arguments + 16 ≤ s) (hfits : s + 5 ≤ 32768) :
    CanSave Pointer.all (memory.pushed (Word.ofNat address)) ∧
      (memory.called address arguments).Frame s arguments (Word.ofNat address)
        (fun p => memory.read (Word.ofNat p.cell)) ∧
      (memory.called address arguments).sp = Word.ofNat (s + 5) ∧
      ∀ w, w ≠ Word.ofNat 0 → w ≠ Word.ofNat 1 → w ≠ Word.ofNat 2 →
        (∀ i < 5, w ≠ Word.ofNat (s + i)) →
        (memory.called address arguments).read w = memory.read w := by
  have hpushed := @sp_pushed memory (Word.ofNat address) s hsp (by omega) (by omega)
  have hlength : Pointer.all.length = 4 := rfl
  obtain ⟨hcan, hsp', hwords, hothers⟩ := @saved_frame _ _ Pointer.all hpushed (by omega) (by omega)
  rw [hlength] at hsp' hothers
  -- The two pointers that are set last lie in none of the slots that were pushed.
  have hframed : ∀ w, w ≠ Word.ofNat 1 → w ≠ Word.ofNat 2 →
      (memory.called address arguments).read w =
        ((memory.pushed (Word.ofNat address)).saved Pointer.all).read w := by
    intro w h1 h2
    rw [called, framed, read_write_of_ne h1.symm, read_write_of_ne h2.symm]
  have hsaved : ∀ p : Pointer, (memory.called address arguments).read
      (Word.ofNat (s + 5 - p.frameOffset)) = memory.read (Word.ofNat p.cell) := by
    intro p
    have hcell := p.cell_bounds
    have hbounds := p.frameOffset_bounds
    have hoffset : s + 5 - p.frameOffset = s + 1 + (4 - p.frameOffset) := by omega
    rw [hoffset, hframed _ (Word.ofNat_ne (by omega))
      (Word.ofNat_ne (by omega)), hwords _ p p.all_getElem?]
    refine read_pushed_of_ne (Word.ofNat_ne (by omega)) ?_
    rw [hsp]
    exact Word.ofNat_ne (by omega)
  have hzero : Word.ofNat 0 ≠ Word.ofNat 1 ∧ Word.ofNat 0 ≠ Word.ofNat 2 := by decide
  have hends : (memory.called address arguments).sp = Word.ofNat (s + 5) := by
    rw [sp, hframed _ hzero.1 hzero.2]
    exact hsp'
  refine ⟨hcan, ⟨?_, ?_, ?_, hsaved⟩, hends, fun w h0 h1 h2 hw => ?_⟩
  · rw [called, framed, read_write_self (Word.addresses_ofNat (by decide)), sp,
      read_write_of_ne hzero.2.symm]
    exact hsp'
  · rw [called, framed, read_write_of_ne (by decide),
      read_write_self (Word.addresses_ofNat (by decide)), hsp']
    change Word.ofNat (s + 5) - Word.ofNat (arguments + 5) = Word.ofNat (s - arguments)
    bv_omega
  · rw [hframed _ (Word.ofNat_ne (by omega))
      (Word.ofNat_ne (by omega)), hothers _
      (Word.ofNat_ne (by omega))
      fun i hi => Word.ofNat_ne (by omega)]
    exact read_pushed hsp (by omega) (by omega)
  · rw [hframed w h1 h2, hothers w h0 fun i hi => ?_]
    · exact read_pushed_of_ne h0 (hsp ▸ hw 0 (by decide))
    · have hnext := hw (i + 1) (by omega)
      rwa [Nat.add_right_comm, Nat.add_assoc]

/-! ### Returning -/

/-- Restoring a pointer changes its cell and the scratch cell that goes down. -/
theorem read_restored_of_ne {p : Pointer} (h14 : w ≠ Word.ofNat 14) (hp : w ≠ Word.ofNat p.cell) :
    (memory.restored p).read w = memory.read w := by
  rw [restored, read_write_of_ne hp.symm, read_write_of_ne h14.symm]

/-- Restoring pointers changes their cells and the scratch cell that goes down. -/
theorem read_restoreds_of_ne {pointers : List Pointer} (h14 : w ≠ Word.ofNat 14)
    (hp : ∀ p ∈ pointers, w ≠ Word.ofNat p.cell) :
    (pointers.foldl restored memory).read w = memory.read w := by
  induction pointers generalizing memory with
  | nil => rfl
  | cons p rest ih =>
    obtain ⟨hfirst, hrest⟩ := List.forall_mem_cons.mp hp
    rw [List.foldl_cons, ih hrest, read_restored_of_ne h14 hfirst]

/-- **Pointers are restored** from the words below where the scratch cell points, from above to
below. -/
theorem restoreds_frame {pointers : List Pointer} (hn : pointers.Nodup)
    (hscratch : memory.read (Word.ofNat 14) = Word.ofNat s) (hs : 16 + pointers.length ≤ s)
    (hfits : s ≤ 32768) :
    CanRestore pointers memory ∧ ∀ i p, pointers[i]? = some p →
      (pointers.foldl restored memory).read (Word.ofNat p.cell) =
        memory.read (Word.ofNat (s - (i + 1))) := by
  induction pointers generalizing memory s with
  | nil => exact ⟨trivial, fun i p h => absurd h (by simp)⟩
  | cons p rest ih =>
    obtain ⟨hp, hrest⟩ := List.nodup_cons.mp hn
    rw [List.length_cons] at hs
    have hbelow : memory.read (Word.ofNat 14) - 1 = Word.ofNat (s - 1) := by
      rw [hscratch]
      bv_omega
    have hcell := p.cell_bounds
    have hdown : (memory.restored p).read (Word.ofNat 14) = Word.ofNat (s - 1) := by
      have hne : Word.ofNat p.cell ≠ Word.ofNat 14 :=
        Word.ofNat_ne (by omega)
      rw [restored, read_write_of_ne hne, read_write_self (Word.addresses_ofNat (by decide)),
        hbelow]
    obtain ⟨hcan, hwords⟩ := ih hrest hdown (by omega) (by omega)
    refine ⟨⟨?_, hcan⟩, fun i q hq => ?_⟩
    · rw [hbelow]
      exact Word.addresses_ofNat (by omega)
    · cases i with
      | zero =>
        obtain rfl := Option.some.inj hq
        -- No pointer is named twice, so what is restored later leaves this one alone.
        have hothers : ∀ q ∈ rest, Word.ofNat p.cell ≠ Word.ofNat q.cell :=
          fun q hmem he => hp (Pointer.cell_injective he ▸ hmem)
        rw [List.foldl_cons, read_restoreds_of_ne
          (Word.ofNat_ne (by omega)) hothers, restored,
          read_write_self (Word.addresses_ofNat (by omega)), hbelow, read_write_of_ne]
        exact Word.ofNat_ne (by omega)
      | succ i =>
        have hq' : rest[i]? = some q := hq
        have hlt : i < rest.length := (List.getElem?_eq_some_iff.mp hq').1
        rw [List.foldl_cons, hwords i q hq', read_restored_of_ne
          (Word.ofNat_ne (by omega))
          (Word.ofNat_ne (by omega)), Nat.sub_sub, Nat.add_comm 1]

/-- Putting down where the frame is changes two scratch cells. -/
theorem read_noted_of_ne (h14 : w ≠ Word.ofNat 14) (h15 : w ≠ Word.ofNat 15) :
    memory.noted.read w = memory.read w := by
  rw [noted, read_write_of_ne h15.symm, read_write_of_ne h14.symm]

theorem read_noted_frameBase :
    memory.noted.read (Word.ofNat 14) = memory.read (Word.ofNat 1) := by
  rw [noted, read_write_of_ne (by decide), read_write_self (Word.addresses_ofNat (by decide))]

theorem read_noted_returnAddress
    (h : memory.read (Word.ofNat 1) - Word.ofNat MemoryMap.frameSize ≠ Word.ofNat 14) :
    memory.noted.read (Word.ofNat 15) =
      memory.read (memory.read (Word.ofNat 1) - Word.ofNat MemoryMap.frameSize) := by
  rw [noted, read_write_self (Word.addresses_ofNat (by decide)), read_write_of_ne h.symm]

/-- Delivering the result changes the stack pointer and the cell of argument 0. -/
theorem read_delivered_of_ne (h0 : w ≠ Word.ofNat 0) (h : w ≠ memory.popped.read (Word.ofNat 2)) :
    memory.delivered.read w = memory.read w := by
  rw [delivered, read_write_of_ne h0.symm, read_write_of_ne h.symm, popped,
    read_write_of_ne h0.symm]

/-- Unwinding changes pointers and a scratch cell. -/
theorem read_returned_of_ne (h14 : w ≠ Word.ofNat 14) (hw : 4 < w.toNat ∨ w.toNat = 0) :
    memory.returned.read w = memory.noted.delivered.read w := by
  refine read_restoreds_of_ne h14 ?_
  rintro p - rfl
  have hcell := p.cell_bounds
  rw [Word.toNat_ofNat (by omega)] at hw
  omega

section

variable {arguments : Nat} {back : Word} {caller : Pointer → Word}

/-- The frame of a function lies below its locals. -/
theorem Frame.locals_sub (h : memory.Frame s arguments back caller) :
    memory.read (Word.ofNat 1) - Word.ofNat MemoryMap.frameSize = Word.ofNat s := by
  rw [h.locals]
  change Word.ofNat (s + 5) - Word.ofNat 5 = Word.ofNat s
  bv_omega

/-- The result is delivered to the cell of argument 0. -/
theorem Frame.read_popped_noted (h : memory.Frame s arguments back caller) :
    memory.noted.popped.read (Word.ofNat 2) = Word.ofNat (s - arguments) := by
  rw [popped, read_write_of_ne (by decide), read_noted_of_ne (by decide) (by decide), h.arguments]

/-- What was put down of the frame is still there when the result has been delivered. -/
theorem Frame.read_delivered_frameBase (h : memory.Frame s arguments back caller)
    (hs : arguments + 16 ≤ s) (hfits : s < 32768) :
    memory.noted.delivered.read (Word.ofNat 14) = Word.ofNat (s + 5) := by
  rw [read_delivered_of_ne (by decide), read_noted_frameBase, h.locals]
  rw [h.read_popped_noted]
  exact Word.ofNat_ne (by omega)

/-- **The return address** is where it was put down. -/
theorem Frame.read_returned_returnAddress (h : memory.Frame s arguments back caller)
    (hs : arguments + 16 ≤ s) (hfits : s < 32768) :
    memory.returned.read (Word.ofNat 15) = back := by
  rw [read_returned_of_ne (by decide) (Or.inl (by decide)), read_delivered_of_ne (by decide),
    read_noted_returnAddress, h.locals_sub, h.back]
  · rw [h.locals_sub]
    exact Word.ofNat_ne (by omega)
  · rw [h.read_popped_noted]
    exact Word.ofNat_ne (by omega)

/-- **The pointers of the caller** are restored from the frame, which the delivery of the result
leaves alone. -/
theorem Frame.read_returned_cell (h : memory.Frame s arguments back caller)
    (hs : arguments + 16 ≤ s) (hfits : s + 6 ≤ 32768) :
    CanRestore Pointer.restored memory.noted.delivered ∧
      ∀ p : Pointer, memory.returned.read (Word.ofNat p.cell) = caller p := by
  obtain ⟨hcan, hrestored⟩ := @restoreds_frame _ _ Pointer.restored (by decide)
    (h.read_delivered_frameBase hs (by omega)) (by change 16 + 4 ≤ s + 5; omega) (by omega)
  refine ⟨hcan, fun p => ?_⟩
  have hbounds := p.frameOffset_bounds
  rw [returned, unwound, hrestored _ p p.restored_getElem?, Nat.sub_add_cancel hbounds.1,
    read_delivered_of_ne, read_noted_of_ne, h.saved p]
  · exact Word.ofNat_ne (by omega)
  · exact Word.ofNat_ne (by omega)
  · exact Word.ofNat_ne (by omega)
  · rw [h.read_popped_noted]
    exact Word.ofNat_ne (by omega)

/-- **A return takes a frame down**: the pointers are those of the caller, the word that was on top
of the stack lies where argument 0 was, and the stack ends behind it. Nothing else changes but two
scratch cells. -/
theorem returned_frame (h : memory.Frame s arguments back caller) (hs : arguments + 16 ≤ s)
    (hsp : s + 6 ≤ memory.sp.toNat) (hsp' : memory.sp.toNat ≤ 32768) :
    (memory.read (Word.ofNat 1) - Word.ofNat MemoryMap.frameSize).Addresses ∧
      (memory.noted.sp - 1).Addresses ∧ (memory.noted.popped.read (Word.ofNat 2)).Addresses ∧
      CanRestore Pointer.restored memory.noted.delivered ∧
      memory.returned.read (Word.ofNat 15) = back ∧
      (∀ p : Pointer, memory.returned.read (Word.ofNat p.cell) = caller p) ∧
      memory.returned.sp = Word.ofNat (s - arguments + 1) ∧
      memory.returned.read (Word.ofNat (s - arguments)) = memory.read (memory.sp - 1) ∧
      ∀ w, 4 < w.toNat → w ≠ Word.ofNat 14 → w ≠ Word.ofNat 15 → w ≠ Word.ofNat (s - arguments) →
        memory.returned.read w = memory.read w := by
  have hstack : memory.noted.sp = memory.sp := read_noted_of_ne (by decide) (by decide)
  have hargument := h.read_popped_noted
  have htop : (memory.sp - 1).toNat = memory.sp.toNat - 1 := by bv_omega
  have htopmost : memory.noted.topmost = memory.read (memory.sp - 1) := by
    rw [topmost, hstack, popped, read_write_of_ne, read_noted_of_ne] <;> bv_omega
  obtain ⟨hcan, hpointers⟩ := h.read_returned_cell hs (by omega)
  refine ⟨?_, ?_, ?_, hcan, h.read_returned_returnAddress hs (by omega), hpointers, ?_, ?_,
    fun w hw h14 h15 hne => ?_⟩
  · rw [h.locals_sub]
    exact Word.addresses_ofNat (by omega)
  · rw [hstack, Word.Addresses, htop]
    omega
  · rw [hargument]
    exact Word.addresses_ofNat (by omega)
  · rw [sp, read_returned_of_ne (by decide) (Or.inr (by decide)), delivered,
      read_write_self (Word.addresses_ofNat (by decide)), hargument]
    bv_omega
  · have hsmall : (Word.ofNat (s - arguments)).toNat = s - arguments := Word.toNat_ofNat (by omega)
    rw [read_returned_of_ne _ (Or.inl (by omega)), delivered, hargument, read_write_of_ne,
      read_write_self (Word.addresses_ofNat (by omega)), htopmost]
    · exact Word.ofNat_ne (by omega)
    · exact Word.ofNat_ne (by omega)
  · have h0 : w ≠ Word.ofNat 0 := by
      rintro rfl
      exact absurd hw (by decide)
    rw [read_returned_of_ne h14 (Or.inl hw), read_delivered_of_ne h0 (hargument ▸ hne),
      read_noted_of_ne h14 h15]

end

/-! ### Keeping frames -/

/-- **What a frame has saved is kept**, for each of the frames that are given by the cell they start
at, and so is where the arguments and the locals of the current function are. -/
structure Keeps (before after : Memory) (frames : List Nat) : Prop where
  locals : after.read (Word.ofNat 1) = before.read (Word.ofNat 1)
  arguments : after.read (Word.ofNat 2) = before.read (Word.ofNat 2)
  saved : ∀ s ∈ frames, ∀ i < MemoryMap.frameSize,
    after.read (Word.ofNat (s + i)) = before.read (Word.ofNat (s + i))

namespace Keeps

variable {before between after : Memory} {frames frames' : List Nat}

theorem trans (h : before.Keeps between frames) (h' : between.Keeps after frames) :
    before.Keeps after frames where
  locals := h'.locals.trans h.locals
  arguments := h'.arguments.trans h.arguments
  saved s hs i hi := (h'.saved s hs i hi).trans (h.saved s hs i hi)

theorem mono (h : before.Keeps after frames) (hsub : frames' ⊆ frames) :
    before.Keeps after frames' :=
  ⟨h.locals, h.arguments, fun s hs => h.saved s (hsub hs)⟩

/-- **A frame that is kept is still a frame.** -/
theorem frame {s arguments : Nat} {back : Word} {caller : Pointer → Word}
    (h : before.Keeps after [s]) (hframe : before.Frame s arguments back caller) :
    after.Frame s arguments back caller where
  locals := h.locals.trans hframe.locals
  arguments := h.arguments.trans hframe.arguments
  back := (h.saved s List.mem_cons_self 0 (by decide)).trans hframe.back
  saved p := by
    have hbounds := p.frameOffset_bounds
    have hoffset : s + 5 - p.frameOffset = s + (5 - p.frameOffset) := by omega
    rw [← hframe.saved p, hoffset]
    exact h.saved s List.mem_cons_self _ (by change 5 - p.frameOffset < 5; omega)

end Keeps

/-- Pushing keeps what lies below the stack pointer. -/
theorem keeps_pushed {frames : List Nat} {n : Nat} (hsp : memory.sp = Word.ofNat n)
    (hn : 16 ≤ n ∧ n < 32768) (h : ∀ t ∈ frames, 16 ≤ t ∧ t + 5 ≤ n) :
    memory.Keeps (memory.pushed v) frames := by
  have hcell : ∀ cell, 0 < cell → cell < n →
      (memory.pushed v).read (Word.ofNat cell) = memory.read (Word.ofNat cell) := by
    intro cell h0 hcell
    refine read_pushed_of_ne (Word.ofNat_ne (by omega)) ?_
    rw [hsp]
    exact Word.ofNat_ne (by omega)
  refine ⟨hcell 1 (by decide) (by omega), hcell 2 (by decide) (by omega), fun t ht i hi => ?_⟩
  obtain ⟨hlow, hhigh⟩ := h t ht
  exact hcell _ (by omega) (by change i < 5 at hi; omega)

section

variable {n : Nat}

/-- Popping, and then writing into a cell, changes that cell and the stack pointer. -/
theorem read_landed_of_ne {x : Word} (h0 : w ≠ Word.ofNat 0) (hw : w ≠ v) :
    (memory.popped.write v x).read w = memory.read w := by
  rw [read_write_of_ne hw.symm, popped, read_write_of_ne h0.symm]

/-- The stack pointer behind a pop and a write into a cell. -/
theorem sp_landed {x : Word} (hsp : memory.sp = Word.ofNat (n + 1)) (hv : v ≠ Word.ofNat 0) :
    (memory.popped.write v x).sp = Word.ofNat n := by
  rw [sp, read_write_of_ne hv]
  refine (sp_popped memory).trans ?_
  rw [hsp, Word.ofNat_succ_sub_one]

/-- The topmost word does not change when it is popped. -/
theorem topmost_eq (hsp : memory.sp = Word.ofNat (n + 1)) (hn : 0 < n ∧ n < 65536) :
    memory.topmost = memory.read (Word.ofNat n) := by
  have hne : Word.ofNat 0 ≠ Word.ofNat n := Word.ofNat_ne (by omega)
  rw [topmost, hsp, Word.ofNat_succ_sub_one, popped, read_write_of_ne hne]

/-- The word that has been popped into a cell. -/
theorem read_landed (hsp : memory.sp = Word.ofNat (n + 1)) (hn : 0 < n ∧ n < 65536)
    (hv : v.Addresses) :
    (memory.popped.write v memory.topmost).read v = memory.read (Word.ofNat n) := by
  rw [read_write_self hv, topmost_eq hsp hn]

end

/-- The memory in which the topmost word has been popped to where a pointer points. -/
def poppedTo (memory : Memory) (p : Pointer) : Memory := (memory.aimed p 0).hit

section

variable {p : Pointer} {cell n : Nat} {frames : List Nat}

theorem scratch_aimed (hcell : memory.read (Word.ofNat p.cell) = Word.ofNat cell) :
    (memory.aimed p 0).popped.read (Word.ofNat 13) = Word.ofNat cell := by
  rw [popped, read_write_of_ne (by decide), aimed,
    read_write_self (Word.addresses_ofNat (by decide)), hcell, BitVec.add_zero]

/-- Popping to where a pointer points changes that cell, the stack pointer and a scratch cell. -/
theorem read_poppedTo_of_ne (hcell : memory.read (Word.ofNat p.cell) = Word.ofNat cell)
    (h0 : w ≠ Word.ofNat 0) (h13 : w ≠ Word.ofNat 13) (hw : w ≠ Word.ofNat cell) :
    (memory.poppedTo p).read w = memory.read w := by
  rw [poppedTo, hit, scratch_aimed hcell, read_landed_of_ne h0 hw, aimed, read_write_of_ne h13.symm]

/-- The stack pointer behind such a pop, and the word that has been popped. -/
theorem sp_poppedTo (hcell : memory.read (Word.ofNat p.cell) = Word.ofNat cell)
    (hcell' : 16 ≤ cell ∧ cell < 32768) (hsp : memory.sp = Word.ofNat (n + 1))
    (hn : 16 ≤ n ∧ n < 32768) :
    (memory.poppedTo p).sp = Word.ofNat n ∧
      (memory.poppedTo p).read (Word.ofNat cell) = memory.read (Word.ofNat n) := by
  have hne : ∀ m < 16, Word.ofNat m ≠ Word.ofNat n ∧ Word.ofNat cell ≠ Word.ofNat m :=
    fun m hm => ⟨Word.ofNat_ne (by omega),
      Word.ofNat_ne (by omega)⟩
  have haimed : (memory.aimed p 0).sp = Word.ofNat (n + 1) := by
    rw [sp, aimed, read_write_of_ne (by decide)]
    exact hsp
  rw [poppedTo, hit, scratch_aimed hcell]
  refine ⟨sp_landed haimed (hne 0 (by decide)).2, ?_⟩
  rw [read_landed haimed ⟨by omega, by omega⟩ (Word.addresses_ofNat hcell'.2), aimed,
    read_write_of_ne (hne 13 (by decide)).1]

/-- Popping to a cell outside of frames keeps what they have saved. -/
theorem keeps_poppedTo (hcell : memory.read (Word.ofNat p.cell) = Word.ofNat cell)
    (hcell' : 16 ≤ cell ∧ cell < 32768)
    (h : ∀ t ∈ frames, 16 ≤ t ∧ t + 5 ≤ 32768 ∧ (cell < t ∨ t + 5 ≤ cell)) :
    memory.Keeps (memory.poppedTo p) frames := by
  have hkept : ∀ m, 0 < m → m < 32768 → m ≠ 13 → m ≠ cell →
      (memory.poppedTo p).read (Word.ofNat m) = memory.read (Word.ofNat m) := fun m h0 hm h13 hne =>
    read_poppedTo_of_ne hcell (Word.ofNat_ne (by omega))
      (Word.ofNat_ne (by omega)) (Word.ofNat_ne (by omega))
  refine ⟨hkept 1 (by decide) (by decide) (by decide) (by omega),
    hkept 2 (by decide) (by decide) (by decide) (by omega), fun t ht i hi => ?_⟩
  obtain ⟨hlow, hhigh, hapart⟩ := h t ht
  change i < 5 at hi
  exact hkept _ (by omega) (by omega) (by omega) (by omega)

end

end Memory

end HackStack
