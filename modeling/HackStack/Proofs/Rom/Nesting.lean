import HackStack.Proofs.Block.Frame
import HackStack.Proofs.Rom.Program
import HackStack.Proofs.Rom.Statements

/-!
# Nested activations

What a function does between the call that enters it and its return is a sequence of blocks and of
whole activations of other functions. `HackStack.Rom.Body` says so of the machine, for a function
that others wait for. Their frames lie below its own.

A function returns to its caller if it keeps what its own frame has saved
(`HackStack.Rom.InPlace.activation`). That it does so, and keeps the frames below as well, is shown
by induction on the body (`HackStack.Rom.Body.keeps`): an activation in it has one frame more to
keep, and gives the pointers back at its return.
-/

namespace HackStack

open Assembly Statement

/-! ### Activations -/

namespace Rom

variable (rom : Rom) (sites : List Site)

/-- The machine stands before the block of a site. -/
def Stands (site : Site) (m : Machine) : Prop :=
  ∃ k, sites[k]? = some site ∧ m.pc = rom.address sites k

/-- **The machine stands before a call** whose frame will start at the cell `s`, above its
arguments. The symbol of the function called stands for the label of that name. -/
structure BeforeCall (name : String) (s arguments : Nat) (site : Site) (m : Machine) : Prop where
  stands : rom.Stands sites site m
  task : site.task = .written (.call name arguments)
  symbol : MemoryMap.predefined? name = none
  label : name ∈ rom.labels
  sp : m.memory.sp = Word.ofNat s
  above : arguments + 16 ≤ s
  fits : s + 6 ≤ MemoryMap.maxAddress

/-- **The machine stands before a return** from the function whose frame starts at the cell `s`, and
there is a result on top of the stack. -/
structure BeforeReturn (s : Nat) (site : Site) (m : Machine) : Prop where
  stands : rom.Stands sites site m
  task : site.task = .written .ret
  above : s + 6 ≤ m.memory.sp.toNat
  top : (m.memory.sp - 1).Addresses

/-- **What a function does** before it returns. Its frame starts at the cell `s`, and the frames of
the functions that wait for it start at the cells `outer`, the innermost first. Its blocks keep what
its own frame has saved and what those of the frames `outer` have saved that `kept` picks. -/
inductive Body (kept : List Nat → List Nat) : Nat → List Nat → Machine → Machine → Prop
  /-- It does nothing more. -/
  | done {s : Nat} {outer : List Nat} (m : Machine) : Body kept s outer m m
  /-- It goes through the block of a command that neither calls nor returns, up to where a block
  starts. -/
  | command {s cycles : Nat} {outer : List Nat} {m m' m'' : Machine} {site : Site} {c : Command}
      (hstands : rom.Stands sites site m) (htask : site.task = .written c)
      (hcall : ∀ name arguments, c ≠ .call name arguments) (hret : c ≠ .ret)
      (hruns : m.RunsFor rom cycles m') (hcycles : cycles ≤ size site.block)
      (hlands : ∃ k, m'.pc = rom.address sites k)
      (hkeeps : m.memory.Keeps m'.memory (s :: kept outer))
      (habove : s + 5 ≤ m'.memory.sp.toNat) (h : Body kept s outer m' m'') :
      Body kept s outer m m''
  /-- It calls a function whose arguments lie above its frame, waits for what that one does, and has
  it return. -/
  | activation {s s' arguments : Nat} {outer : List Nat} {m m₁ m₂ m₃ m' : Machine}
      {name : String} {site site' : Site}
      (hcall : rom.BeforeCall sites name s' arguments site m) (habove : s + 5 + arguments ≤ s')
      (hcalls : m.RunsFor rom (size site.block) m₁) (hbody : Body kept s' (s :: outer) m₁ m₂)
      (hret : rom.BeforeReturn sites s' site' m₂)
      (hreturns : m₂.RunsFor rom (size site'.block) m₃) (h : Body kept s outer m₃ m') :
      Body kept s outer m m'

/-- **A function has been entered** by the call at a site: the machine has come from `m` to `m'`,
which is at the label of the function. The frame holds the return address of that call and the
pointers of the caller, and the stack ends behind it. The call changes nothing else. -/
structure Enters (name : String) (site : Site) (s arguments : Nat) (m m' : Machine) : Prop where
  pc : rom.labels[name]? = some m'.pc
  back : rom.labels[site.context.returnLabel.render]? = some (m.pc + size site.block)
  frame : m'.memory.Frame s arguments (Word.ofNat (m.pc + size site.block)) fun p =>
    m.memory.read (Word.ofNat p.cell)
  sp : m'.memory.sp = Word.ofNat (s + 5)
  others : ∀ w, w ≠ Word.ofNat 0 → w ≠ Word.ofNat 1 → w ≠ Word.ofNat 2 →
    (∀ i < MemoryMap.frameSize, w ≠ Word.ofNat (s + i)) → m'.memory.read w = m.memory.read w

/-- **A function has returned** from the call at a site: the machine has come from `m` through the
body to `m'`, and through the return to `m''`. It is at the return address of that call, with the
pointers of the caller. The topmost word lies where argument 0 was, and the stack ends behind it.
The return changes nothing else but scratch cells. -/
structure Returns (site : Site) (s arguments : Nat) (m m' m'' : Machine) : Prop where
  pc : rom.labels[site.context.returnLabel.render]? = some m''.pc
  pointers : ∀ p : Pointer,
    m''.memory.read (Word.ofNat p.cell) = m.memory.read (Word.ofNat p.cell)
  sp : m''.memory.sp = Word.ofNat (s - arguments + 1)
  result : m''.memory.read (Word.ofNat (s - arguments)) = m'.memory.read (m'.memory.sp - 1)
  others : ∀ w, 4 < w.toNat → w ≠ Word.ofNat 14 → w ≠ Word.ofNat 15 →
    w ≠ Word.ofNat (s - arguments) → m''.memory.read w = m'.memory.read w

/-- **The written commands of a program are in their places.** -/
structure InPlace : Prop where
  places : ∀ k site c, sites[k]? = some site → site.task = .written c → rom.Places sites k site
  lowers : ∀ site ∈ sites, ∃ context', site.task.Lowers site.context site.block context'
  label : ∀ (name : String) (address : Nat), rom.labels[name]? = some address → address < 65536

end Rom

/-- A program that has been translated and assembled is in its place. -/
theorem inPlace_of_translate {sources : List Source} {options : Options} {t : Translation}
    {rom : Rom} (ht : translate sources options = .ok t) (hrom : assemble t.text = .ok rom)
    (hspaces : ∀ source ∈ sources, isSymbol source.space.toList = true) :
    rom.InPlace (sitesOf {} (events sources options)) := by
  obtain ⟨sites, context, h, hplaces⟩ := places_of_translate ht hrom hspaces
  rw [h.sitesOf_eq]
  refine ⟨hplaces, h.lowers, fun name address hname => ?_⟩
  have hfits : rom.code.size ≤ 32768 := Rom.size_le_of_assemble hrom
  have hle := Rom.label_le_of_assemble hrom hname
  omega

/-! ### One activation -/

/-- No predefined symbol is a return label. -/
theorem predefined?_returnTo (scope : Scope) (ordinal : Nat) :
    MemoryMap.predefined? (Label.returnTo scope ordinal).render = none := by
  refine predefined?_of_dot ?_
  rw [Label.render, String.toList_append, String.toList_append]
  exact List.mem_append_left _ (List.mem_append_right _ (by decide))

/-- The block of a call. -/
theorem Task.Lowers.eq_callReturningTo {context context' : Context} {name : String}
    {arguments : Nat} {block : Block}
    (h : Task.Lowers context (.written (.call name arguments)) block context') :
    block = Block.callReturningTo context.returnLabel.render name arguments := by
  cases h with
  | written h =>
    cases h
    rfl

/-- The block of a return. -/
theorem Task.Lowers.eq_leaveFrame {context context' : Context} {block : Block}
    (h : Task.Lowers context (.written .ret) block context') : block = Block.leaveFrame := by
  cases h with
  | written h =>
    cases h
    rfl

namespace Rom.InPlace

variable {rom : Rom} {sites : List Site} {site : Site} {s arguments : Nat} {name : String}
  {m : Machine}

/-- **A call** enters a function. -/
theorem call (h : rom.InPlace sites) (hcall : rom.BeforeCall sites name s arguments site m) :
    ∃ m', m.RunsFor rom (size site.block) m' ∧ rom.Enters name site s arguments m m' := by
  obtain ⟨k, hsite, hpc⟩ := hcall.stands
  have hfits : s + 6 ≤ 32767 := hcall.fits
  obtain ⟨entry, hentry⟩ : ∃ entry, rom.labels[name]? = some entry :=
    Option.isSome_iff_exists.mp (Std.HashMap.isSome_getElem?_iff_mem.mpr hcall.label)
  obtain ⟨context', hlowers⟩ := h.lowers site (List.mem_of_getElem? hsite)
  have hholds := (h.places k site _ hsite hcall.task).holds
  have hblock := (hcall.task ▸ hlowers).eq_callReturningTo
  rw [← hpc] at hholds
  have hback : rom.labels[site.context.returnLabel.render]? = some (m.pc + size site.block) := by
    rw [hblock]
    exact (hblock ▸ hholds).returnLabel_end
  obtain ⟨hcan, hframe, hends, hothers⟩ := @Memory.called_frame m.memory s (m.pc + size site.block)
    arguments hcall.sp hcall.above (by omega)
  have hsp : m.memory.sp.Addresses := by
    rw [hcall.sp]
    exact Word.addresses_ofNat (by omega)
  obtain ⟨c, hexec, hmemory, ha⟩ := @Core.exec_call rom m.core site.context.returnLabel.render name
    _ entry arguments (Rom.value?_label hback (predefined?_returnTo _ _))
    (Rom.value?_label hentry hcall.symbol) hsp hcan
  obtain ⟨m', hruns, hpc', hmemory'⟩ := Machine.runsFor_of_jump hblock rfl hholds hexec
  have hcalled : m'.memory = m.memory.called (m.pc + size site.block) arguments :=
    hmemory'.trans hmemory
  rw [← hcalled] at hframe hends hothers
  refine ⟨m', hruns, ?_, hback, hframe, hends, hothers⟩
  rw [hpc', ha, Word.toNat_ofNat (h.label name entry hentry), hentry]

/-- **A return** takes down the frame that it finds, and goes to the return address in it. -/
theorem ret {back : Nat} {caller : Pointer → Word} (h : rom.InPlace sites)
    (hret : rom.BeforeReturn sites s site m)
    (hframe : m.memory.Frame s arguments (Word.ofNat back) caller) (habove : arguments + 16 ≤ s)
    (hback : back < 65536) :
    ∃ m', m.RunsFor rom (size site.block) m' ∧ m'.pc = back ∧
      (∀ p : Pointer, m'.memory.read (Word.ofNat p.cell) = caller p) ∧
      m'.memory.sp = Word.ofNat (s - arguments + 1) ∧
      m'.memory.read (Word.ofNat (s - arguments)) = m.memory.read (m.memory.sp - 1) ∧
      ∀ w, 4 < w.toNat → w ≠ Word.ofNat 14 → w ≠ Word.ofNat 15 →
        w ≠ Word.ofNat (s - arguments) → m'.memory.read w = m.memory.read w := by
  obtain ⟨k, hsite, hpc⟩ := hret.stands
  obtain ⟨context', hlowers⟩ := h.lowers site (List.mem_of_getElem? hsite)
  have hholds := (h.places k site _ hsite hret.task).holds
  have hblock : site.block = Block.leaveFrame := (hret.task ▸ hlowers).eq_leaveFrame
  have hsp : m.memory.sp.toNat ≤ 32768 := by
    have htop : (m.memory.sp - 1).toNat < 32768 := hret.top
    have habove := hret.above
    bv_omega
  obtain ⟨h₁, h₂, h₃, h₄, haddress, hwords⟩ := Memory.returned_frame hframe habove hret.above hsp
  obtain ⟨block, c, hends, hexec, hmemory, ha⟩ := @Core.exec_return rom m.core h₁ h₂ h₃ h₄
  obtain ⟨m', hruns, hpc', hmemory'⟩ :=
    Machine.runsFor_of_jump (hblock.trans hends) rfl (hpc ▸ hholds) hexec
  have hreturned : m'.memory = m.memory.returned := hmemory'.trans hmemory
  have haddress' : c.a = Word.ofNat back := ha.trans haddress
  rw [← hreturned] at hwords
  exact ⟨m', hruns, by rw [hpc', haddress', Word.toNat_ofNat hback], hwords⟩

/-- **One activation.** If what the function does keeps what its frame has saved, then its return
leads back. -/
theorem activation {m₁ m₂ : Machine} {site' : Site} (h : rom.InPlace sites)
    (hcall : rom.BeforeCall sites name s arguments site m)
    (henters : rom.Enters name site s arguments m m₁) (hkeeps : m₁.memory.Keeps m₂.memory [s])
    (hret : rom.BeforeReturn sites s site' m₂) :
    ∃ m₃, m₂.RunsFor rom (size site'.block) m₃ ∧ rom.Returns site s arguments m m₂ m₃ := by
  obtain ⟨m₃, hreturns, hpc, hpointers, hends, hresult, hrest⟩ :=
    h.ret hret (hkeeps.frame henters.frame) hcall.above (h.label _ _ henters.back)
  exact ⟨m₃, hreturns, by rw [hpc, henters.back], hpointers, hends, hresult, hrest⟩

end Rom.InPlace

/-! ### Activations in activations -/

/-- **A body keeps what all frames have saved**, its own and those of the functions that wait for
it. The induction is on the body. It goes through the activations in it with one frame more, and an
activation that returns has given the pointers back. -/
theorem Rom.Body.keeps {rom : Rom} {sites : List Site} {s : Nat} {outer : List Nat}
    {m m' : Machine} (h : rom.InPlace sites) (hbody : rom.Body sites id s outer m m')
    (hlow : ∀ t ∈ s :: outer, 16 ≤ t) (hbelow : ∀ t ∈ outer, t ≤ s) :
    m.memory.Keeps m'.memory (s :: outer) := by
  induction hbody with
  | done m => exact ⟨rfl, rfl, fun _ _ _ _ => rfl⟩
  | command _ _ _ _ _ _ _ hkeeps _ _ ih => exact hkeeps.trans (ih hlow hbelow)
  | @activation s s' arguments outer m m₁ m₂ m₃ m' name site site' hcall habove hcalls _ hret
      hreturns _ ihbody ih =>
    refine Memory.Keeps.trans ?_ (ih hlow hbelow)
    have hfits : s' + 6 ≤ 32767 := hcall.fits
    have hs : 16 ≤ s := hlow s List.mem_cons_self
    have houter : ∀ t ∈ s :: outer, t + 5 + arguments ≤ s' := by
      intro t ht
      rcases List.mem_cons.mp ht with rfl | ht
      · exact habove
      · have hle := hbelow t ht
        omega
    have hinner : m₁.memory.Keeps m₂.memory (s' :: s :: outer) := by
      refine ihbody (fun t ht => ?_) fun t ht => ?_
      · rcases List.mem_cons.mp ht with rfl | ht
        · omega
        · exact hlow t ht
      · have hle := houter t ht
        omega
    obtain ⟨_, hcalls', henters⟩ := h.call hcall
    obtain rfl := hcalls.unique hcalls'
    obtain ⟨_, hreturns', hreturned⟩ := h.activation hcall henters
      (hinner.mono (List.cons_subset_cons _ (List.nil_subset _))) hret
    obtain rfl := hreturns.unique hreturns'
    refine ⟨hreturned.pointers .locals, hreturned.pointers .arguments, fun t ht i hi => ?_⟩
    have hi' : i < 5 := hi
    have hle := houter t ht
    have hge := hlow t ht
    have hword : (Word.ofNat (t + i)).toNat = t + i := Word.toNat_ofNat (by omega)
    calc m₃.memory.read (Word.ofNat (t + i))
      _ = m₂.memory.read (Word.ofNat (t + i)) :=
        hreturned.others _ (by omega) (Word.ofNat_ne (by omega)) (Word.ofNat_ne (by omega))
          (Word.ofNat_ne (by omega))
      _ = m₁.memory.read (Word.ofNat (t + i)) :=
        hinner.saved t (List.mem_cons_of_mem _ ht) i hi
      _ = m.memory.read (Word.ofNat (t + i)) :=
        henters.others _ (Word.ofNat_ne (by omega)) (Word.ofNat_ne (by omega))
          (Word.ofNat_ne (by omega)) fun j (hj : j < 5) => Word.ofNat_ne (by omega)

/-! ### Blocks of bodies -/

/-- The block of a push. -/
theorem Task.Lowers.eq_push {context context' : Context} {segment : Segment} {index : Nat}
    {denoted : Block.Target} {block : Block}
    (htarget : Block.target context segment index = .ok denoted)
    (h : Task.Lowers context (.written (.push segment index)) block context') :
    block = Block.fetch denoted ++ Block.pushD := by
  cases h with
  | written h =>
    cases h with
    | push h =>
      obtain rfl := Except.ok.inj (h.symm.trans htarget)
      rfl

/-- The block of a pop. -/
theorem Task.Lowers.popTo_eq {context context' : Context} {segment : Segment} {index : Nat}
    {denoted : Block.Target} {block : Block}
    (htarget : Block.target context segment index = .ok denoted)
    (h : Task.Lowers context (.written (.pop segment index)) block context') :
    Block.popTo denoted = .ok block := by
  cases h with
  | written h =>
    cases h with
    | pop h hblock =>
      obtain rfl := Except.ok.inj (h.symm.trans htarget)
      exact hblock

namespace Rom.Body

variable {rom : Rom} {sites : List Site} {site : Site} {kept : List Nat → List Nat} {s k n : Nat}
  {outer : List Nat} {m : Machine}

/-- **A body goes through a straight block.** -/
theorem of_exec {c : Command} {c' : Core} (h : rom.InPlace sites)
    (hsite : sites[k]? = some site) (htask : site.task = .written c)
    (hcall : ∀ name arguments, c ≠ .call name arguments) (hret : c ≠ .ret)
    (hpc : m.pc = rom.address sites k) (hexec : m.core.exec rom site.block = some c')
    (hkeeps : m.memory.Keeps c'.memory (s :: kept outer)) (habove : s + 5 ≤ c'.memory.sp.toNat) :
    ∃ m' : Machine, m'.pc = rom.address sites (k + 1) ∧ m'.memory = c'.memory ∧
      ∀ m'', rom.Body sites kept s outer m' m'' → rom.Body sites kept s outer m m'' := by
  obtain ⟨hholds, hnext⟩ := h.places k site c hsite htask
  rw [← hpc] at hholds hnext
  have hruns := @Machine.runsFor_of_exec rom m.core c' m.pc m.steps _ hholds hexec
  exact ⟨_, hnext.symm, rfl, fun m'' hbody => .command ⟨k, hsite, hpc⟩ htask hcall hret hruns
    (Nat.le_refl _) ⟨k + 1, hnext.symm⟩ hkeeps habove hbody⟩

/-- A body pushes a constant. -/
theorem of_push {value : Nat} (h : rom.InPlace sites) (hsite : sites[k]? = some site)
    (htask : site.task = .written (.push .constant value)) (hvalue : value ≤ 32767)
    (hpc : m.pc = rom.address sites k) (hsp : m.memory.sp = Word.ofNat n)
    (hn : 16 ≤ n ∧ n < 32767) (hframes : ∀ t ∈ s :: kept outer, 16 ≤ t ∧ t + 5 ≤ n) :
    ∃ m' : Machine, m'.pc = rom.address sites (k + 1) ∧
      m'.memory = m.memory.pushed (Word.ofNat value) ∧
      ∀ m'', rom.Body sites kept s outer m' m'' → rom.Body sites kept s outer m m'' := by
  obtain ⟨context', hlowers⟩ := h.lowers site (List.mem_of_getElem? hsite)
  have htarget : Block.Targets site.context .constant value (.immediate value) := .constant hvalue
  have hblock := (htask ▸ hlowers).eq_push htarget.target_eq
  have hcell : m.memory.sp.Addresses := by
    rw [hsp]
    exact Word.addresses_ofNat (by omega)
  have hexec : m.core.exec rom site.block =
      some ⟨m.memory.pushed (Word.ofNat value), Word.ofNat 0, Word.ofNat value⟩ := by
    rw [hblock, Core.exec_of_exec (Core.exec_fetch_immediate value)]
    exact @Core.exec_pushD rom ⟨m.memory, _, _⟩ hcell
  refine of_exec h hsite htask (fun _ _ he => Command.noConfusion he)
    (fun he => Command.noConfusion he) hpc hexec
    (Memory.keeps_pushed hsp ⟨hn.1, by omega⟩ hframes) ?_
  have hs := hframes s List.mem_cons_self
  rw [Memory.sp_pushed hsp (by omega) (by omega), Word.toNat_ofNat (by omega)]
  omega

/-- A body pops to where a pointer points. -/
theorem of_pop {p : Pointer} {cell : Nat} (h : rom.InPlace sites) (hsite : sites[k]? = some site)
    (htask : site.task = .written (.pop (.based p) 0)) (hpc : m.pc = rom.address sites k)
    (hsp : m.memory.sp = Word.ofNat (n + 1)) (hn : s + 5 ≤ n ∧ n < 32767)
    (hcell : m.memory.read (Word.ofNat p.cell) = Word.ofNat cell)
    (hcell' : 16 ≤ cell ∧ cell < 32768)
    (hframes : ∀ t ∈ s :: kept outer, 16 ≤ t ∧ t + 5 ≤ 32768 ∧ (cell < t ∨ t + 5 ≤ cell)) :
    ∃ m' : Machine, m'.pc = rom.address sites (k + 1) ∧ m'.memory = m.memory.poppedTo p ∧
      ∀ m'', rom.Body sites kept s outer m' m'' → rom.Body sites kept s outer m m'' := by
  obtain ⟨context', hlowers⟩ := h.lowers site (List.mem_of_getElem? hsite)
  have htarget : Block.Targets site.context (.based p) 0 (.indirect p 0) :=
    .based p (Nat.zero_le _)
  have hblock := (htask ▸ hlowers).popTo_eq htarget.target_eq
  have hs := hframes s List.mem_cons_self
  have haimed : ((m.memory.aimed p 0).sp - 1).Addresses := by
    rw [Memory.sp, Memory.aimed, Memory.read_write_of_ne (by decide)]
    change (m.memory.sp - 1).Addresses
    rw [hsp, Word.Addresses]
    bv_omega
  obtain ⟨c, hexec, hmemory⟩ := @Core.exec_popTo_indirect rom m.core p 0 haimed
    (by
      change ((m.memory.aimed p 0).popped.read (Word.ofNat 13)).Addresses
      rw [Memory.scratch_aimed hcell]
      exact Word.addresses_ofNat hcell'.2)
  rw [Except.ok.inj hblock] at hexec
  rw [← show c.memory = m.memory.poppedTo p from hmemory]
  refine of_exec h hsite htask (fun _ _ he => Command.noConfusion he)
    (fun he => Command.noConfusion he) hpc hexec ?_ ?_
  · rw [hmemory]
    exact Memory.keeps_poppedTo hcell hcell' hframes
  · rw [hmemory]
    change s + 5 ≤ (m.memory.poppedTo p).sp.toNat
    rw [(Memory.sp_poppedTo hcell hcell' hsp ⟨by omega, by omega⟩).1, Word.toNat_ofNat (by omega)]
    exact hn.1

end Rom.Body

/-- The label of a function without locals stands before the block behind it. -/
theorem Rom.InPlace.entry {rom : Rom} {sites : List Site} {k : Nat} {name : String}
    (h : rom.InPlace sites) (hsite : ∃ site, sites[k]? = some site ∧
      site.task = .written (.function name 0)) :
    rom.labels[name]? = some (rom.address sites (k + 1)) := by
  obtain ⟨⟨context, task, block⟩, hsite, htask⟩ := hsite
  obtain ⟨context', hlowers⟩ := h.lowers _ (List.mem_of_getElem? hsite)
  obtain ⟨hholds, hnext⟩ := h.places k _ _ hsite htask
  obtain rfl : task = _ := htask
  cases hlowers with
  | written hlowers =>
    cases hlowers
    rw [hnext]
    exact hholds.head_label

end HackStack
