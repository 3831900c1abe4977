import HackStack.Proofs.Machine.Limits
import HackStack.Proofs.Rom.Comparing

/-!
# Programs without jumps of their own

The translation of a command that neither jumps nor calls may still jump, for a comparison chooses
between two ways. All such jumps lead forward. So a program of these commands comes to its end in
as many cycles as it has instructions, or it faults before, whatever the memory holds
(`HackStack.straight_program_ends`).

What carries this is a property of the text alone, `HackStack.Block.Forward`: before a jump stands
an instruction that loads a label, and the label is placed behind the jump. The blocks of the
commands have it, and it is kept where code is put together. A machine in such code always stands
before a part of it that has the property again, and A holds what was loaded last
(`HackStack.Machine.Faces`); so every cycle increases the program counter
(`HackStack.Machine.Faces.step`).
-/

namespace HackStack

open Assembly Statement

/-- Whether a command goes on with the one behind it and no other. -/
def Command.isStraight : Command → Bool
  | goto _ | ifGoto _ | call _ _ | ret => false
  | push _ _ | pop _ _ | operate _ | label _ | function _ _ => true

namespace Block

/-! ### Jumps that lead forward -/

/-- **Code that only jumps forward.** Before a jump a symbol is loaded, which is a label behind the
jump; `last` is the symbol that has been loaded directly before the code, if there is one. -/
def Forward : Option String → Block → Prop
  | _, [] => True
  | last, .instruction (.compute ⟨_, _, some _⟩) :: rest =>
    (∃ name ∈ last, MemoryMap.predefined? name = none ∧ .label name ∈ rest) ∧ Forward none rest
  | _, .instruction (.address (.symbol name)) :: rest => Forward (some name) rest
  | _, _ :: rest => Forward none rest

variable {block rest : Block} {last : Option String}

/-- What may follow anything may follow a symbol. -/
theorem Forward.mono (h : Forward none block) : Forward last block := by
  match block with
  | [] => trivial
  | .instruction (.compute ⟨_, _, some _⟩) :: rest =>
    obtain ⟨⟨name, hnone, -⟩, -⟩ := h
    exact absurd hnone (by simp)
  | .instruction (.compute ⟨_, _, none⟩) :: rest => exact h
  | .instruction (.address (.number _)) :: rest => exact h
  | .instruction (.address (.symbol _)) :: rest => exact h
  | .label _ :: rest => exact h
  | .comment _ :: rest => exact h

/-- **Forward code may be put together.** -/
theorem Forward.append (h : Forward last block) (hrest : Forward none rest) :
    Forward last (block ++ rest) := by
  induction block generalizing last with
  | nil => exact hrest.mono
  | cons s block ih =>
    match s with
    | .instruction (.compute ⟨_, _, some _⟩) =>
      obtain ⟨⟨name, hlast, hsymbol, hlabel⟩, h⟩ := h
      exact ⟨⟨name, hlast, hsymbol, List.mem_append_left rest hlabel⟩, ih h⟩
    | .instruction (.compute ⟨_, _, none⟩) => exact @ih none h
    | .instruction (.address (.number _)) => exact @ih none h
    | .instruction (.address (.symbol name)) => exact @ih (some name) h
    | .label _ => exact @ih none h
    | .comment _ => exact @ih none h

theorem Forward.flatten {blocks : List Block} (h : ∀ block ∈ blocks, Forward none block) :
    Forward none blocks.flatten := by
  induction blocks with
  | nil => trivial
  | cons block blocks ih =>
    rw [List.flatten_cons]
    exact (h block List.mem_cons_self).append
      (ih fun other hother => h other (List.mem_cons_of_mem block hother))

/-- What follows a label in forward code is forward code. -/
theorem Forward.behind_label {name : String} (h : Forward last (block ++ .label name :: rest)) :
    Forward none rest := by
  induction block generalizing last with
  | nil => exact h
  | cons s block ih =>
    match s with
    | .instruction (.compute ⟨_, _, some _⟩) => exact ih h.2
    | .instruction (.compute ⟨_, _, none⟩) => exact @ih none h
    | .instruction (.address (.number _)) => exact @ih none h
    | .instruction (.address (.symbol name)) => exact @ih (some name) h
    | .label _ => exact @ih none h
    | .comment _ => exact @ih none h

/-! ### The blocks of the commands -/

theorem forward_zeros (locals : Nat) : Forward none (zeros locals) := by
  rw [zeros]
  split
  · trivial
  · refine Forward.flatten fun block hblock => ?_
    obtain rfl := List.eq_of_mem_replicate hblock
    trivial

theorem forward_fetch (denoted : Target) : Forward none (fetch denoted) := by
  match denoted with
  | .immediate _ => trivial
  | .direct (.number _) => trivial
  | .direct (.symbol _) => trivial
  | .indirect _ _ => trivial

theorem forward_popTo {denoted : Target} (h : popTo denoted = .ok block) : Forward none block := by
  match denoted with
  | .direct (.number _) =>
    obtain rfl := Except.ok.inj h
    trivial
  | .direct (.symbol _) =>
    obtain rfl := Except.ok.inj h
    trivial
  | .indirect _ _ =>
    obtain rfl := Except.ok.inj h
    trivial

/-- The two jumps of a comparison lead to its two labels. -/
theorem forward_branches (jump : Jump) {yes done : String}
    (hyes : MemoryMap.predefined? yes = none) (hdone : MemoryMap.predefined? done = none) :
    Forward none (branches jump yes done) := by
  refine ⟨⟨yes, rfl, hyes, ?_⟩, ⟨done, rfl, hdone, ?_⟩, trivial⟩
  · simp [top]
  · simp [top]

/-- **Commands without jumps of their own are lowered to forward code.** -/
theorem Lowers.forward {context context' : Context} {c : Command}
    (h : Lowers context c block context') (hc : c.isStraight = true) : Forward none block := by
  cases h with
  | push h => exact (forward_fetch _).append trivial
  | pop h hp => exact forward_popTo hp
  | unary op => trivial
  | binary op => trivial
  | comparison op hholds hdone =>
    exact forward_branches _ (predefined?_compareLabel context .holds)
      (predefined?_compareLabel context .done)
  | label h => trivial
  | function h => exact forward_zeros _
  | goto | ifGoto | call | ret => exact absurd hc Bool.false_ne_true

end Block

/-! ### Running forward code -/

/-- **A program of forward code**: the code is all there is in the program, and it only jumps
forward. -/
structure Rom.IsForward (rom : Rom) (code : Block) : Prop where
  holds : rom.Holds 0 code
  size_eq : rom.code.size = size code
  fits : size code < 65536
  forward : code.Forward none

namespace Machine

variable {rom : Rom} {code rest : Block} {last : Option String} {m m' : Machine} {n : Nat}

/-- **The machine faces the rest of some forward code**, with the symbol that was loaded last in A,
if the last instruction has loaded one. -/
structure Faces (rom : Rom) (code rest : Block) (last : Option String) (m : Machine) : Prop where
  splits : ∃ before, code = before ++ rest ∧ m.pc = size before
  forward : rest.Forward last
  loaded : ∀ name ∈ last, ∀ n, rom.value? name = some n → m.a = Word.ofNat n

theorem Faces.pc_le (h : Faces rom code rest last m) : m.pc ≤ size code := by
  obtain ⟨before, rfl, hpc⟩ := h.splits
  rw [hpc, size_append]
  exact Nat.le_add_right _ _

/-- Where nothing has been loaded, nothing is asked of A. -/
theorem Faces.of_splits (before : Block) (hcode : code = before ++ rest) (hpc : m.pc = size before)
    (hforward : rest.Forward none) : Faces rom code rest none m :=
  ⟨⟨before, hcode, hpc⟩, hforward, fun name hname => absurd hname (Option.not_mem_none name)⟩

/-- Lines that are no instructions are passed without a cycle. -/
theorem Faces.tail {s : Statement} (h : Faces rom code (s :: rest) last m) (hs : size [s] = 0)
    (hforward : rest.Forward none) : Faces rom code rest none m := by
  obtain ⟨before, hcode, hpc⟩ := h.splits
  refine .of_splits (before ++ [s]) ?_ ?_ hforward
  · rw [hcode, List.append_assoc]
    rfl
  · rw [hpc, size_append, hs, Nat.add_zero]

/-- A machine is at the end of the code, or faces an instruction. -/
theorem Faces.instruction (h : Faces rom code rest last m) :
    m.pc = size code ∨ ∃ i rest' last', Faces rom code (.instruction i :: rest') last' m := by
  induction rest generalizing last with
  | nil =>
    obtain ⟨before, rfl, hpc⟩ := h.splits
    rw [List.append_nil]
    exact .inl hpc
  | cons s rest ih =>
    match s with
    | .instruction i => exact .inr ⟨i, rest, last, h⟩
    | .label name => exact ih (h.tail rfl h.forward)
    | .comment text => exact ih (h.tail rfl h.forward)

/-- An instruction is passed in a cycle that leads to the next one. -/
theorem Faces.next {i : Instruction} {last' : Option String}
    (h : Faces rom code (.instruction i :: rest) last m) (hpc : m'.pc = m.pc + 1)
    (hforward : rest.Forward last')
    (hloaded : ∀ name ∈ last', ∀ n, rom.value? name = some n → m'.a = Word.ofNat n) :
    m.pc < m'.pc ∧ ∃ rest' last', Faces rom code rest' last' m' := by
  obtain ⟨before, hcode, hbefore⟩ := h.splits
  refine ⟨by omega, rest, last', ⟨before ++ [.instruction i], ?_, ?_⟩, hforward, hloaded⟩
  · rw [hcode, List.append_assoc]
    rfl
  · rw [hpc, hbefore, size_append]
    rfl

/-- A jump leads to the label that has been loaded, which is behind it. -/
theorem Faces.jump {dest : Option Dest} {comp : Comp} {jump : Jump} (hcode : rom.IsForward code)
    (h : Faces rom code (.instruction (.compute ⟨dest, comp, some jump⟩) :: rest) last m)
    (hpc : m'.pc = m.a.toNat) :
    m.pc < m'.pc ∧ ∃ rest' last', Faces rom code rest' last' m' := by
  obtain ⟨⟨before, hsplit, hbefore⟩, ⟨⟨name, hname, hsymbol, hlabel⟩, hforward⟩, hloaded⟩ := h
  obtain ⟨between, behind, rfl⟩ := List.append_of_mem hlabel
  -- The label stands behind the jump and what is between them.
  have hsplit : code = (before ++ .instruction (.compute ⟨dest, comp, some jump⟩) :: between) ++
      .label name :: behind := by
    rw [hsplit, List.append_assoc]
    rfl
  have hsize : size (before ++ .instruction (.compute ⟨dest, comp, some jump⟩) :: between) =
      m.pc + 1 + size between := by
    rw [size_append, size_instruction, hbefore]
    omega
  have hle : m.pc + 1 + size between ≤ size code := by
    rw [hsplit, size_append, hsize]
    exact Nat.le_add_right _ _
  have haddress := hcode.holds.label _ _ _ hsplit
  rw [Nat.zero_add, hsize] at haddress
  have hfits := hcode.fits
  have ha := hloaded name hname _ (Rom.value?_label haddress hsymbol)
  rw [ha, Word.toNat_ofNat (by omega)] at hpc
  exact ⟨by omega, .label name :: behind, none,
    .of_splits _ hsplit (hpc.trans hsize.symm) hforward.behind_label⟩

/-- Where a compute instruction leads. -/
theorem pc_of_execute {fields : Compute} (h : execute (.compute fields) m = (m', .ran)) :
    m'.pc = m.pc + 1 ∨ (∃ jump, fields.jump = some jump) ∧ m'.pc = m.a.toNat := by
  rw [execute] at h
  split at h
  · exact absurd (Prod.mk.inj h).2 (by simp)
  · obtain rfl := (Prod.mk.inj h).1
    rcases fields with ⟨dest, comp, _ | jump⟩
    · exact .inl rfl
    · refine Or.imp_right (fun hpc => ⟨⟨jump, rfl⟩, hpc⟩) ?_
      exact (ite_eq_or_eq _ _ _).symm

/-- **A cycle in forward code leads forward**, to forward code. -/
theorem Faces.step (hcode : rom.IsForward code) (h : Faces rom code rest last m)
    (hran : m.step rom = (m', .ran)) :
    m.pc < m'.pc ∧ ∃ rest' last', Faces rom code rest' last' m' := by
  obtain hend | ⟨i, rest, last, h⟩ := h.instruction
  · rw [step_eq_halted_iff.mpr ⟨rfl, (hcode.size_eq.trans hend.symm).le⟩] at hran
    exact absurd (Prod.mk.inj hran).2 (by simp)
  obtain ⟨before, hsplit, hpc⟩ := h.splits
  obtain ⟨op, hop, hlinks⟩ := hcode.holds.instruction before i rest hsplit
  rw [Nat.zero_add, ← hpc] at hop
  rw [Machine.step, hop] at hran
  rcases i with (n | name) | ⟨dest, comp, _ | jump⟩
  · obtain rfl := hlinks
    obtain rfl := (Prod.mk.inj hran).1
    exact h.next rfl h.forward fun name hname => absurd hname (Option.not_mem_none name)
  · obtain ⟨n, hvalue, rfl⟩ := hlinks
    obtain rfl := (Prod.mk.inj hran).1
    refine h.next rfl h.forward fun name' hname n' hn' => ?_
    obtain rfl := Option.mem_some_iff.mp hname
    rw [hvalue] at hn'
    exact congrArg Word.ofNat (Option.some.inj hn')
  · obtain rfl := hlinks
    rcases pc_of_execute hran with hnext | ⟨⟨jump, hjump⟩, -⟩
    · exact h.next hnext h.forward fun name hname => absurd hname (Option.not_mem_none name)
    · exact absurd hjump (by simp)
  · obtain rfl := hlinks
    rcases pc_of_execute hran with hnext | ⟨-, hto⟩
    · exact h.next hnext h.forward.2 fun name hname => absurd hname (Option.not_mem_none name)
    · exact h.jump hcode hto

/-- **A run through forward code** comes forward by one instruction a cycle, or by more. -/
theorem Faces.run (hcode : rom.IsForward code) (h : Faces rom code rest last m)
    (hruns : m.RunsFor rom n m') :
    m.pc + n ≤ m'.pc ∧ ∃ rest' last', Faces rom code rest' last' m' := by
  induction hruns generalizing rest last with
  | zero m => exact ⟨Nat.le_refl _, rest, last, h⟩
  | succ hran hruns ih =>
    obtain ⟨hlt, rest', last', h'⟩ := h.step hcode hran
    obtain ⟨hle, hfaces⟩ := ih h'
    exact ⟨by omega, hfaces⟩

end Machine

namespace Rom.IsForward

variable {rom : Rom} {code : Block} {m m₁ m₂ : Machine} {n n₁ n₂ : Nat}

/-- Before its first instruction the machine faces all the code. -/
theorem faces (h : rom.IsForward code) (hpc : m.pc = 0) : m.Faces rom code code none :=
  .of_splits [] rfl hpc h.forward

/-- Every instruction that is executed increases the program counter. -/
theorem pc_lt (h : rom.IsForward code) (hpc : m.pc = 0) (hruns : m.RunsFor rom n m₁)
    (hran : m₁.step rom = (m₂, .ran)) : m₁.pc < m₂.pc := by
  obtain ⟨-, rest, last, hfaces⟩ := (h.faces hpc).run h hruns
  exact (hfaces.step h hran).1

/-- There are no more cycles than instructions. -/
theorem le_size (h : rom.IsForward code) (hpc : m.pc = 0) (hruns : m.RunsFor rom n m₁) :
    n ≤ rom.code.size := by
  obtain ⟨hle, rest, last, hfaces⟩ := (h.faces hpc).run h hruns
  have hend := hfaces.pc_le
  have hsize := h.size_eq
  omega

/-- **The machine comes to each address once.** -/
theorem unique (h : rom.IsForward code) (hpc : m.pc = 0) (h₁ : m.RunsFor rom n₁ m₁)
    (h₂ : m.RunsFor rom n₂ m₂) (heq : m₁.pc = m₂.pc) : m₁ = m₂ := by
  wlog hle : n₁ ≤ n₂ generalizing n₁ n₂ m₁ m₂
  · exact (this h₂ h₁ heq.symm (Nat.le_of_not_le hle)).symm
  obtain ⟨between, rfl⟩ := Nat.exists_eq_add_of_le hle
  obtain ⟨m', hfirst, hrest⟩ := h₂.split
  obtain rfl := hfirst.unique h₁
  obtain ⟨-, rest, last, hfaces⟩ := (h.faces hpc).run h hfirst
  obtain ⟨hforward, -⟩ := hfaces.run h hrest
  obtain rfl : between = 0 := by omega
  exact (Machine.RunsFor.zero m').unique hrest

end Rom.IsForward

/-! ### Programs -/

variable {sources : List Source} {options : Options} {t : Translation} {rom : Rom}

/-- The code of a program without jumps of its own only jumps forward. -/
theorem Translates.forward_codeOf {sites : List Site} {context : Context}
    (h : Translates {} (events sources options) sites context) (hoff : options.startUp = false)
    (hstraight : ∀ c ∈ commandsOf sources, c.isStraight = true) (annotate : Bool) :
    Block.Forward none (codeOf annotate sites) := by
  rw [codeOf, List.flatMap_def]
  refine Block.Forward.flatten fun block hblock => ?_
  obtain ⟨site, hsite, rfl⟩ := List.mem_map.mp hblock
  have htask : site.task ∈ options.tasks ++ (commandsOf sources).map Task.written := by
    rw [← h.map_task_events]
    exact List.mem_map_of_mem hsite
  rw [Options.tasks, hoff] at htask
  obtain ⟨c, hc, htask⟩ := List.mem_map.mp htask
  obtain ⟨context', hlowers⟩ := h.lowers site hsite
  rw [← htask] at hlowers
  have hforward : site.block.Forward none := by
    cases hlowers with
    | written hlowers => exact hlowers.forward (hstraight c hc)
  cases annotate with
  | false => exact hforward
  | true => exact hforward

/-- **A program without jumps of its own is forward code.** -/
theorem isForward_of_translate (ht : translate sources options = .ok t)
    (hrom : assemble t.text = .ok rom)
    (hspaces : ∀ source ∈ sources, isSymbol source.space.toList = true)
    (hoff : options.startUp = false) (hstraight : ∀ c ∈ commandsOf sources, c.isStraight = true) :
    rom.IsForward (codeOf options.annotate (sitesOf {} (events sources options))) := by
  obtain ⟨sites, context, h, hassembled⟩ := assembled_of_translate ht hrom hspaces
    fun hon => absurd (hon.symm.trans hoff) (by simp)
  rw [h.sitesOf_eq]
  exact ⟨hassembled.holds (h.nodup_codeOf options.annotate), hassembled.size_eq,
    Nat.lt_of_le_of_lt hassembled.fits (by decide),
    h.forward_codeOf hoff hstraight options.annotate⟩

/-- **A program without jumps of its own always ends.** Let it be translated without a start and
assembled, and let the machine start at its first instruction, with anything in its memory and its
registers. Then every instruction that is executed increases the program counter. A run that may
take more cycles than the program has instructions comes to the end in at most as many, unless an
instruction reaches outside the memory. -/
theorem straight_program_ends (ht : translate sources options = .ok t)
    (hrom : assemble t.text = .ok rom)
    (hspaces : ∀ source ∈ sources, isSymbol source.space.toList = true)
    (hoff : options.startUp = false) (hstraight : ∀ c ∈ commandsOf sources, c.isStraight = true)
    {m : Machine} (hpc : m.pc = 0) :
    (∀ n m₁ m₂, m.RunsFor rom n m₁ → m₁.step rom = (m₂, .ran) → m₁.pc < m₂.pc) ∧
    ∀ limit, rom.code.size < limit →
      (∃ m' n, m.run rom limit = (m', .ok n) ∧ n ≤ rom.code.size) ∨
      ∃ m' address pc, m.run rom limit = (m', .error (.outsideMemory address pc)) := by
  have h := isForward_of_translate ht hrom hspaces hoff hstraight
  refine ⟨fun n m₁ m₂ hruns hran => h.pc_lt hpc hruns hran, fun limit hlimit => ?_⟩
  match hrun : m.run rom limit with
  | (m', r) =>
    cases Machine.run_eq_iff.mp hrun with
    | halted hruns hend hn => exact .inl ⟨m', _, rfl, h.le_size hpc hruns⟩
    | fault hruns hfault hn => exact .inr ⟨m', _, _, rfl⟩
    | limit hruns =>
      have hle := h.le_size hpc hruns
      omega

/-- A program that compares two numbers and goes on into a function. -/
def enteringFunction : List Source :=
  [⟨"Main.vm", "Main", "push constant 7\npush constant 8\ngt\nfunction Main.run 2"⟩]

/-- That program is translated and assembled. -/
theorem exists_rom_enteringFunction :
    ∃ t rom, translate enteringFunction {} = .ok t ∧ assemble t.text = .ok rom := by
  have hnone : ∀ label : Label, ¬Context.Taken {} label := fun _ => Std.HashSet.not_mem_empty
  have h : Translates {} (events enteringFunction {}) _ _ :=
    .file (.task (.line 1 (c := .push .constant 7) rfl) (.written (.push rfl))
      (.task (.line 2 (c := .push .constant 8) rfl) (.written (.push rfl))
      (.task (.line 3 (c := .operate (.comparison .gt)) rfl)
        (.written (.comparison .gt (hnone _) (hnone _)))
      (.task (.line 4 (c := .function "Main.run" 2) rfl)
        (.written (.function (Context.not_taken_declaring (by decide)
          (Context.not_taken_declaring (by decide) (hnone _))))) (.nil _)))))
  exact h.exists_rom (by decide) (fun hon => Bool.noConfusion hon) (by decide +kernel)

/-- The program ends from a machine whose stack pointer is garbage, or faults. -/
theorem straight_program_ends_garbled :
    ∃ t rom, translate enteringFunction {} = .ok t ∧ assemble t.text = .ok rom ∧
      ∀ limit, rom.code.size < limit →
        (∃ m' n, (⟨Vector.replicate 32768 (-3), -7, 9, 0, 0⟩ : Machine).run rom limit =
          (m', .ok n) ∧ n ≤ rom.code.size) ∨
        ∃ m' address pc, (⟨Vector.replicate 32768 (-3), -7, 9, 0, 0⟩ : Machine).run rom limit =
          (m', .error (.outsideMemory address pc)) := by
  obtain ⟨t, rom, ht, hrom⟩ := exists_rom_enteringFunction
  exact ⟨t, rom, ht, hrom, (straight_program_ends ht hrom (by decide) rfl (by decide) rfl).2⟩

end HackStack
