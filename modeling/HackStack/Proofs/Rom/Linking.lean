import Mathlib.Data.List.Forall2
import HackStack.Proofs.Rom.Listing

/-!
# Linked programs

The second pass replaces every symbol by a number. A symbol that has been given a number keeps it,
so the numbers can be looked up in the finished program: `HackStack.Rom.value?` looks for the symbol
among the predefined ones, the labels and the variables, in this order, and every instruction of the
program is the one of the source with its symbol looked up (`HackStack.Layout.links_link`).

`HackStack.Assembled` puts together what is known of a program that was assembled from a list of
legible statements: where its instructions stand, what they have become, and where its labels are.
It holds of every program that fits into the instruction memory (`HackStack.assemble_listing`).
-/

namespace HackStack

open Assembly

/-- **The number that a symbol stands for** in a program. -/
def Rom.value? (rom : Rom) (name : String) : Option Nat :=
  MemoryMap.predefined? name <|> rom.labels[name]? <|> rom.cells[name]?

/-- The instruction that the machine runs for an instruction of the source, when symbols stand for
these numbers. -/
def Assembly.Instruction.Links (value? : String → Option Nat) : Instruction → Op → Prop
  | .address (.number n), op => op = .load n
  | .address (.symbol name), op => ∃ n, value? name = some n ∧ op = .load n
  | .compute fields, op => op = .compute fields

namespace Layout

/-! ### The second pass -/

/-- What was known of the variables is still known. -/
def Extends (cells cells' : Std.HashMap String Nat) : Prop :=
  ∀ (name : String) (cell : Nat), cells[name]? = some cell → cells'[name]? = some cell

theorem Extends.refl (cells : Std.HashMap String Nat) : Extends cells cells := fun _ _ h => h

theorem Extends.trans {cells cells' cells'' : Std.HashMap String Nat} (h : Extends cells cells')
    (h' : Extends cells' cells'') : Extends cells cells'' :=
  fun name cell hc => h' name cell (h name cell hc)

/-- The number of a symbol, from the labels and the variables. -/
def value? (labels cells : Std.HashMap String Nat) (name : String) : Option Nat :=
  MemoryMap.predefined? name <|> labels[name]? <|> cells[name]?

/-- A number that was known is still known. -/
theorem Extends.value? {cells cells' : Std.HashMap String Nat} (h : Extends cells cells')
    {labels : Std.HashMap String Nat} {name : String} {n : Nat}
    (hn : value? labels cells name = some n) : Layout.value? labels cells' name = some n := by
  rw [Layout.value?] at hn ⊢
  cases hp : MemoryMap.predefined? name with
  | some p => rwa [hp] at hn
  | none =>
    rw [hp] at hn
    cases hl : labels[name]? with
    | some l => rwa [hl] at hn
    | none =>
      rw [hl] at hn
      exact h name n hn

/-- **Resolving a symbol** finds its number, and forgets nothing. -/
theorem resolve_symbol (labels cells : Std.HashMap String Nat) (name : String) :
    Extends cells (resolve labels (.symbol name) cells).2 ∧
      value? labels (resolve labels (.symbol name) cells).2 name =
        some (resolve labels (.symbol name) cells).1 := by
  rw [resolve]
  cases hv : (MemoryMap.predefined? name <|> labels[name]? <|> cells[name]?) with
  | some n => exact ⟨Extends.refl cells, hv⟩
  | none =>
    simp only [Option.orElse_eq_orElse, Option.orElse_eq_or, Option.or_eq_none_iff] at hv
    obtain ⟨hp, hl, hc⟩ := hv
    refine ⟨fun other cell hother => ?_, ?_⟩
    · rw [Std.HashMap.getElem?_insert]
      by_cases he : name = other
      · rw [he, hother] at hc
        exact absurd hc (by simp)
      · rwa [if_neg (by simpa using he)]
    · simp [value?, hp, hl]

/-- **What the second pass makes of instructions**: it appends as many, each of them linked. -/
theorem foldl_linkNext (labels : Std.HashMap String Nat) (source : List Instruction)
    (done : Array Op) (cells : Std.HashMap String Nat) :
    ∃ (new : List Op) (cells' : Std.HashMap String Nat),
      source.foldl (linkNext labels) (done, cells) = (done ++ new.toArray, cells') ∧
        Extends cells cells' ∧ List.Forall₂ (·.Links (value? labels cells')) source new := by
  induction source generalizing done cells with
  | nil => exact ⟨[], cells, by simp, Extends.refl cells, .nil⟩
  | cons i rest ih =>
    rw [List.foldl_cons]
    match i with
    | .address (.number n) =>
      obtain ⟨new, cells', hfold, hext, hlinks⟩ := ih (done.push (.load n)) cells
      exact ⟨.load n :: new, cells', hfold.trans (by simp), hext, .cons rfl hlinks⟩
    | .address (.symbol name) =>
      obtain ⟨hext₁, hvalue⟩ := resolve_symbol labels cells name
      obtain ⟨new, cells', hfold, hext, hlinks⟩ :=
        ih (done.push (.load (resolve labels (.symbol name) cells).1))
          (resolve labels (.symbol name) cells).2
      exact ⟨.load (resolve labels (.symbol name) cells).1 :: new, cells', hfold.trans (by simp),
        hext₁.trans hext, .cons ⟨_, hext.value? hvalue, rfl⟩ hlinks⟩
    | .compute fields =>
      obtain ⟨new, cells', hfold, hext, hlinks⟩ := ih (done.push (.compute fields)) cells
      exact ⟨.compute fields :: new, cells', hfold.trans (by simp), hext, .cons rfl hlinks⟩

/-- **Every instruction of a program** is one of the source with its symbol looked up. -/
theorem links_link (layout : Layout) :
    layout.link.labels = layout.labels ∧
      List.Forall₂ (·.Links layout.link.value?) layout.code.toList layout.link.code.toList := by
  obtain ⟨new, cells', hfold, -, hlinks⟩ := foldl_linkNext layout.labels layout.code.toList #[] ∅
  rw [Array.foldl_toList] at hfold
  have hlink : layout.link = ⟨new.toArray, layout.labels, cells'⟩ := by
    rw [link, hfold]
    simp
  rw [hlink]
  exact ⟨rfl, hlinks⟩

end Layout

/-! ### Code in a program -/

/-- **A list of statements stands in a program** from an address on: its instructions are linked,
and its labels are where they are in the list. -/
structure Rom.Holds (rom : Rom) (base : Nat) (code : List Statement) : Prop where
  instruction : ∀ before i after, code = before ++ .instruction i :: after →
    ∃ op, rom.code[base + size before]? = some op ∧ i.Links rom.value? op
  label : ∀ before name after, code = before ++ .label name :: after →
    rom.labels[name]? = some (base + size before)

namespace Rom.Holds

variable {rom : Rom} {base : Nat} {code rest : List Statement}

theorem left (h : rom.Holds base (code ++ rest)) : rom.Holds base code where
  instruction before i after hcode :=
    h.instruction before i (after ++ rest) (by rw [hcode, List.append_assoc]; rfl)
  label before name after hcode :=
    h.label before name (after ++ rest) (by rw [hcode, List.append_assoc]; rfl)

theorem right (h : rom.Holds base (code ++ rest)) : rom.Holds (base + size code) rest where
  instruction before i after hcode := by
    rw [Nat.add_assoc, ← size_append]
    exact h.instruction (code ++ before) i after (by rw [hcode, List.append_assoc])
  label before name after hcode := by
    rw [Nat.add_assoc, ← size_append]
    exact h.label (code ++ before) name after (by rw [hcode, List.append_assoc])

theorem tail {s : Statement} (h : rom.Holds base (s :: rest)) :
    rom.Holds (base + size [s]) rest := @right rom base [s] rest h

/-- The instruction that code starts with. -/
theorem head {i : Instruction} (h : rom.Holds base (.instruction i :: rest)) :
    ∃ op, rom.code[base]? = some op ∧ i.Links rom.value? op := h.instruction [] i rest rfl

/-- The label that code starts with. -/
theorem head_label {name : String} (h : rom.Holds base (.label name :: rest)) :
    rom.labels[name]? = some base := h.label [] name rest rfl

end Rom.Holds

/-- Where a label stands is what its symbol stands for. -/
theorem Rom.value?_label {rom : Rom} {name : String} {address : Nat}
    (h : rom.labels[name]? = some address) (hp : MemoryMap.predefined? name = none) :
    rom.value? name = some address := by
  rw [Rom.value?, hp, h]
  rfl

/-- No predefined symbol has a dot. -/
theorem predefined?_of_dot {name : String} (h : '.' ∈ name.toList) :
    MemoryMap.predefined? name = none := by
  rw [MemoryMap.predefined?, List.lookup_eq_none_iff]
  intro entry hentry
  rw [bne_iff_ne]
  rintro rfl
  have hdots : MemoryMap.predefined.all (fun entry => entry.1.toList.all (· ≠ '.')) = true := by
    decide
  have hdot := List.all_eq_true.mp (List.all_eq_true.mp hdots entry hentry) '.' h
  exact absurd hdot (by decide)

/-- Where a linked instruction stands: behind as many as precede it. -/
theorem links_getElem? {value? : String → Option Nat} {code : Array Op}
    {first rest : List Instruction} {i : Instruction}
    (h : List.Forall₂ (·.Links value?) (first ++ i :: rest) code.toList) :
    ∃ op, code[first.length]? = some op ∧ i.Links value? op := by
  have hlt : first.length < code.toList.length := by
    rw [← h.length_eq, List.length_append]
    simp
  refine ⟨code.toList[first.length], ?_, ?_⟩
  · rw [← Array.getElem?_toList, List.getElem?_eq_getElem hlt]
  · have hget := h.get (i := first.length) (by rw [List.length_append]; simp) hlt
    simpa using hget

/-- **Statements that are added stand in the program**, behind the code before them and at its
end. -/
theorem Layout.holds_of_addAll {code : List Statement} {layout layout' : Layout}
    (h : layout.addAll code = .ok layout') :
    layout'.link.Holds layout.code.size code ∧
      layout'.link.code.size = layout.code.size + size code := by
  obtain ⟨hcode, hlabels⟩ := addAll_ok h
  obtain ⟨hsame, hlinks⟩ := layout'.links_link
  refine ⟨⟨fun first i rest he => ?_, fun first name rest he => ?_⟩, ?_⟩
  · rw [hcode, he, Array.toList_append, List.toList_toArray, instructions_append] at hlinks
    change List.Forall₂ _ (_ ++ (_ ++ i :: instructions rest)) _ at hlinks
    rw [← List.append_assoc] at hlinks
    have hget := links_getElem? hlinks
    rwa [List.length_append, length_instructions, Array.length_toList] at hget
  · rw [hsame]
    exact (hlabels name _).mpr (Or.inr ⟨first, rest, he, rfl⟩)
  · rw [← Array.length_toList, ← hlinks.length_eq, Array.length_toList, hcode, Array.size_append,
      ← length_instructions]
    rfl

/-- **The end of a listing stands at the end of the program**, whatever is written before it. -/
theorem Rom.holds_end {before after : List Statement} {rom : Rom} (h : ∀ s ∈ after, s.Plain)
    (hrom : assemble (listing (before ++ after)) = .ok rom) :
    size after ≤ rom.code.size ∧ rom.Holds (rom.code.size - size after) after := by
  obtain ⟨layout, hlayout, rfl, -⟩ := Layout.exists_layout_of_assemble hrom
  obtain ⟨between, hadd⟩ := Layout.exists_of_ofText_append h hlayout
  obtain ⟨hholds, hsize⟩ := Layout.holds_of_addAll hadd
  rw [hsize, Nat.add_sub_cancel]
  exact ⟨Nat.le_add_left _ _, hholds⟩

/-- A program that has been assembled fits into the instruction memory. -/
theorem Rom.size_le_of_assemble {text : String} {rom : Rom} (hrom : assemble text = .ok rom) :
    rom.code.size ≤ MemoryMap.size := by
  obtain ⟨layout, -, rfl, hfits⟩ := Layout.exists_layout_of_assemble hrom
  have hlength := layout.links_link.2.length_eq
  rw [Array.length_toList, Array.length_toList] at hlength
  omega

/-! ### Assembled lists of statements -/

/-- **A program that was assembled from a list of statements.** -/
structure Assembled (code : List Statement) (rom : Rom) : Prop where
  /-- The instructions of the program are those of the list, linked. -/
  links : List.Forall₂ (·.Links rom.value?) (instructions code) rom.code.toList
  /-- The labels of the program are those of the list. -/
  label : ∀ name : String, rom.labels[name]? = labelAddress? name code
  /-- The program fits into the instruction memory. -/
  fits : size code ≤ MemoryMap.size

namespace Assembled

variable {code : List Statement} {rom : Rom}

/-- The program has one instruction for each slot. -/
theorem size_eq (h : Assembled code rom) : rom.code.size = size code := by
  rw [← length_instructions, h.links.length_eq, Array.length_toList]

/-- **The code of a program stands at its beginning.** -/
theorem holds (h : Assembled code rom) (hn : (labelNames code).Nodup) : rom.Holds 0 code where
  instruction := by
    intro before i after hcode
    have hlinks := h.links
    rw [hcode, instructions_append] at hlinks
    have hget := links_getElem? hlinks
    rwa [length_instructions, ← Nat.zero_add (size before)] at hget
  label := by
    intro before name after hcode
    rw [h.label, (labelAddress?_eq_some_iff hn).mpr ⟨before, after, hcode, rfl⟩, Nat.zero_add]

end Assembled

/-- **Assembling a listing** whose labels are all different fails exactly when the program does not
fit into the instruction memory. -/
theorem assemble_listing {code : List Statement} (h : ∀ s ∈ code, s.Legible)
    (hn : (labelNames code).Nodup) :
    if size code > MemoryMap.size then assemble (listing code) = .error (.tooLarge (size code))
    else ∃ rom, assemble (listing code) = .ok rom ∧ Assembled code rom := by
  obtain ⟨labels, hlayout, hlabels⟩ := Layout.ofText_listing h hn
  have hsize : (instructions code).toArray.size = size code := length_instructions code
  have hassemble : assemble (listing code) =
      if size code > MemoryMap.size then .error (.tooLarge (size code))
      else .ok (Layout.link ⟨(instructions code).toArray, labels⟩) := by
    rw [assemble, hlayout]
    simp only [bind, Except.bind, hsize]
    split <;> rfl
  split
  next hbig => rw [hassemble, if_pos hbig]
  next hsmall =>
    refine ⟨_, by rw [hassemble, if_neg hsmall], ?_, ?_, Nat.le_of_not_lt hsmall⟩
    · exact (Layout.links_link _).2
    · intro name
      rw [(Layout.links_link _).1]
      exact hlabels name

end HackStack
