import HackStack.Proofs.Rom.Cells
import HackStack.Proofs.Rom.Faults

/-!
# What two passes make of a text

In a program that is assembled each label has the number of instructions before it as its address,
wherever it is used; and the symbols that are neither predefined nor labels are its variables,
numbered in the order of their first use. A program with more instructions than fit into the memory
is refused between the passes. So in any other all these numbers are words, and nothing is lost
where they are cast or counted up (`HackStack.Rom.Meets`).

`HackStack.assemble_meets` says when a text is assembled, what it is assembled to, and why it is
refused otherwise.
-/

namespace HackStack

namespace Assembly

/-- **The variables of a list of statements**, in the order of their first use. -/
def variableNames (code : List Statement) : List String :=
  ((instructions code).filterMap (Instruction.variableName? (labelNames code))).eraseDups

end Assembly

open Assembly

/-! ### The program -/

/-- **A program in which all symbols have their numbers.** A symbol that is loaded stands for its
predefined number, or else for the address of its label, or else for the cell of its variable. -/
structure Rom.Meets (rom : Rom) (code : List Statement) : Prop where
  links : List.Forall₂ (·.Links rom.value?) (instructions code) rom.code.toList
  label_iff : ∀ (name : String) (address : Nat), rom.labels[name]? = some address ↔
    ∃ before after, code = before ++ .label name :: after ∧ address = size before
  cell_iff : ∀ (name : String) (cell : Nat), rom.cells[name]? = some cell ↔
    ∃ i, (variableNames code)[i]? = some name ∧ cell = MemoryMap.firstVariable + i
  /-- The number of instructions before any statement is cast to a word as it is. -/
  address_exact : ∀ before after, code = before ++ after →
    (BitVec.ofNat 16 (size before) : Word).toNat = size before
  /-- The next cell behind any variable is counted as it is. -/
  cell_exact : ∀ i < (variableNames code).length,
    (BitVec.ofNat 16 (MemoryMap.firstVariable + i) + 1 : Word).toNat =
      MemoryMap.firstVariable + i + 1

/-- **The program that a text is assembled to** is that of its statements. -/
theorem Rom.meets_of_assemble {text : String} {rom : Rom} (hrom : assemble text = .ok rom) :
    rom.Meets (statementsOf text) := by
  obtain ⟨hfaultless, hfits⟩ := exists_assemble_iff.mp ⟨rom, hrom⟩
  obtain ⟨layout, hcode, hlabels, hassemble⟩ := assemble_of_faultless hfaultless
  rw [if_neg (Nat.not_lt.mpr hfits), hrom] at hassemble
  obtain rfl := Except.ok.inj hassemble
  have hnodup : (labelNames (statementsOf text)).Nodup := (faultless_iff.mp hfaultless).2
  have hnone : ∀ name : String,
      layout.labels[name]? = none ↔ name ∉ labelNames (statementsOf text) := by
    intro name
    rw [hlabels, ← labelAddress?_isSome, Option.not_isSome_iff_eq_none]
  have hlinked := layout.numberedBy_link hnone
  obtain ⟨hsame, hlinks⟩ := layout.links_link
  rw [hcode, List.toList_toArray] at hlinks hlinked
  have hnumbered : Layout.NumberedBy layout.link.cells (variableNames (statementsOf text)) :=
    hlinked
  refine ⟨hlinks, fun name address => ?_, hnumbered.getElem?_eq_some_iff,
    fun before after hsplit => ?_, fun i hi => ?_⟩
  · rw [hsame, hlabels, labelAddress?_eq_some_iff hnodup]
  · have hle : size before ≤ size (statementsOf text) := by
      rw [hsplit, size_append]
      exact Nat.le_add_right _ _
    have hbound := hle.trans hfits
    rw [MemoryMap.size] at hbound
    rw [BitVec.toNat_ofNat, Nat.mod_eq_of_lt (by omega)]
  · have hcells := (Rom.numbered_of_assemble hrom).2
    have hsize := Rom.size_le_of_assemble hrom
    rw [hnumbered.size_eq] at hcells
    rw [MemoryMap.size] at hsize
    have hone : BitVec.toNat (1 : Word) = 1 := rfl
    rw [MemoryMap.firstVariable, BitVec.toNat_add, BitVec.toNat_ofNat, hone]
    omega

/-- **The assembler meets its specification.** A text is assembled exactly if every line that holds
code can be read, no label is declared twice, and the instructions fit into the memory. It is
refused with what is wrong with the first line at fault, or if no line is, with the number of its
instructions. And what it is assembled to is the program of its statements. -/
theorem assemble_meets (text : String) :
    ((∃ rom, assemble text = .ok rom) ↔
      (∀ line ∈ Text.lines text, Readable line) ∧ (labelNames (statementsOf text)).Nodup ∧
        size (statementsOf text) ≤ MemoryMap.size) ∧
    (∀ e, assemble text = .error e ↔ FirstFault (Text.lines text) e ∨
      Faultless (Text.lines text) ∧ MemoryMap.size < size (statementsOf text) ∧
        e = .tooLarge (size (statementsOf text))) ∧
    ∀ rom, assemble text = .ok rom → rom.Meets (statementsOf text) := by
  refine ⟨?_, fun e => assemble_eq_error_iff, fun rom => Rom.meets_of_assemble⟩
  rw [exists_assemble_iff, faultless_iff, and_assoc]
  rfl

/-- A label is no variable, even where it is used before it is declared. -/
example : variableNames (statementsOf "@y\n@END\n@x\n@SP\n(END)\n@y") = ["y", "x"] := by decide

end HackStack
