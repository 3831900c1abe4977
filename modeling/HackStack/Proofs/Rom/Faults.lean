import Mathlib.Data.List.Induction
import HackStack.Proofs.Rom.Statements

/-!
# The lines at which a text is refused

A line of assembly is at fault if it cannot be read, or if it declares a label that a line above it
has declared (`HackStack.fault?`). A text is refused at its first line that is at fault, or else for
its size (`HackStack.assemble_eq_error_iff`); any other text is assembled
(`HackStack.exists_assemble_iff`). No line is at fault if all can be read and no label is declared
twice (`HackStack.faultless_iff`).
-/

namespace HackStack

open Assembly

/-! ### Faults -/

/-- **What is wrong with a line** below the lines above it. -/
def fault? (above : List (List Char)) (line : List Char) : Option AssemblyError :=
  if (Text.code line).isEmpty then none
  else
    match Statement.read (String.ofList (Text.code line)) with
    | .error why => some (.unreadable (above.length + 1) why)
    | .ok (.label name) =>
      if name ∈ labelNames (above.filterMap statementOn?) then some (.duplicateLabel name) else none
    | .ok _ => none

/-- **Lines none of which is at fault.** -/
inductive Faultless : List (List Char) → Prop
  | nil : Faultless []
  | concat {lines : List (List Char)} {line : List Char} (h : Faultless lines)
      (hline : fault? lines line = none) : Faultless (lines ++ [line])

/-- **The first line that is at fault**, and what is wrong with it. -/
def FirstFault (lines : List (List Char)) (e : AssemblyError) : Prop :=
  ∃ above line below, lines = above ++ line :: below ∧ Faultless above ∧
    fault? above line = some e

variable {lines above : List (List Char)} {line : List Char} {e : AssemblyError} {text : String}

/-- Either no line is at fault, or one is the first. -/
theorem faultless_or_firstFault (lines : List (List Char)) :
    Faultless lines ∨ ∃ e, FirstFault lines e := by
  induction lines using List.reverseRecOn with
  | nil => exact Or.inl .nil
  | append_singleton lines line ih =>
    rcases ih with h | ⟨e, above, first, below, rfl, habove, hfault⟩
    · cases hline : fault? lines line with
      | none => exact Or.inl (h.concat hline)
      | some e => exact Or.inr ⟨e, lines, line, [], rfl, h, hline⟩
    · exact Or.inr ⟨e, above, first, below ++ [line], by simp, habove, hfault⟩

/-- A line is not at fault if it can be read and declares no label again. -/
theorem fault?_eq_none_iff :
    fault? above line = none ↔ Readable line ∧
      ∀ name ∈ labelNames (statementOn? line).toList,
        name ∉ labelNames (above.filterMap statementOn?) := by
  rw [fault?, Readable, statementOn?]
  by_cases hempty : (Text.code line).isEmpty
  · rw [if_pos hempty, if_pos hempty]
    refine ⟨fun _ => ⟨fun hne => ?_, fun _ hname => absurd hname List.not_mem_nil⟩, fun _ => rfl⟩
    exact absurd (List.isEmpty_iff.mp hempty) hne
  · have hne : Text.code line ≠ [] := fun he => hempty (he ▸ rfl)
    rw [if_neg hempty, if_neg hempty]
    cases hread : Statement.read (String.ofList (Text.code line)) with
    | error why => simp [hne]
    | ok s =>
      cases s with
      | instruction i => simp [Except.toOption, labelNames, Statement.labelName?]
      | comment text => simp [Except.toOption, labelNames, Statement.labelName?]
      | label name =>
        -- A label is the only statement that the lines above can rule out.
        dsimp only
        by_cases hmem : name ∈ labelNames (above.filterMap statementOn?)
        · rw [if_pos hmem]
          exact ⟨fun h => absurd h (by simp), fun h => absurd hmem (h.2 name List.mem_cons_self)⟩
        · rw [if_neg hmem]
          refine ⟨fun _ => ⟨fun _ => ⟨_, rfl⟩, fun other hother => ?_⟩, fun _ => rfl⟩
          exact List.mem_singleton.mp hother ▸ hmem

theorem faultless_concat :
    Faultless (lines ++ [line]) ↔ Faultless lines ∧ fault? lines line = none := by
  refine ⟨fun h => ?_, fun h => h.1.concat h.2⟩
  generalize hall : lines ++ [line] = all at h
  cases h with
  | nil => exact absurd hall (by simp)
  | concat h hline =>
    obtain ⟨rfl, hlast⟩ := List.append_inj' hall rfl
    exact ⟨h, List.singleton_inj.mp hlast ▸ hline⟩

theorem filterMap_statementOn?_concat (lines : List (List Char)) (line : List Char) :
    (lines ++ [line]).filterMap statementOn? =
      lines.filterMap statementOn? ++ (statementOn? line).toList := by
  rw [List.filterMap_append, List.filterMap_eq_flatMap_toList, List.filterMap_eq_flatMap_toList,
    List.flatMap_singleton]

/-- **No line is at fault** if all lines can be read and no label is declared twice. -/
theorem faultless_iff :
    Faultless lines ↔ (∀ line ∈ lines, Readable line) ∧
      (labelNames (lines.filterMap statementOn?)).Nodup := by
  induction lines using List.reverseRecOn with
  | nil => exact ⟨fun _ => ⟨List.forall_mem_nil _, List.nodup_nil⟩, fun _ => .nil⟩
  | append_singleton lines line ih =>
    have hone : (labelNames (statementOn? line).toList).Nodup := by
      cases statementOn? line with
      | none => exact List.nodup_nil
      | some s =>
        cases s with
        | label name => exact List.pairwise_singleton _ _
        | instruction i => exact List.nodup_nil
        | comment text => exact List.nodup_nil
    rw [faultless_concat, ih, fault?_eq_none_iff, filterMap_statementOn?_concat, labelNames_append,
      List.nodup_append, List.forall_mem_append, List.forall_mem_singleton]
    constructor
    · rintro ⟨⟨hreadable, hnodup⟩, hline, hnew⟩
      refine ⟨⟨hreadable, hline⟩, hnodup, hone, ?_⟩
      intro name hname other hother he
      exact hnew other hother (he ▸ hname)
    · rintro ⟨⟨hreadable, hline⟩, hnodup, -, hnew⟩
      refine ⟨⟨hreadable, hnodup⟩, hline, ?_⟩
      intro name hname hmem
      exact hnew name hmem name hname rfl

/-! ### The first pass -/

/-- **The first pass goes through lines that are not at fault**: it finds their instructions, and
their labels with the numbers of instructions before them. -/
theorem Layout.foldlM_of_faultless (h : Faultless lines) :
    ∃ layout : Layout, (Text.codeFrom 1 lines).foldlM addLine {} = .ok layout ∧
      layout.code = (instructions (lines.filterMap statementOn?)).toArray ∧
      ∀ name : String, layout.labels[name]? =
        labelAddress? name (lines.filterMap statementOn?) := by
  obtain ⟨hreadable, hnodup⟩ := faultless_iff.mp h
  obtain ⟨labels, hadd, hlabels⟩ := addAll_eq hnodup
  exact ⟨_, (foldlM_of_readable hreadable 1 {}).trans hadd, rfl, hlabels⟩

/-- **The first pass stops at a line that is at fault.** -/
theorem Layout.addLine_of_fault {layout : Layout}
    (hlabels : ∀ name : String, name ∈ layout.labels ↔
      name ∈ labelNames (above.filterMap statementOn?))
    (h : fault? above line = some e) :
    (Text.code line).isEmpty = false ∧
      addLine layout (above.length + 1, String.ofList (Text.code line)) = .error e := by
  rw [fault?] at h
  split at h
  next => cases h
  next hempty =>
    refine ⟨Bool.eq_false_iff.mpr hempty, ?_⟩
    rw [addLine]
    cases hread : Statement.read (String.ofList (Text.code line)) with
    | error why =>
      rw [hread] at h
      exact congrArg Except.error (Option.some.inj h)
    | ok s =>
      rw [hread] at h
      cases s with
      | instruction i => cases h
      | comment text => cases h
      | label name =>
        dsimp only at h ⊢
        split at h
        next htaken =>
          obtain rfl := Option.some.inj h
          exact add_label_of_mem ((hlabels name).mpr htaken)
        next => cases h

/-! ### Errors -/

/-- **A text is refused at its first line that is at fault.** -/
theorem assemble_of_firstFault (h : FirstFault (Text.lines text) e) : assemble text = .error e := by
  obtain ⟨above, line, below, hlines, habove, hfault⟩ := h
  obtain ⟨layout, hfold, -, hlabels⟩ := Layout.foldlM_of_faultless habove
  have hdeclared : ∀ name : String, name ∈ layout.labels ↔
      name ∈ labelNames (above.filterMap statementOn?) := by
    intro name
    rw [Std.HashMap.mem_iff_isSome_getElem?, hlabels, labelAddress?_isSome]
  obtain ⟨hcode, hadd⟩ := Layout.addLine_of_fault hdeclared hfault
  rw [Nat.add_comm above.length 1] at hadd
  have hlayout : Layout.ofText text = .error e := by
    rw [Layout.ofText, Text.codeLines_eq, hlines, Text.codeFrom_append, List.foldlM_append, hfold,
      Text.codeFrom_cons, hcode]
    simp only [Bool.false_eq_true, if_false, List.foldlM_cons, bind, Except.bind, hadd]
  rw [assemble, hlayout]
  rfl

/-- **Any other text is refused for its size only.** -/
theorem assemble_of_faultless (h : Faultless (Text.lines text)) :
    ∃ layout : Layout, layout.code = (instructions (statementsOf text)).toArray ∧
      (∀ name : String, layout.labels[name]? = labelAddress? name (statementsOf text)) ∧
      assemble text = if MemoryMap.size < size (statementsOf text) then
        .error (.tooLarge (size (statementsOf text))) else .ok layout.link := by
  obtain ⟨layout, hfold, hcode, hlabels⟩ := Layout.foldlM_of_faultless h
  have hsize : layout.code.size = size (statementsOf text) := by
    rw [hcode, List.size_toArray, ← length_instructions]
    rfl
  refine ⟨layout, hcode, hlabels, ?_⟩
  rw [assemble, Layout.ofText, Text.codeLines_eq, hfold]
  simp only [bind, Except.bind, hsize]
  split <;> rfl

theorem Faultless.left {below : List (List Char)} (h : Faultless (above ++ below)) :
    Faultless above := by
  induction below using List.reverseRecOn with
  | nil => rwa [List.append_nil] at h
  | append_singleton below line ih =>
    rw [← List.append_assoc] at h
    exact ih (faultless_concat.mp h).1

theorem FirstFault.not_faultless (h : FirstFault lines e) : ¬Faultless lines := by
  intro hlines
  obtain ⟨above, line, below, rfl, -, hfault⟩ := h
  rw [List.append_cons] at hlines
  exact absurd (hfault.symm.trans (faultless_concat.mp hlines.left).2) (by simp)

/-- **A text is assembled** if no line is at fault and the program is not too large. -/
theorem exists_assemble_iff :
    (∃ rom, assemble text = .ok rom) ↔
      Faultless (Text.lines text) ∧ size (statementsOf text) ≤ MemoryMap.size := by
  rcases faultless_or_firstFault (Text.lines text) with h | ⟨e, hfirst⟩
  · obtain ⟨layout, -, -, hassemble⟩ := assemble_of_faultless h
    rw [hassemble]
    split
    next hlarge => exact ⟨fun h => absurd h (by simp), fun h => absurd hlarge (Nat.not_lt.mpr h.2)⟩
    next hfits => exact ⟨fun _ => ⟨h, Nat.not_lt.mp hfits⟩, fun _ => ⟨_, rfl⟩⟩
  · rw [assemble_of_firstFault hfirst]
    exact ⟨fun h => absurd h (by simp), fun h => absurd h.1 hfirst.not_faultless⟩

/-- **A text is refused** at its first line that is at fault, or else for its size. -/
theorem assemble_eq_error_iff :
    assemble text = .error e ↔ FirstFault (Text.lines text) e ∨
      Faultless (Text.lines text) ∧ MemoryMap.size < size (statementsOf text) ∧
        e = .tooLarge (size (statementsOf text)) := by
  constructor
  · intro hassemble
    rcases faultless_or_firstFault (Text.lines text) with h | ⟨e', hfirst⟩
    · obtain ⟨layout, -, -, heq⟩ := assemble_of_faultless h
      rw [hassemble] at heq
      split at heq
      next hlarge => exact Or.inr ⟨h, hlarge, Except.error.inj heq⟩
      next => exact nomatch heq
    · rw [assemble_of_firstFault hfirst] at hassemble
      exact Or.inl (Except.error.inj hassemble ▸ hfirst)
  · rintro (hfirst | ⟨h, hlarge, rfl⟩)
    · exact assemble_of_firstFault hfirst
    · obtain ⟨layout, -, -, hassemble⟩ := assemble_of_faultless h
      rw [hassemble, if_pos hlarge]

end HackStack
