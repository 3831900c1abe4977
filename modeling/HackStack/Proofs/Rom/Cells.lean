import Mathlib.Data.List.Induction
import HackStack.Proofs.Rom.Statements

/-!
# The cells of variables

A variable is a symbol that is neither predefined nor a label. The second pass gives the variables
of a program their cells, one after the other from `HackStack.MemoryMap.firstVariable` on, in the
order of their first use: that is `HackStack.Layout.NumberedBy`, which every instruction preserves
(`HackStack.Layout.NumberedBy.linkNext`) and which holds of every program
(`HackStack.Layout.numberedBy_link`). So no two variables share a cell
(`HackStack.Layout.numbered_link`).
-/

namespace HackStack

open Assembly

/-- The symbol that an instruction loads, if it is neither predefined nor a label. -/
def Assembly.Instruction.variableName? (labels : List String) : Instruction → Option String
  | .address (.symbol name) =>
    if MemoryMap.predefined? name = none ∧ name ∉ labels then some name else none
  | .address (.number _) | .compute _ => none

theorem Assembly.Instruction.of_variableName? {labels : List String} {i : Instruction}
    {name : String} (h : i.variableName? labels = some name) :
    MemoryMap.predefined? name = none ∧ name ∉ labels := by
  cases i with
  | compute fields => cases h
  | address operand =>
    cases operand with
    | number n => cases h
    | symbol other =>
      rw [variableName?] at h
      split at h
      next hfree =>
        obtain rfl := Option.some.inj h
        exact hfree
      next => cases h

/-! ### First uses -/

/-- The first uses do not change when a name is used again. -/
theorem eraseDups_concat (names : List String) (name : String) :
    (names ++ [name]).eraseDups =
      if name ∈ names then names.eraseDups else names.eraseDups ++ [name] := by
  rw [List.eraseDups_append]
  by_cases h : name ∈ names
  · rw [if_pos h, List.removeAll, List.filter_cons_of_neg (by simpa using h), List.filter_nil]
    exact List.append_nil _
  · rw [if_neg h, List.removeAll, List.filter_cons_of_pos (by simpa using h), List.filter_nil]
    rfl

/-- There are no more first uses than uses. -/
theorem length_eraseDups_le (names : List String) : names.eraseDups.length ≤ names.length := by
  induction names using List.reverseRecOn with
  | nil => exact Nat.le_refl 0
  | append_singleton names name ih =>
    rw [eraseDups_concat, List.length_append]
    split
    · exact Nat.le_add_right_of_le ih
    · rw [List.length_append]
      exact Nat.add_le_add_right ih 1

/-- What stands in a list with one more element. -/
theorem getElem?_concat_eq_some_iff {names : List String} {name other : String} {i : Nat} :
    (names ++ [name])[i]? = some other ↔
      names[i]? = some other ∨ i = names.length ∧ name = other := by
  rw [List.getElem?_append]
  split
  next hlt => exact ⟨Or.inl, fun h => h.resolve_right fun he => Nat.ne_of_lt hlt he.1⟩
  next hge =>
    rw [List.getElem?_eq_none (Nat.not_lt.mp hge), List.getElem?_singleton]
    constructor
    · intro h
      split at h
      next hzero => exact Or.inr ⟨by omega, Option.some.inj h⟩
      next => exact nomatch h
    · rintro (h | ⟨hi, rfl⟩)
      · exact nomatch h
      · rw [if_pos (by omega)]

/-! ### The second pass -/

namespace Layout

variable {labels cells : Std.HashMap String Nat} {names uses : List String} {name : String}

/-- **Cells are numbered by names**: from the first variable on, in their order. -/
structure NumberedBy (cells : Std.HashMap String Nat) (names : List String) : Prop where
  size_eq : cells.size = names.length
  getElem?_eq_some_iff : ∀ (name : String) (cell : Nat), cells[name]? = some cell ↔
    ∃ i, names[i]? = some name ∧ cell = MemoryMap.firstVariable + i

theorem numberedBy_nil : NumberedBy ∅ [] := ⟨rfl, fun name cell => by simp⟩

theorem NumberedBy.getElem?_eq_none (h : NumberedBy cells names) (hname : name ∉ names) :
    cells[name]? = none := by
  rw [Option.eq_none_iff_forall_ne_some]
  intro cell hcell
  obtain ⟨i, hi, -⟩ := (h.getElem?_eq_some_iff name cell).mp hcell
  exact hname (List.mem_of_getElem? hi)

/-- **A new name takes the next cell.** -/
theorem NumberedBy.concat (h : NumberedBy cells names) (hname : name ∉ names) :
    NumberedBy (cells.insert name (MemoryMap.firstVariable + cells.size)) (names ++ [name]) := by
  have hnone := h.getElem?_eq_none hname
  have hnew : name ∉ cells := by
    rw [Std.HashMap.mem_iff_isSome_getElem?, hnone]
    exact Bool.false_ne_true
  constructor
  case size_eq =>
    rw [Std.HashMap.size_insert, if_neg hnew, h.size_eq, List.length_append]
    rfl
  case getElem?_eq_some_iff =>
    intro other cell
    rw [Std.HashMap.getElem?_insert]
    simp only [getElem?_concat_eq_some_iff]
    by_cases hsame : name = other
    · subst hsame
      rw [if_pos (beq_self_eq_true name), h.size_eq]
      constructor
      · exact fun hcell => ⟨_, Or.inr ⟨rfl, rfl⟩, (Option.some.inj hcell).symm⟩
      · rintro ⟨i, hi | ⟨rfl, -⟩, rfl⟩
        · exact absurd (List.mem_of_getElem? hi) hname
        · rfl
    · rw [if_neg (by simpa using hsame), h.getElem?_eq_some_iff]
      simp only [hsame, and_false, or_false]

/-- **Every instruction preserves the numbering**: a variable that is used for the first time is
numbered behind the others. -/
theorem NumberedBy.linkNext {labelNames : List String} {done : Array Op}
    (hlabels : ∀ name : String, labels[name]? = none ↔ name ∉ labelNames)
    (h : NumberedBy cells uses.eraseDups) (i : Instruction) :
    NumberedBy (linkNext labels (done, cells) i).2
      (uses ++ (i.variableName? labelNames).toList).eraseDups := by
  cases i with
  | compute fields =>
    rw [Instruction.variableName?, Option.toList_none, List.append_nil]
    exact h
  | address operand =>
    cases operand with
    | number n =>
      rw [Instruction.variableName?, Option.toList_none, List.append_nil]
      exact h
    | symbol name =>
      change NumberedBy (resolve labels (.symbol name) cells).2 _
      rw [Instruction.variableName?, resolve]
      cases hv : (MemoryMap.predefined? name <|> labels[name]? <|> cells[name]?) with
      | some value =>
        -- The symbol is no variable, or it has been used before.
        dsimp only
        by_cases hfree : MemoryMap.predefined? name = none ∧ name ∉ labelNames
        · rw [hfree.1, (hlabels name).mpr hfree.2] at hv
          obtain ⟨i, hi, -⟩ := (h.getElem?_eq_some_iff name value).mp hv
          have hused := List.mem_eraseDups.mp (List.mem_of_getElem? hi)
          rwa [if_pos hfree, Option.toList_some, eraseDups_concat, if_pos hused]
        · rwa [if_neg hfree, Option.toList_none, List.append_nil]
      | none =>
        -- The symbol is a variable that is used for the first time.
        simp only [Option.orElse_eq_orElse, Option.orElse_eq_or, Option.or_eq_none_iff] at hv
        obtain ⟨hpredefined, hlabel, hnew⟩ := hv
        have hunused : name ∉ uses := by
          intro hmem
          obtain ⟨i, hi⟩ := List.getElem?_of_mem (List.mem_eraseDups.mpr hmem)
          have hcell := (h.getElem?_eq_some_iff name _).mpr ⟨i, hi, rfl⟩
          exact absurd (hnew.symm.trans hcell) (by simp)
        rw [if_pos ⟨hpredefined, (hlabels name).mp hlabel⟩, Option.toList_some, eraseDups_concat,
          if_neg hunused]
        exact h.concat fun hmem => hunused (List.mem_eraseDups.mp hmem)

/-- **The second pass numbers the variables** in the order of their first use. -/
theorem NumberedBy.foldl {labelNames : List String} {done : Array Op}
    (hlabels : ∀ name : String, labels[name]? = none ↔ name ∉ labelNames)
    (h : NumberedBy cells uses.eraseDups) (source : List Instruction) :
    NumberedBy (source.foldl (Layout.linkNext labels) (done, cells)).2
      (uses ++ source.filterMap (Instruction.variableName? labelNames)).eraseDups := by
  induction source generalizing done cells uses with
  | nil => rwa [List.filterMap_nil, List.append_nil]
  | cons i rest ih =>
    have hstep := @ih (Layout.linkNext labels (done, cells) i).2 _
      (Layout.linkNext labels (done, cells) i).1 (h.linkNext hlabels i)
    rw [List.filterMap_eq_flatMap_toList, List.flatMap_cons, ← List.append_assoc,
      ← List.filterMap_eq_flatMap_toList]
    exact hstep

/-- **The variables of a program** have the cells that the order of their first use gives them. -/
theorem numberedBy_link (layout : Layout) {labelNames : List String}
    (hlabels : ∀ name : String, layout.labels[name]? = none ↔ name ∉ labelNames) :
    NumberedBy layout.link.cells
      (layout.code.toList.filterMap (Instruction.variableName? labelNames)).eraseDups := by
  have hfold := @NumberedBy.foldl layout.labels ∅ [] labelNames #[] hlabels numberedBy_nil
    layout.code.toList
  rw [Array.foldl_toList] at hfold
  rw [link]
  exact hfold

/-- **The variables found so far are numbered** from the first cell on. -/
structure Numbered (labels cells : Std.HashMap String Nat) : Prop where
  /-- A variable is neither predefined nor a label. -/
  unresolved : ∀ (name : String) (cell : Nat), cells[name]? = some cell →
    MemoryMap.predefined? name = none ∧ labels[name]? = none
  /-- As many cells are taken as there are variables. -/
  bounds : ∀ (name : String) (cell : Nat), cells[name]? = some cell →
    MemoryMap.firstVariable ≤ cell ∧ cell < MemoryMap.firstVariable + cells.size
  /-- Different variables have different cells. -/
  injective : ∀ (name other : String) (cell : Nat), cells[name]? = some cell →
    cells[other]? = some cell → name = other

/-- Cells that are numbered by names are numbered, if no name stands for anything else. -/
theorem NumberedBy.numbered (h : NumberedBy cells names)
    (hnames : ∀ name ∈ names, MemoryMap.predefined? name = none ∧ labels[name]? = none) :
    Numbered labels cells where
  unresolved name cell hcell := by
    obtain ⟨i, hi, -⟩ := (h.getElem?_eq_some_iff name cell).mp hcell
    exact hnames name (List.mem_of_getElem? hi)
  bounds name cell hcell := by
    obtain ⟨i, hi, rfl⟩ := (h.getElem?_eq_some_iff name cell).mp hcell
    obtain ⟨hlt, -⟩ := List.getElem?_eq_some_iff.mp hi
    rw [h.size_eq]
    exact ⟨Nat.le_add_right _ _, Nat.add_lt_add_left hlt _⟩
  injective name other cell hcell hother := by
    obtain ⟨i, hi, rfl⟩ := (h.getElem?_eq_some_iff name cell).mp hcell
    obtain ⟨j, hj, hsame⟩ := (h.getElem?_eq_some_iff other _).mp hother
    obtain rfl := Nat.add_left_cancel hsame
    exact Option.some.inj (hi.symm.trans hj)

/-- **The variables of every program are numbered**, and there are no more of them than
instructions. -/
theorem numbered_link (layout : Layout) :
    Numbered layout.link.labels layout.link.cells ∧
      layout.link.cells.size ≤ layout.link.code.size := by
  -- It does not matter which labels there are, as long as the layout lists them.
  have hlabels : ∀ name : String, layout.labels[name]? = none ↔ name ∉ layout.labels.keys := by
    intro name
    rw [Std.HashMap.mem_keys, Std.HashMap.mem_iff_isSome_getElem?, Option.not_isSome_iff_eq_none]
  have hcells := layout.numberedBy_link hlabels
  obtain ⟨hsame, hlinks⟩ := layout.links_link
  constructor
  · refine hcells.numbered fun name hname => ?_
    obtain ⟨i, -, hi⟩ := List.mem_filterMap.mp (List.mem_eraseDups.mp hname)
    obtain ⟨hpredefined, hlabel⟩ := Instruction.of_variableName? hi
    rw [hsame]
    exact ⟨hpredefined, (hlabels name).mpr hlabel⟩
  · calc layout.link.cells.size
        = _ := hcells.size_eq
      _ ≤ _ := length_eraseDups_le _
      _ ≤ layout.code.toList.length := List.length_filterMap_le _ _
      _ = layout.link.code.toList.length := hlinks.length_eq

end Layout

/-- **The variables of an assembled program** have cells of their own, which are no labels. -/
theorem Rom.numbered_of_assemble {text : String} {rom : Rom} (hrom : assemble text = .ok rom) :
    Layout.Numbered rom.labels rom.cells ∧ rom.cells.size ≤ rom.code.size := by
  obtain ⟨layout, -, rfl, -⟩ := Layout.exists_layout_of_assemble hrom
  exact layout.numbered_link

/-- A symbol that is neither predefined nor a label is a variable. -/
theorem Rom.cells_of_value? {rom : Rom} {name : String} {n : Nat} (h : rom.value? name = some n)
    (hpredefined : MemoryMap.predefined? name = none) (hlabel : rom.labels[name]? = none) :
    rom.cells[name]? = some n := by
  rwa [Rom.value?, hpredefined, hlabel] at h

/-- Predefined symbols stand for words. -/
theorem predefined?_lt {name : String} {n : Nat} (h : MemoryMap.predefined? name = some n) :
    n < 65536 := by
  have hall : ∀ entry ∈ MemoryMap.predefined, entry.2 < 65536 := by decide
  obtain ⟨before, after, hsplit, -⟩ := List.lookup_eq_some_iff.mp h
  refine hall (name, n) ?_
  rw [hsplit]
  exact List.mem_append_right _ List.mem_cons_self

/-- **What a symbol stands for is a word**, in every program. -/
theorem Rom.value?_lt_of_assemble {text : String} {rom : Rom} (hrom : assemble text = .ok rom)
    {name : String} {n : Nat} (h : rom.value? name = some n) : n < 65536 := by
  have hsize : rom.code.size ≤ 32768 := Rom.size_le_of_assemble hrom
  obtain ⟨hnumbered, hcells⟩ := Rom.numbered_of_assemble hrom
  rw [value?] at h
  cases hpredefined : MemoryMap.predefined? name with
  | some cell =>
    rw [hpredefined] at h
    obtain rfl : cell = n := Option.some.inj h
    exact predefined?_lt hpredefined
  | none =>
    rw [hpredefined] at h
    cases hlabel : rom.labels[name]? with
    | some address =>
      rw [hlabel] at h
      obtain rfl : address = n := Option.some.inj h
      have hle := Rom.label_le_of_assemble hrom hlabel
      omega
    | none =>
      rw [hlabel] at h
      have hcell : n < 16 + rom.cells.size := (hnumbered.bounds name n h).2
      omega

end HackStack
