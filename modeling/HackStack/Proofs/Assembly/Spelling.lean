import HackStack.Proofs.Assembly.RoundTrip
import HackStack.Step

/-!
# What assembly can be read to

A line can be read to exactly the statements that are `HackStack.Assembly.Statement.Written`, and
each of them is read back from its written form. Lines are not unique, though: numbers may start
with zeros, and a comment may be written with more blanks or with none. Compute instructions are
different. Their fields come from closed sets and nothing may stand between them, so that apart from
the blanks around it a line holds a compute instruction only if it is its written form
(`HackStack.Assembly.Compute.read_eq_ok_iff`).

A reader decides by the first characters which of the four kinds of statement a line is.
`HackStack.Assembly.Statement.exists_of_readTrimmed` looks at this once, and everything else is
about one of the kinds.
-/

namespace HackStack.Assembly

open Text

/-! ### Fields -/

/-- A text that was cut is put together from its two parts. -/
theorem eq_of_cutAt_eq_some {separator : Char} {text front rest : List Char}
    (h : cutAt separator text = some (front, rest)) : text = front ++ separator :: rest := by
  rw [cutAt] at h
  have hhead := List.head?_dropWhile_not (· ≠ separator) text
  cases hdrop : text.dropWhile (· ≠ separator) with
  | nil =>
    rw [hdrop] at h
    cases h
  | cons c behind =>
    rw [hdrop] at h hhead
    obtain ⟨hfront, hbehind⟩ := Prod.mk.inj (Option.some.inj h)
    obtain rfl : c = separator := by simpa using hhead
    rw [← List.takeWhile_append_dropWhile (p := (· ≠ c)) (l := text), hdrop, hfront, hbehind]

theorem Dest.eq_of_read {text : List Char} {dest : Dest}
    (h : Dest.read (String.ofList text) = .ok dest) : text = dest.mnemonic.toList := by
  rw [Dest.read] at h
  split at h
  next found hfound =>
    obtain rfl := Except.ok.inj h
    have hname := List.find?_some hfound
    rw [of_decide_eq_true hname, String.toList_ofList]
  next => cases h

theorem Comp.eq_of_read {text : List Char} {comp : Comp}
    (h : Comp.read (String.ofList text) = .ok comp) : text = comp.mnemonic.toList := by
  rw [Comp.read] at h
  split at h
  next found hfound =>
    obtain rfl := Except.ok.inj h
    have hname := List.find?_some hfound
    rw [of_decide_eq_true hname, String.toList_ofList]
  next => cases h

theorem Jump.eq_of_read {text : List Char} {jump : Jump}
    (h : Jump.read (String.ofList text) = .ok jump) : text = jump.mnemonic.toList := by
  rw [Jump.read] at h
  split at h
  next found hfound =>
    obtain rfl := Except.ok.inj h
    have hname := List.find?_some hfound
    rw [of_decide_eq_true hname, String.toList_ofList]
  next => cases h

namespace Compute

variable {dest : Option Dest} {text : List Char} {fields : Compute}

/-- What stands behind the destination is what is written there. -/
theorem eq_of_readTail (h : readTail dest text = .ok fields) :
    fields.dest = dest ∧ text = (renderTail fields.comp fields.jump).toList := by
  rw [readTail] at h
  split at h
  next front rest hcut =>
    obtain ⟨comp, hcomp, h⟩ := bind_eq_ok_iff.mp h
    obtain ⟨jump, hjump, h⟩ := bind_eq_ok_iff.mp h
    obtain rfl := Except.ok.inj h
    refine ⟨rfl, ?_⟩
    rw [eq_of_cutAt_eq_some hcut, toList_renderTail_some, Comp.eq_of_read hcomp,
      Jump.eq_of_read hjump]
  next =>
    obtain ⟨comp, hcomp, h⟩ := bind_eq_ok_iff.mp h
    obtain rfl := Except.ok.inj h
    refine ⟨rfl, ?_⟩
    rw [toList_renderTail_none, Comp.eq_of_read hcomp]

/-- **Fields are read from their written form only.** -/
theorem read_eq_ok_iff : read text = .ok fields ↔ text = fields.render.toList := by
  constructor
  · intro h
    rw [read] at h
    split at h
    next front rest hcut =>
      obtain ⟨dest, hdest, h⟩ := bind_eq_ok_iff.mp h
      obtain ⟨hfields, hrest⟩ := eq_of_readTail h
      obtain ⟨_, comp, jump⟩ := fields
      obtain rfl := hfields
      rw [eq_of_cutAt_eq_some hcut, toList_render_some, Dest.eq_of_read hdest, hrest]
    next =>
      obtain ⟨hfields, htext⟩ := eq_of_readTail h
      obtain ⟨_, comp, jump⟩ := fields
      obtain rfl := hfields
      rw [toList_render_none, htext]
  · rintro rfl
    exact read_render fields

end Compute

/-! ### Operands and labels -/

/-- A number that was read as an operand can be loaded. -/
theorem Operand.exists_of_readNumber {digits : List Char} {operand : Operand}
    (h : Operand.readNumber digits = .ok operand) :
    ∃ n, operand = .number n ∧ n ≤ MemoryMap.maxAddress := by
  rw [readNumber] at h
  split at h
  next =>
    split at h
    next => cases h
    next n _ =>
      split at h
      next hle => exact ⟨n, (Except.ok.inj h).symm, hle⟩
      next => cases h
  next => cases h

/-- **An operand that was read** is a number that can be loaded or a symbol. -/
theorem Operand.written_of_read {text : List Char} {operand : Operand}
    (h : Operand.read text = .ok operand)
    (hlast : ∀ c, text.getLast? = some c → isBlank c = false) :
    (Statement.instruction (.address operand)).Written := by
  cases text with
  | nil => cases h
  | cons c rest =>
    rw [Operand.read] at h
    split at h
    next =>
      obtain ⟨n, rfl, hle⟩ := exists_of_readNumber h
      exact hle
    next hdigit =>
      obtain rfl := Except.ok.inj h
      have hlist : (String.ofList (c :: rest)).toList = c :: rest := String.toList_ofList
      refine IsSymbol.mk ⟨c, rest, hlist, Bool.eq_false_iff.mpr hdigit⟩ ?_
      rw [hlist]
      exact hlast

theorem labelName?_ne_nil {rest name : List Char} (h : labelName? rest = some name) :
    name ≠ [] := by
  rw [labelName?] at h
  split at h
  next hname => exact Option.some.inj h ▸ hname.2
  next => cases h

/-! ### Statements -/

namespace Statement

variable {line : List Char} {s : Statement}

/-- **The four kinds of statement**: what was read is a comment, an operand behind an `@`, a label
between parentheses, or the fields of a compute instruction. -/
theorem exists_of_readTrimmed (h : readTrimmed line = .ok s) :
    (∃ text, s = .comment (String.ofList (trim text))) ∨
    (∃ text operand, line = '@' :: text ∧ Operand.read text = .ok operand ∧
      s = .instruction (.address operand)) ∨
    (∃ rest name, labelName? rest = some name ∧ s = .label (String.ofList name)) ∨
    ∃ fields, Compute.read line = .ok fields ∧ s = .instruction (.compute fields) := by
  unfold readTrimmed at h
  split at h
  next text => exact Or.inl ⟨text, (Except.ok.inj h).symm⟩
  next text =>
    obtain ⟨operand, hoperand, h⟩ := bind_eq_ok_iff.mp h
    exact Or.inr (Or.inl ⟨text, operand, rfl, hoperand, (Except.ok.inj h).symm⟩)
  next rest =>
    split at h
    next name hname => exact Or.inr (Or.inr (Or.inl ⟨rest, name, hname, (Except.ok.inj h).symm⟩))
    next => cases h
  next =>
    obtain ⟨fields, hfields, h⟩ := bind_eq_ok_iff.mp h
    exact Or.inr (Or.inr (Or.inr ⟨fields, hfields, (Except.ok.inj h).symm⟩))

/-- **What a line was read to** is what a line can be read to. -/
theorem written_of_read {line : String} (h : read line = .ok s) : s.Written := by
  have htrimmed := trimmed_trim line.toList
  rcases exists_of_readTrimmed h with ⟨text, rfl⟩ | ⟨text, operand, htext, hoperand, rfl⟩ |
    ⟨rest, name, hname, rfl⟩ | ⟨fields, -, rfl⟩
  · change Trimmed (String.ofList (trim text)).toList
    rw [String.toList_ofList]
    exact trimmed_trim text
  · refine Operand.written_of_read hoperand fun c hc => htrimmed.2 c ?_
    rw [htext, List.getLast?_cons, hc]
    rfl
  · intro hempty
    have hlist := congrArg String.toList hempty
    rw [String.toList_ofList] at hlist
    exact labelName?_ne_nil hname hlist
  · trivial

/-- **A line holds a compute instruction** only if it is its written form, blanks around it
apart. -/
theorem read_eq_compute_iff {line : String} {fields : Compute} :
    read line = .ok (.instruction (.compute fields)) ↔
      trim line.toList = fields.render.toList := by
  constructor
  · intro h
    rcases exists_of_readTrimmed h with ⟨text, hs⟩ | ⟨text, operand, -, -, hs⟩ |
      ⟨rest, name, -, hs⟩ | ⟨fields', hfields, hs⟩
    · cases hs
    · cases hs
    · cases hs
    · cases hs
      exact Compute.read_eq_ok_iff.mp hfields
  · intro h
    have hwritten : (instruction (.compute fields)).Written := trivial
    rw [read, h]
    exact hwritten.readTrimmed_render rfl

/-- **What assembly can be read to**, and how: a line can be read to a statement exactly if the
statement is read back from its written form, and a compute instruction has no other spelling. -/
theorem read_spellings :
    (∀ s, (∃ line, read line = .ok s) ↔ s.Written) ∧
    (∀ s, s.Written ↔ read s.render = .ok s) ∧
    ∀ line fields, read line = .ok (.instruction (.compute fields)) ↔
      trim line.toList = fields.render.toList := by
  refine ⟨fun s => ⟨?_, ?_⟩, fun s => ⟨?_, ?_⟩, fun line fields => read_eq_compute_iff⟩
  · rintro ⟨line, h⟩
    exact written_of_read h
  · intro h
    exact ⟨s.render, h.read_render⟩
  · intro h
    exact h.read_render
  · intro h
    exact written_of_read h

end Statement

end HackStack.Assembly
