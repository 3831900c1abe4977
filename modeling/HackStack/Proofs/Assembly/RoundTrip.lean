import Mathlib.Data.List.TakeWhile
import HackStack.Assembly.Reader
import HackStack.Proofs.Symbol

/-!
# Written statements are read back

A statement is *plain* (`HackStack.Assembly.Statement.Plain`) if its numbers can be loaded, its
symbols are names and its comment is a trimmed text on one line. This is what a translation writes.
A line can hold more than that: it is `HackStack.Assembly.Statement.Written` if its number can be
loaded, its symbol starts with no digit and ends with no blank, its label is not empty and the text
of its comment is trimmed. The main result of this file is that such a statement is read back from
its written form (`HackStack.Assembly.Statement.Written.read_render`).

The four kinds of statement are told apart by their first characters. The three fields of a compute
instruction are told apart by the separators `=` and `;`, which occur in no mnemonic; that is
`HackStack.Assembly.Compute.read_render`.
-/

namespace HackStack.Assembly

open Text

/-! ### Cutting at a separator -/

/-- A text is cut at the first separator. -/
theorem cutAt_append {separator : Char} {text rest : List Char} (h : separator ∉ text) :
    cutAt separator (text ++ separator :: rest) = some (text, rest) := by
  have hne : ∀ c ∈ text, decide (c ≠ separator) = true := by
    intro c hc
    exact decide_eq_true (ne_of_mem_of_not_mem hc h)
  rw [cutAt, List.dropWhile_append_of_pos hne, List.takeWhile_append_of_pos hne]
  simp

/-- A text without the separator is not cut. -/
theorem cutAt_eq_none {separator : Char} {text : List Char} (h : separator ∉ text) :
    cutAt separator text = none := by
  have hdrop : text.dropWhile (· ≠ separator) = [] := by
    rw [List.dropWhile_eq_nil_iff]
    intro c hc
    exact decide_eq_true (ne_of_mem_of_not_mem hc h)
  rw [cutAt, hdrop]

/-! ### Mnemonics -/

/-- A character that can stand in a mnemonic: neither a blank, nor a separator, nor one that starts
another kind of statement. -/
def isMnemonicChar (c : Char) : Bool :=
  !isBlank c && c ≠ '=' && c ≠ ';' && c ≠ '/' && c ≠ '@' && c ≠ '('

theorem Dest.isMnemonicChar_of_mem (dest : Dest) :
    ∀ c ∈ dest.mnemonic.toList, isMnemonicChar c = true := by
  cases dest <;> exact List.all_eq_true.mp (by decide)

theorem Comp.isMnemonicChar_of_mem (comp : Comp) :
    ∀ c ∈ comp.mnemonic.toList, isMnemonicChar c = true := by
  cases comp <;> (try cases ‹Input›) <;> exact List.all_eq_true.mp (by decide)

theorem Jump.isMnemonicChar_of_mem (jump : Jump) :
    ∀ c ∈ jump.mnemonic.toList, isMnemonicChar c = true := by
  cases jump <;> exact List.all_eq_true.mp (by decide)

/-- No separator stands in a mnemonic. -/
theorem not_mem_of_isMnemonicChar {text : List Char} {separator : Char}
    (h : ∀ c ∈ text, isMnemonicChar c = true) (hs : isMnemonicChar separator = false) :
    separator ∉ text := by
  intro hmem
  rw [h separator hmem] at hs
  exact Bool.noConfusion hs

/-! ### Compute instructions -/

namespace Compute

/-- What is written behind the destination. -/
def renderTail (comp : Comp) (jump : Option Jump) : String :=
  comp.mnemonic ++
    match jump with
    | some jump => ";" ++ jump.mnemonic
    | none => ""

/-- The written form, from its destination on. -/
theorem render_eq (fields : Compute) :
    fields.render =
      (match fields.dest with
        | some dest => dest.mnemonic ++ "="
        | none => "") ++ renderTail fields.comp fields.jump :=
  String.append_assoc

/-- The written form without a destination. -/
theorem toList_render_none (comp : Comp) (jump : Option Jump) :
    (Compute.mk none comp jump).render.toList = (renderTail comp jump).toList := by
  rw [render_eq, String.empty_append]

/-- The written form with a destination. -/
theorem toList_render_some (dest : Dest) (comp : Comp) (jump : Option Jump) :
    (Compute.mk (some dest) comp jump).render.toList =
      dest.mnemonic.toList ++ '=' :: (renderTail comp jump).toList := by
  rw [render_eq, String.toList_append, String.toList_append, List.append_assoc]
  rfl

theorem toList_renderTail_none (comp : Comp) :
    (renderTail comp none).toList = comp.mnemonic.toList := by
  rw [renderTail, String.append_empty]

theorem toList_renderTail_some (comp : Comp) (jump : Jump) :
    (renderTail comp (some jump)).toList =
      comp.mnemonic.toList ++ ';' :: jump.mnemonic.toList := by
  rw [renderTail, String.toList_append, String.toList_append]
  rfl

/-- The fields behind the destination are read back. -/
theorem readTail_render (dest : Option Dest) (comp : Comp) (jump : Option Jump) :
    readTail dest (renderTail comp jump).toList = .ok ⟨dest, comp, jump⟩ := by
  have hsemi : ';' ∉ comp.mnemonic.toList :=
    not_mem_of_isMnemonicChar comp.isMnemonicChar_of_mem (by decide)
  cases jump with
  | none =>
    rw [toList_renderTail_none, readTail, cutAt_eq_none hsemi]
    simp only [String.ofList_toList, Comp.read, Comp.ofMnemonic?_mnemonic]
    rfl
  | some jump =>
    rw [toList_renderTail_some, readTail, cutAt_append hsemi]
    simp only [String.ofList_toList, Comp.read, Jump.read, Comp.ofMnemonic?_mnemonic,
      Jump.ofMnemonic?_mnemonic]
    rfl

/-- The characters of the written form behind the destination. -/
theorem mem_renderTail {comp : Comp} {jump : Option Jump} {c : Char}
    (h : c ∈ (renderTail comp jump).toList) : isMnemonicChar c = true ∨ c = ';' := by
  cases jump with
  | none =>
    rw [toList_renderTail_none] at h
    exact Or.inl (comp.isMnemonicChar_of_mem c h)
  | some jump =>
    rw [toList_renderTail_some, List.mem_append, List.mem_cons] at h
    rcases h with h | h | h
    · exact Or.inl (comp.isMnemonicChar_of_mem c h)
    · exact Or.inr h
    · exact Or.inl (jump.isMnemonicChar_of_mem c h)

/-- The characters of the written form. -/
theorem mem_render {fields : Compute} {c : Char} (h : c ∈ fields.render.toList) :
    isMnemonicChar c = true ∨ c = ';' ∨ c = '=' := by
  obtain ⟨dest, comp, jump⟩ := fields
  cases dest with
  | none =>
    rw [toList_render_none] at h
    exact (mem_renderTail h).imp_right Or.inl
  | some dest =>
    rw [toList_render_some, List.mem_append, List.mem_cons] at h
    rcases h with h | h | h
    · exact Or.inl (dest.isMnemonicChar_of_mem c h)
    · exact Or.inr (Or.inr h)
    · exact (mem_renderTail h).imp_right Or.inl

/-- **The fields of a compute instruction are read back.** -/
theorem read_render (fields : Compute) : read fields.render.toList = .ok fields := by
  obtain ⟨dest, comp, jump⟩ := fields
  cases dest with
  | none =>
    have hequals : '=' ∉ (renderTail comp jump).toList :=
      fun h => absurd (mem_renderTail h) (by decide)
    rw [toList_render_none, read, cutAt_eq_none hequals]
    exact readTail_render none comp jump
  | some dest =>
    have hequals : '=' ∉ dest.mnemonic.toList :=
      not_mem_of_isMnemonicChar dest.isMnemonicChar_of_mem (by decide)
    rw [toList_render_some, read, cutAt_append hequals]
    simp only [String.ofList_toList, Dest.read, Dest.ofMnemonic?_mnemonic]
    exact readTail_render (some dest) comp jump

end Compute

/-! ### Statements -/

/-- **An operand is read back**, if its number can be loaded or its symbol is a name. -/
theorem Operand.read_render_number {n : Nat} (h : n ≤ MemoryMap.maxAddress) :
    Operand.read (toString n).toList = .ok (.number n) := by
  have hdigits : ∀ c ∈ Nat.toDigits 10 n, c.isDigit = true := fun c hc =>
    Nat.isDigit_of_mem_toDigits (by decide) (by decide) hc
  have hlimit : n ≤ Operand.maxNumber := Nat.le_trans h (by decide)
  have hnumber : Operand.readNumber (Nat.toDigits 10 n) = .ok (.number n) := by
    rw [Operand.readNumber, if_pos (List.all_eq_true.mpr hdigits), decimal?_toDigits hlimit]
    exact if_pos h
  rw [Nat.toString_eq_repr, Nat.toList_repr]
  cases hl : Nat.toDigits 10 n with
  | nil => exact absurd hl Nat.toDigits_ne_nil
  | cons c rest =>
    rw [hl] at hdigits hnumber
    rw [Operand.read, if_pos (hdigits c List.mem_cons_self), hnumber]

/-- **What a symbol can be**: any text that starts with no digit and ends with no blank. -/
structure Operand.IsSymbol (name : String) : Prop where
  head : ∃ c rest, name.toList = c :: rest ∧ c.isDigit = false
  last : ∀ c, name.toList.getLast? = some c → isBlank c = false

/-- A symbol is read back as an operand. -/
theorem Operand.IsSymbol.read_eq {name : String} (h : IsSymbol name) :
    Operand.read name.toList = .ok (.symbol name) := by
  obtain ⟨c, rest, hl, hc⟩ := h.head
  rw [hl, Operand.read, if_neg (by simp [hc]), ← hl, String.ofList_toList]

/-- A name is a symbol. -/
theorem Operand.isSymbol_of_isName {name : String} (h : IsName name) : IsSymbol name where
  head := h.exists_cons
  last _ hc := isBlank_of_isSymbolChar (h.isSymbolChar (List.mem_of_getLast? hc))

namespace Statement

/-- **The statements that can stand on a line**: their numbers can be loaded, their symbols are
names and their comments are trimmed texts on one line. -/
def Plain : Statement → Prop
  | instruction (.address (.number n)) => n ≤ MemoryMap.maxAddress
  | instruction (.address (.symbol name)) => IsName name
  | instruction (.compute _) => True
  | label name => IsName name
  | comment text => Trimmed text.toList ∧ '\n' ∉ text.toList ∧ text ≠ ""

/-- **A statement that is written with such names**: its names have a property, its number can be
loaded, and its comment is a trimmed text on one line. -/
def WrittenWith (P : String → Prop) : Statement → Prop
  | instruction (.address (.number n)) => n ≤ MemoryMap.maxAddress
  | instruction (.address (.symbol name)) => P name
  | instruction (.compute _) => True
  | label name => P name
  | comment text => Trimmed text.toList ∧ '\n' ∉ text.toList ∧ text ≠ ""

/-- Plain statements are written with names. -/
theorem writtenWith_isName {s : Statement} :
    s.WrittenWith IsName ↔ s.Plain := by
  match s with
  | instruction (.address (.number n)) => rfl
  | instruction (.address (.symbol name)) => rfl
  | instruction (.compute fields) => rfl
  | label name => rfl
  | comment text => rfl

theorem WrittenWith.mono {P Q : String → Prop} {s : Statement}
    (h : s.WrittenWith P) (himp : ∀ name, P name → Q name) : s.WrittenWith Q := by
  match s, h with
  | instruction (.address (.number n)), h => exact h
  | instruction (.address (.symbol name)), h => exact himp name h
  | instruction (.compute fields), h => exact h
  | label name, h => exact himp name h
  | comment text, h => exact h

/-- Whether a statement is a comment. -/
def isComment : Statement → Bool
  | comment _ => true
  | instruction _ | label _ => false

/-- The characters that plain statements are written with are neither blanks nor slashes, comments
apart. -/
theorem Plain.mem_render {s : Statement} (h : s.Plain) (hs : s.isComment = false) {c : Char}
    (hc : c ∈ s.render.toList) : isBlank c = false ∧ c ≠ '/' := by
  have hname : ∀ name : String, IsName name → c ∈ name.toList → isBlank c = false ∧ c ≠ '/' :=
    fun name hname hmem =>
      ⟨isBlank_of_isSymbolChar (hname.isSymbolChar hmem),
        ne_slash_of_isSymbolChar (hname.isSymbolChar hmem)⟩
  match s, h, hs with
  | instruction (.address (.number n)), _, _ =>
    rw [render, Instruction.render, String.toList_append, List.mem_append] at hc
    rcases hc with hc | hc
    · obtain rfl : c = '@' := by simpa using hc
      decide
    · have hsymbol := isSymbolChar_of_mem_toString hc
      exact ⟨isBlank_of_isSymbolChar hsymbol, ne_slash_of_isSymbolChar hsymbol⟩
  | instruction (.address (.symbol name)), h, _ =>
    rw [render, Instruction.render, String.toList_append, List.mem_append] at hc
    rcases hc with hc | hc
    · obtain rfl : c = '@' := by simpa using hc
      decide
    · exact hname name h hc
  | instruction (.compute fields), _, _ =>
    rcases Compute.mem_render hc with hc | rfl | rfl
    · simp only [isMnemonicChar, Bool.and_eq_true, Bool.not_eq_true', decide_eq_true_eq] at hc
      exact ⟨hc.1.1.1.1.1, hc.1.1.2⟩
    · decide
    · decide
  | label name, h, _ =>
    rw [render, String.toList_append, String.toList_append, List.mem_append, List.mem_append] at hc
    rcases hc with (hc | hc) | hc
    · obtain rfl : c = '(' := by simpa using hc
      decide
    · exact hname name h hc
    · obtain rfl : c = ')' := by simpa using hc
      decide

/-- A line that starts none of the other statements is read as a compute instruction. -/
theorem readTrimmed_compute {line : List Char}
    (h : ∀ c ∈ line, c ≠ '/' ∧ c ≠ '@' ∧ c ≠ '(') :
    readTrimmed line = (do
      let fields ← Compute.read line
      return .instruction (.compute fields)) := by
  rw [readTrimmed.eq_4]
  · rintro text rfl
    exact (h '/' List.mem_cons_self).1 rfl
  · rintro operand rfl
    exact (h '@' List.mem_cons_self).2.1 rfl
  · rintro rest rfl
    exact (h '(' List.mem_cons_self).2.2 rfl

/-- **What a line can be read to**: a number that can be loaded, a symbol, any fields, a label with
a name, or a comment whose text is trimmed. -/
def Written : Statement → Prop
  | instruction (.address (.number n)) => n ≤ MemoryMap.maxAddress
  | instruction (.address (.symbol name)) => Operand.IsSymbol name
  | instruction (.compute _) => True
  | label name => name ≠ ""
  | comment text => Trimmed text.toList

/-- Plain statements can be read. -/
theorem Plain.written {s : Statement} (h : s.Plain) : s.Written := by
  match s, h with
  | instruction (.address (.number n)), h => exact h
  | instruction (.address (.symbol name)), h => exact Operand.isSymbol_of_isName h
  | instruction (.compute fields), _ => trivial
  | label name, h => exact h.2
  | comment text, h => exact h.1

theorem toList_render_symbol (name : String) :
    (symbol name).render.toList = '@' :: name.toList := by
  rw [symbol, render, Instruction.render, String.toList_append]
  rfl

theorem toList_render_label (name : String) :
    (label name).render.toList = '(' :: (name.toList ++ [')']) := by
  rw [render, String.toList_append, String.toList_append]
  rfl

/-- **No blank stands around a statement**, comments apart. -/
theorem Written.trimmed_render {s : Statement} (h : s.Written) (hs : s.isComment = false) :
    Trimmed s.render.toList := by
  have plain : s.Plain → Trimmed s.render.toList := fun hplain =>
    trimmed_of_forall fun c hc => (hplain.mem_render hs hc).1
  match s, h, hs with
  | instruction (.address (.number n)), h, _ => exact plain h
  | instruction (.address (.symbol name)), h, _ =>
    change Trimmed (symbol name).render.toList
    rw [toList_render_symbol]
    exact trimmed_cons (by decide) h.last
  | instruction (.compute fields), _, _ => exact plain trivial
  | label name, _, _ =>
    rw [toList_render_label]
    refine trimmed_cons (by decide) fun d hd => ?_
    rw [List.getLast?_concat] at hd
    obtain rfl := Option.some.inj hd
    decide

/-- **What is written is read**, without a look at the blanks around it. -/
theorem Written.readTrimmed_render {s : Statement} (h : s.Written) (hs : s.isComment = false) :
    readTrimmed s.render.toList = .ok s := by
  match s, h, hs with
  | instruction (.address (.number n)), h, _ =>
    rw [render, Instruction.render, String.toList_append]
    change (do
      let operand ← Operand.read (toString n).toList
      return instruction (.address operand)) = _
    rw [Operand.read_render_number h]
    rfl
  | instruction (.address (.symbol name)), h, _ =>
    change readTrimmed (symbol name).render.toList = .ok (symbol name)
    rw [toList_render_symbol, readTrimmed, h.read_eq]
    rfl
  | instruction (.compute fields), _, _ =>
    rw [render, Instruction.render, readTrimmed_compute, Compute.read_render]
    · rfl
    intro c hc
    rcases Compute.mem_render hc with hc | rfl | rfl
    · simp only [isMnemonicChar, Bool.and_eq_true, decide_eq_true_eq] at hc
      exact ⟨hc.1.1.2, hc.1.2, hc.2⟩
    · decide
    · decide
  | label name, h, _ =>
    have hne : name.toList ≠ [] := fun he => h (String.toList_eq_nil_iff.mp he)
    have hname : labelName? (name.toList ++ [')']) = some name.toList := by
      rw [labelName?, List.dropLast_concat, List.getLast?_concat, if_pos ⟨rfl, hne⟩]
    rw [toList_render_label, readTrimmed, hname]
    simp only [String.ofList_toList]

/-- The blank behind the slashes does not belong to the text of a comment, and where there is no
text it does not even belong to the line. -/
theorem read_comment {text : String} (h : Trimmed text.toList) :
    read (comment text).render = .ok (comment text) := by
  by_cases hne : text.toList = []
  · obtain rfl := String.toList_eq_nil_iff.mp hne
    decide
  have hlist : (comment text).render.toList = '/' :: '/' :: ' ' :: text.toList := by
    rw [render, String.toList_append]
    rfl
  have htrimmed : Trimmed ('/' :: '/' :: ' ' :: text.toList) := by
    refine trimmed_cons (by decide) fun c hc => ?_
    rw [List.getLast?_cons_cons, List.getLast?_cons_of_ne_nil hne] at hc
    exact h.2 c hc
  have hblank : trim (' ' :: text.toList) = text.toList := by
    rw [trim, trimStart, List.dropWhile_cons_of_pos (by decide)]
    exact trim_eq_self h
  rw [read, hlist, trim_eq_self htrimmed]
  change (Except.ok (comment (String.ofList (trim (' ' :: text.toList))))) = _
  rw [hblank, String.ofList_toList]

/-- **What a line can be read to is read back** from its written form. -/
theorem Written.read_render {s : Statement} (h : s.Written) : read s.render = .ok s := by
  by_cases hs : s.isComment = true
  · cases s with
    | comment text => exact read_comment h
    | instruction => exact Bool.noConfusion hs
    | label => exact Bool.noConfusion hs
  have hs : s.isComment = false := Bool.eq_false_iff.mpr hs
  rw [read, trim_eq_self (h.trimmed_render hs), h.readTrimmed_render hs]

/-- **A plain statement is read back** from its written form. -/
theorem read_render {s : Statement} (h : s.Plain) : read s.render = .ok s := h.written.read_render

end Statement

end HackStack.Assembly
