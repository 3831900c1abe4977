import HackStack.Proofs.Block.Plain
import HackStack.Proofs.Label.Rendering
import HackStack.Proofs.Rom.Statements

/-!
# Names on a line

A name need not be a symbol for its line to be read back. It is enough that the line is neither cut
nor trimmed, and that an operand does not begin like a number: these are the legible names
(`HackStack.LegibleName`), and statements that are written with them are legible
(`HackStack.Assembly.Statement.WrittenWith.legible`).

Of names that are merely on one line something can be said too: whatever their statements are read
as, no label is found that was not written (`HackStack.mem_labelNames_of_statementsOf`).

A file has names of both kinds built from its namespace, which nobody checks: every such name is the
namespace, a `$` or a dot, and symbol characters (`HackStack.Standing.builds_beginFile`).
-/

namespace HackStack

open Assembly Statement Text

/-! ### Legible names -/

/-- **A name that is read back**: it can stand on a line, begins with no digit and ends with no
blank. -/
structure LegibleName (name : String) : Prop where
  inline : Inline name.toList
  head : ∃ c rest, name.toList = c :: rest ∧ c.isDigit = false
  last : ∀ c, name.toList.getLast? = some c → isBlank c = false

/-- Symbol characters can stand on a line. -/
theorem inline_of_isSymbolChar {text : List Char} (h : ∀ c ∈ text, isSymbolChar c = true) :
    Inline text where
  newline_not_mem := newline_not_mem fun c hc => isBlank_of_isSymbolChar (h c hc)
  beforeComment_eq := beforeComment_eq_self fun hc => ne_slash_of_isSymbolChar (h _ hc) rfl

theorem inline_of_isSymbol {text : List Char} (h : isSymbol text = true) : Inline text :=
  inline_of_isSymbolChar fun _ hc => isSymbolChar_of_mem h hc

/-- A text on a line can be continued by symbol characters. -/
theorem inline_append {text rest : List Char} {c : Char} (h : Inline text)
    (hc : isSymbolChar c = true) (hrest : ∀ d ∈ rest, isSymbolChar d = true) :
    Inline (text ++ c :: rest) := by
  refine h.append_cons (ne_slash_of_isSymbolChar hc) ?_ (inline_of_isSymbolChar hrest)
  rintro rfl
  exact absurd hc (by decide)

/-- Names are legible. -/
theorem IsName.legible {name : String} (h : IsName name) : LegibleName name where
  inline := inline_of_isSymbolChar fun _ hc => h.isSymbolChar hc
  head := (Operand.isSymbol_of_isName h).head
  last := (Operand.isSymbol_of_isName h).last

/-- **A line that is neither cut nor trimmed** is its own code, and is read as it stands. -/
theorem legible_of_readTrimmed {s : Statement} (hs : s.isComment = false)
    (hinline : Inline s.render.toList) (ht : Trimmed s.render.toList)
    (hread : readTrimmed s.render.toList = .ok s) : s.Legible where
  newline_not_mem := hinline.newline_not_mem
  code_eq_nil hc := absurd hc (by simp [hs])
  read_code _ := by
    have hcode : code s.render.toList = s.render.toList := by
      rw [code, hinline.beforeComment_eq, trim_eq_self ht]
    rw [hcode, String.ofList_toList, Statement.read, trim_eq_self ht]
    exact ⟨fun he => s.render_ne_nil he, hread⟩

/-- **A legible name is read back** as an operand. -/
theorem LegibleName.symbol {name : String} (h : LegibleName name) :
    (Statement.symbol name).Legible := by
  have hwritten : (Statement.symbol name).Written := ⟨h.head, h.last⟩
  refine legible_of_readTrimmed rfl ?_ (hwritten.trimmed_render rfl)
    (hwritten.readTrimmed_render rfl)
  rw [toList_render_symbol]
  exact inline_nil.append_cons (by decide) (by decide) h.inline

/-- **A name on a line is read back** as a label, unless it is empty. -/
theorem legible_label {name : String} (h : Inline name.toList) (hne : name ≠ "") :
    (Statement.label name).Legible := by
  have hwritten : (Statement.label name).Written := hne
  refine legible_of_readTrimmed rfl ?_ (hwritten.trimmed_render rfl)
    (hwritten.readTrimmed_render rfl)
  rw [toList_render_label]
  exact inline_nil.append_cons (by decide) (by decide)
    (h.append_cons (by decide) (by decide) inline_nil)

/-- **Statements that are written with legible names** are legible. -/
theorem Assembly.Statement.WrittenWith.legible {s : Statement} (h : s.WrittenWith LegibleName) :
    s.Legible := by
  have plain : s.Plain → s.Legible := Plain.legible
  match s, h with
  | instruction (.address (.number n)), h => exact plain h
  | instruction (.address (.symbol name)), h => exact LegibleName.symbol h
  | instruction (.compute fields), h => exact plain h
  | label name, h =>
    refine legible_label h.inline ?_
    rintro rfl
    obtain ⟨c, rest, hl, -⟩ := h.head
    exact absurd hl (by simp)
  | comment text, h => exact plain h

/-- **A name that is more than a number** is legible if its line is read as an operand. -/
theorem legibleName_of_read {name : String} {c : Char} (h : Inline name.toList)
    (hlast : ∀ c, name.toList.getLast? = some c → isBlank c = false) (hc : c ∈ name.toList)
    (hdigit : c.isDigit = false)
    (hread : ∃ s, Statement.read (String.ofList (code (symbol name).render.toList)) = .ok s) :
    LegibleName name := by
  refine ⟨h, ?_, hlast⟩
  cases hname : name.toList with
  | nil => exact absurd (hname ▸ hc) List.not_mem_nil
  | cons first rest =>
    refine ⟨first, rest, rfl, Bool.eq_false_iff.mpr fun hfirst => ?_⟩
    obtain ⟨s, hread⟩ := hread
    have hinline : Inline ('@' :: name.toList) := inline_nil.append_cons (by decide) (by decide) h
    have htrimmed := trimmed_cons (c := '@') (by decide) hlast
    have hdigits : ¬(first :: rest).all Char.isDigit := fun hall =>
      absurd (List.all_eq_true.mp hall c (hname ▸ hc)) (by simp [hdigit])
    -- A number holds digits only.
    rw [toList_render_symbol, code, hinline.beforeComment_eq, trim_eq_self htrimmed, Statement.read,
      String.toList_ofList, trim_eq_self htrimmed, readTrimmed, hname, Operand.read, if_pos hfirst,
      Operand.readNumber, if_neg hdigits] at hread
    exact absurd hread (by simp [bind, Except.bind])

/-! ### Names that are built -/

/-- **The names that are built in a file**: its namespace, a symbol character that is no digit, and
more symbol characters. -/
theorem Standing.builds_beginFile {P : String → Prop} {space : String}
    (h : ∀ (name : String) (c : Char) (rest : List Char), name.toList = space.toList ++ c :: rest →
      isSymbolChar c = true → c.isDigit = false → (∀ d ∈ rest, isSymbolChar d = true) → P name) :
    (Standing.beginFile {} space).Builds P where
  user name hname := h _ '$' _ (Label.render_of_tail?_eq_some rfl) (by decide) (by decide)
    fun _ hd => hname.isSymbolChar hd
  returnTo ordinal := by
    refine h _ '$' _ (Label.render_of_tail?_eq_some rfl) (by decide) (by decide) fun d hd => ?_
    rw [Label.returnName, String.toList_append, List.mem_append] at hd
    rcases hd with hd | hd
    · exact List.all_eq_true.mp (show "ret.".toList.all isSymbolChar = true by decide) d hd
    · exact isSymbolChar_of_mem_toString hd
  static other hother index := by
    obtain rfl : space = other := Option.some.inj hother
    refine h _ '.' (toString index).toList ?_ (by decide) (by decide) fun _ hd =>
      isSymbolChar_of_mem_toString hd
    rw [String.toList_append, String.toList_append, List.append_assoc]
    rfl

/-- **Names that are built in a file can stand on a line** if its namespace can. -/
theorem Standing.builds_inline {space : String} (h : Inline space.toList) :
    (Standing.beginFile {} space).Builds fun name => Inline name.toList := by
  refine builds_beginFile fun name c rest hname hc _ hrest => ?_
  rw [hname]
  exact inline_append h hc hrest

/-- **Names that are built in a file are legible** if its namespace can stand on a line and does not
begin with a digit. -/
theorem Standing.builds_legible {space : String} (h : Inline space.toList)
    (hhead : ∀ c, space.toList.head? = some c → c.isDigit = false) :
    (Standing.beginFile {} space).Builds LegibleName := by
  refine builds_beginFile fun name c rest hname hc hdigit hrest => ⟨?_, ?_, fun d hd => ?_⟩
  · rw [hname]
    exact inline_append h hc hrest
  · rw [hname]
    cases hspace : space.toList with
    | nil => exact ⟨c, rest, rfl, hdigit⟩
    | cons first more => exact ⟨first, _, rfl, hhead first (by rw [hspace]; rfl)⟩
  · -- The last character is one of those that were put behind the namespace.
    rw [hname, List.getLast?_append_of_ne_nil _ (List.cons_ne_nil c rest)] at hd
    rcases List.mem_cons.mp (List.mem_of_getLast? hd) with rfl | hmem
    · exact isBlank_of_isSymbolChar hc
    · exact isBlank_of_isSymbolChar (hrest d hmem)

/-! ### Labels among the statements -/

/-- A statement stands on one line if its names do. -/
theorem Assembly.Statement.WrittenWith.newline_not_mem {s : Statement}
    (h : s.WrittenWith fun name => '\n' ∉ name.toList) : '\n' ∉ s.render.toList := by
  have plain : s.Plain → '\n' ∉ s.render.toList := Plain.newline_not_mem
  match s, h with
  | instruction (.address (.number n)), h => exact plain h
  | instruction (.address (.symbol name)), h =>
    rw [render, Instruction.render, String.toList_append, List.mem_append, not_or]
    exact ⟨by decide, h⟩
  | instruction (.compute fields), h => exact plain h
  | label name, h =>
    rw [render, String.toList_append, String.toList_append, List.mem_append, List.mem_append,
      not_or, not_or]
    exact ⟨⟨by decide, h⟩, by decide⟩
  | comment text, h => exact plain h

/-- Trimming keeps a character that is no blank at the beginning. -/
theorem exists_trim_cons {c : Char} (hc : isBlank c = false) (text : List Char) :
    ∃ rest, trim (c :: text) = c :: rest := by
  have hstart : trimStart (c :: text) = c :: text := List.dropWhile_cons_of_neg (by simp [hc])
  have hend : [c].dropWhile isBlank = [c] := List.dropWhile_cons_of_neg (by simp [hc])
  refine ⟨(text.reverse.dropWhile isBlank).reverse, ?_⟩
  rw [trim, hstart, trimEnd, List.reverse_cons, List.dropWhile_append]
  split
  next hempty => rw [hend, List.isEmpty_iff.mp hempty]; rfl
  next => rw [List.reverse_append]; rfl

/-- The code of a line that starts with code. -/
theorem exists_code_cons {c : Char} (hc : isBlank c = false) (hslash : c ≠ '/')
    (text : List Char) : ∃ rest, code (c :: text) = c :: rest := by
  have hcut : beforeComment (c :: text) = c :: beforeComment text :=
    beforeComment_cons fun _ h _ => hslash h
  rw [code, hcut]
  exact exists_trim_cons hc _

/-- A line that starts with code is read from its first character on. -/
theorem exists_readTrimmed_of_statementOn? {c : Char} (hc : isBlank c = false) (hslash : c ≠ '/')
    {text : List Char} {s : Statement} (h : statementOn? (c :: text) = some s) :
    ∃ rest, readTrimmed (c :: rest) = .ok s := by
  obtain ⟨rest, hcode⟩ := exists_code_cons hc hslash text
  obtain ⟨rest', htrim⟩ := exists_trim_cons hc rest
  rw [statementOn?, hcode, List.isEmpty_cons, if_neg Bool.false_ne_true, Statement.read,
    String.toList_ofList, htrim] at h
  refine ⟨rest', ?_⟩
  cases hread : readTrimmed (c :: rest') with
  | error why =>
    rw [hread] at h
    cases h
  | ok s' =>
    rw [hread] at h
    rw [Option.some.inj h]

/-- **A line that starts like an address instruction** is one, or cannot be read. -/
theorem exists_of_statementOn?_address {text : List Char} {s : Statement}
    (h : statementOn? ('@' :: text) = some s) :
    ∃ operand, s = .instruction (.address operand) := by
  obtain ⟨rest, hread⟩ := exists_readTrimmed_of_statementOn? (by decide) (by decide) h
  obtain ⟨operand, -, hs⟩ := bind_eq_ok_iff.mp hread
  exact ⟨operand, (Except.ok.inj hs).symm⟩

/-- **A line that starts like a label** is one, or cannot be read. -/
theorem exists_of_statementOn?_label {text : List Char} {s : Statement}
    (h : statementOn? ('(' :: text) = some s) : ∃ name, s = .label name := by
  obtain ⟨rest, hread⟩ := exists_readTrimmed_of_statementOn? (by decide) (by decide) h
  rw [readTrimmed] at hread
  split at hread
  next name _ => exact ⟨String.ofList name, (Except.ok.inj hread).symm⟩
  next => cases hread

/-- **A line that is read as a label** is that of the label. -/
theorem mem_labelNames_of_statementOn? {s : Statement}
    (hs : s.WrittenWith (fun name => Inline name.toList) ∨ ∃ name, s = symbol name)
    {name : String} (h : statementOn? s.render.toList = some (.label name)) :
    name ∈ labelNames [s] := by
  -- Only the line of a label can be read as one: here the names need not be legible.
  have address : ∀ text : String, s.render = "@" ++ text → name ∈ labelNames [s] := by
    intro text hrender
    rw [hrender, String.toList_append] at h
    obtain ⟨i, hi⟩ := exists_of_statementOn?_address h
    exact absurd hi (by simp)
  cases s with
  | instruction i =>
    cases i with
    | address operand => exact address operand.render rfl
    | compute fields =>
      have hplain : (Statement.instruction (.compute fields)).Plain := trivial
      rw [hplain.legible.statementOn?_eq] at h
      exact absurd (Option.some.inj h) (by simp)
  | comment text =>
    have hplain : (Statement.comment text).Plain := hs.resolve_right (by simp [symbol])
    rw [hplain.legible.statementOn?_eq] at h
    exact absurd h (by simp [isComment])
  | label other =>
    have hinline : Inline other.toList := hs.resolve_right (by simp [symbol])
    by_cases hempty : other = ""
    · have hnone : statementOn? (Statement.label "").render.toList = none := by decide +kernel
      rw [hempty, hnone] at h
      exact absurd h (by simp)
    · rw [(legible_label hinline hempty).statementOn?_eq] at h
      obtain rfl := Statement.label.inj (Option.some.inj h)
      exact List.mem_cons_self

/-- **No label is found that was not written**, as long as every name stands on one line. -/
theorem mem_labelNames_of_statementsOf {code : List Statement}
    (hline : ∀ s ∈ code, '\n' ∉ s.render.toList)
    (hcode : ∀ s ∈ code, s.WrittenWith (fun name => Inline name.toList) ∨ ∃ name, s = symbol name)
    {name : String} (h : name ∈ labelNames (statementsOf (listing code))) :
    name ∈ labelNames code := by
  induction code with
  | nil => exact h
  | cons s rest ih =>
    obtain ⟨hs, hrest⟩ := List.forall_mem_cons.mp hline
    obtain ⟨hw, hwrest⟩ := List.forall_mem_cons.mp hcode
    rw [← List.singleton_append, statementsOf_append, labelNames_append, List.mem_append] at h
    rw [← List.singleton_append, labelNames_append, List.mem_append]
    rcases h with hname | hname
    · rw [statementsOf_singleton hs, mem_labelNames, Option.mem_toList] at hname
      exact Or.inl (mem_labelNames_of_statementOn? hw hname)
    · exact Or.inr (ih hrest hwrest hname)

end HackStack
