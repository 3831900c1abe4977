import HackStack.Block.Stack
import HackStack.Proofs.Rom.Linking

/-!
# The statements of a text

The assembler reads a text line by line, and what it makes of a line does not depend on the other
lines. So any text that it accepts is a list of statements (`HackStack.statementsOf`), and these
stand in the program from its beginning (`HackStack.Rom.holds_of_assemble`).

The text may be a listing of statements that are not legible. A name that is not a symbol can make
anything of its line, even several lines; but legible statements before and behind it are read as
they were written (`HackStack.statementsOf_append`, `HackStack.statementsOf_cons`). The address
behind such a list is `HackStack.addressBehind`, and that is where a block in the text stands
(`HackStack.Block.StandsAt`).
-/

namespace HackStack

open Assembly

/-! ### Lines of a text -/

/-- The statement on a line, if it holds one that can be read. -/
def statementOn? (line : List Char) : Option Statement :=
  if (Text.code line).isEmpty then none
  else (Statement.read (String.ofList (Text.code line))).toOption

/-- **The statements of a text.** -/
def statementsOf (text : String) : List Statement := (Text.lines text).filterMap statementOn?

/-- **A line can be read**, if it holds any code. -/
def Readable (line : List Char) : Prop :=
  Text.code line ≠ [] → ∃ s, Statement.read (String.ofList (Text.code line)) = .ok s

/-- **Lines that can be read** are added as statements. -/
theorem Layout.foldlM_of_readable {lines : List (List Char)}
    (h : ∀ line ∈ lines, Readable line) (first : Nat) (layout : Layout) :
    (Text.codeFrom first lines).foldlM addLine layout =
      layout.addAll (lines.filterMap statementOn?) := by
  induction lines generalizing first layout with
  | nil => rfl
  | cons line rest ih =>
    obtain ⟨hline, hrest⟩ := List.forall_mem_cons.mp h
    rw [Text.codeFrom_cons]
    by_cases hempty : (Text.code line).isEmpty
    · have hnone : statementOn? line = none := if_pos hempty
      rw [if_pos hempty, List.filterMap_cons_none hnone]
      exact ih hrest (first + 1) layout
    · obtain ⟨s, hread⟩ := hline fun he => hempty (he ▸ rfl)
      have hs : statementOn? line = some s := by
        rw [statementOn?, if_neg hempty, hread]
        rfl
      have hadd : addLine layout (first, String.ofList (Text.code line)) = layout.add s := by
        rw [addLine, hread]
      rw [if_neg hempty, List.filterMap_cons_some hs, addAll, List.foldlM_cons, List.foldlM_cons,
        hadd]
      exact congrArg _ (funext fun layout => ih hrest (first + 1) layout)

/-- **The first pass adds the statements of the lines**, if it succeeds. -/
theorem Layout.addAll_of_foldlM {lines : List (List Char)} {first : Nat} {layout layout' : Layout}
    (h : (Text.codeFrom first lines).foldlM addLine layout = .ok layout') :
    layout.addAll (lines.filterMap statementOn?) = .ok layout' := by
  have hreadable : ∀ line ∈ lines, Readable line := by
    intro line hline hcode
    obtain ⟨number, hmem⟩ := Text.exists_mem_codeFrom hline hcode first
    obtain ⟨s, hread⟩ := read_of_foldlM h hmem
    exact ⟨s, hread⟩
  exact (foldlM_of_readable hreadable first layout).symm.trans h

/-- **The statements of a text stand in the program** that is assembled from it. -/
theorem Rom.holds_of_assemble {text : String} {rom : Rom} (hrom : assemble text = .ok rom) :
    rom.Holds 0 (statementsOf text) := by
  obtain ⟨layout, hlayout, rfl, -⟩ := Layout.exists_layout_of_assemble hrom
  exact (Layout.holds_of_addAll (Layout.addAll_of_foldlM hlayout)).1

/-- **A program has as many instructions as its text.** -/
theorem Rom.size_eq_of_assemble {text : String} {rom : Rom} (hrom : assemble text = .ok rom) :
    rom.code.size = size (statementsOf text) := by
  obtain ⟨layout, hlayout, rfl, -⟩ := Layout.exists_layout_of_assemble hrom
  rw [(Layout.holds_of_addAll (Layout.addAll_of_foldlM hlayout)).2]
  exact Nat.zero_add _

/-- **A label of a program** stands in its text, behind as many instructions as its address
says. -/
theorem Rom.label_of_assemble {text : String} {rom : Rom} (hrom : assemble text = .ok rom)
    {name : String} {address : Nat} (hname : rom.labels[name]? = some address) :
    ∃ before after, statementsOf text = before ++ .label name :: after ∧
      address = size before := by
  obtain ⟨layout, hlayout, rfl, -⟩ := Layout.exists_layout_of_assemble hrom
  rw [layout.links_link.1] at hname
  obtain ⟨-, hlabels⟩ := Layout.addAll_ok (Layout.addAll_of_foldlM hlayout)
  rcases (hlabels name address).mp hname with hold | ⟨before, after, hsplit, rfl⟩
  · exact absurd hold (by simp)
  · exact ⟨before, after, hsplit, Nat.zero_add _⟩

/-- No label of a program that has been assembled stands behind its end. -/
theorem Rom.label_le_of_assemble {text : String} {rom : Rom} (hrom : assemble text = .ok rom)
    {name : String} {address : Nat} (hname : rom.labels[name]? = some address) :
    address ≤ rom.code.size := by
  obtain ⟨before, after, hsplit, rfl⟩ := Rom.label_of_assemble hrom hname
  rw [Rom.size_eq_of_assemble hrom, hsplit, size_append]
  exact Nat.le_add_right _ _

/-- **The labels of a program** are those of the statements of its text. -/
theorem Rom.mem_labelNames_of_mem_labels {text : String} {rom : Rom}
    (hrom : assemble text = .ok rom) {name : String} (hname : name ∈ rom.labels) :
    name ∈ labelNames (statementsOf text) := by
  rw [Std.HashMap.mem_iff_isSome_getElem?] at hname
  obtain ⟨address, haddress⟩ := Option.isSome_iff_exists.mp hname
  obtain ⟨before, after, hsplit, -⟩ := Rom.label_of_assemble hrom haddress
  rw [hsplit, labelNames_append]
  exact List.mem_append_right _ List.mem_cons_self

/-! ### Listings -/

/-- **The statements of a listing** are those of its parts. -/
theorem statementsOf_append (before after : List Statement) :
    statementsOf (listing (before ++ after)) =
      statementsOf (listing before) ++ statementsOf (listing after) := by
  have hbefore := lines_listing_append before []
  have hempty : (Text.lines (listing [])).filterMap statementOn? = [] := by rfl
  rw [List.append_nil] at hbefore
  rw [statementsOf, lines_listing_append, List.filterMap_append, statementsOf, hbefore,
    List.filterMap_append, hempty, List.append_nil, statementsOf]

/-- A statement on one line is read on its own. -/
theorem statementsOf_singleton {s : Statement} (h : '\n' ∉ s.render.toList) :
    statementsOf (listing [s]) = (statementOn? s.render.toList).toList := by
  have hlines : Text.lines (listing [s]) = [s.render.toList, []] :=
    lines_listing fun _ hs => List.mem_singleton.mp hs ▸ h
  have hempty : statementOn? [] = none := by rfl
  rw [statementsOf, hlines]
  cases hs : statementOn? s.render.toList <;> simp [hs, hempty]

/-- The line of a legible statement holds the statement, and that of a comment holds none. -/
theorem Assembly.Statement.Legible.statementOn?_eq {s : Statement} (h : s.Legible) :
    statementOn? s.render.toList = if s.isComment then none else some s := by
  rw [statementOn?]
  by_cases hs : s.isComment
  · rw [if_pos hs, h.code_eq_nil hs]
    rfl
  · obtain ⟨hne, hread⟩ := h.read_code (Bool.eq_false_iff.mpr hs)
    rw [if_neg hs, if_neg (by simpa using hne), hread]
    rfl

/-- **A legible statement is read as it was written**, and a comment is passed over. -/
theorem statementsOf_cons {s : Statement} (h : s.Legible) (rest : List Statement) :
    statementsOf (listing (s :: rest)) =
      (if s.isComment then [] else [s]) ++ statementsOf (listing rest) := by
  rw [← List.singleton_append, statementsOf_append, statementsOf_singleton h.newline_not_mem,
    h.statementOn?_eq]
  by_cases hs : s.isComment
  · rw [if_pos hs, if_pos hs, Option.toList_none]
  · rw [if_neg hs, if_neg hs, Option.toList_some]

/-- **Legible statements are read as they were written**, if no comment is among them. -/
theorem statementsOf_listing {code : List Statement} (hlegible : ∀ s ∈ code, s.Legible)
    (hcomments : ∀ s ∈ code, s.isComment = false) : statementsOf (listing code) = code := by
  induction code with
  | nil => rfl
  | cons s rest ih =>
    obtain ⟨hs, hrest⟩ := List.forall_mem_cons.mp hlegible
    obtain ⟨hcomment, hothers⟩ := List.forall_mem_cons.mp hcomments
    rw [statementsOf_cons hs, if_neg (by simp [hcomment]), ih hrest hothers]
    rfl

/-- **The address behind the text of statements**: the number of instructions that are read
there. -/
def addressBehind (code : List Statement) : Nat := size (statementsOf (listing code))

theorem addressBehind_append (before after : List Statement) :
    addressBehind (before ++ after) = addressBehind before + addressBehind after := by
  rw [addressBehind, statementsOf_append, size_append, addressBehind, addressBehind]

/-- Behind plain statements, it is the number of instructions that were written. -/
theorem addressBehind_eq_size {code : List Statement} (h : ∀ s ∈ code, s.Plain) :
    addressBehind code = size code := by
  induction code with
  | nil => rfl
  | cons s rest ih =>
    obtain ⟨hs, hrest⟩ := List.forall_mem_cons.mp h
    rw [addressBehind, statementsOf_cons hs.legible, size_append]
    change _ + addressBehind rest = _
    rw [ih hrest]
    cases s with
    | instruction i =>
      rw [size_instruction, Nat.add_comm]
      rfl
    | label name =>
      rw [size_label]
      exact Nat.zero_add _
    | comment text =>
      rw [size_comment]
      exact Nat.zero_add _

/-! ### Blocks in a text -/

/-- **Where a block stands in a text**: the statements of its lines are read there. -/
def Block.StandsAt (block : Block) (text : String) (address : Nat) : Prop :=
  ∃ before after, statementsOf text = before ++ statementsOf (listing block) ++ after ∧
    address = size before

/-- **A block that stands in a text** stands in the program that is assembled from it. -/
theorem Block.StandsAt.holds {block : Block} {text : String} {rom : Rom} {address : Nat}
    (h : block.StandsAt text address) (hrom : assemble text = .ok rom)
    (hlegible : ∀ s ∈ block, s.Legible) (hcomments : ∀ s ∈ block, s.isComment = false) :
    rom.Holds address block := by
  obtain ⟨before, after, htext, rfl⟩ := h
  have hholds := Rom.holds_of_assemble hrom
  rw [htext, statementsOf_listing hlegible hcomments] at hholds
  have hblock := hholds.left.right
  rwa [Nat.zero_add] at hblock

/-- **A block stands in the listing of a text around it**, behind the address of what comes
before. -/
theorem Block.standsAt_listing (block : Block) (before after : List Statement) :
    block.StandsAt (listing (before ++ (block ++ after))) (addressBehind before) :=
  ⟨_, _, by rw [statementsOf_append, statementsOf_append, List.append_assoc], rfl⟩

end HackStack
