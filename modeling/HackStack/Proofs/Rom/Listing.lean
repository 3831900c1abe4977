import HackStack.Proofs.Assembly.RoundTrip
import HackStack.Rom
import HackStack.Step

/-!
# The layout of a listing

What the first pass of the assembler finds in the text of legible statements is what stands in the
list of statements: the instructions in their order, and for each label the number of instructions
before it. So everything about the layout of a listing can be said of the list alone:

* `HackStack.Assembly.instructions` – the instructions of a list of statements;
* `HackStack.Assembly.labelNames` – the names of its labels;
* `HackStack.Assembly.size` – the number of slots it takes;
* `HackStack.Assembly.labelAddress?` – where a label stands.

The main result is `HackStack.Layout.ofText_listing`. It asks for labels that are all different;
whoever writes the statements has to see to that. Of any other list `HackStack.Layout.addAll_ok`
says what the first pass leads to if it succeeds, from what it does with one statement
(`HackStack.Layout.Adds`).
-/

namespace HackStack

namespace Assembly

/-! ### Lists of statements -/

/-- The instruction that a statement is. -/
def Statement.instruction? : Statement → Option Instruction
  | .instruction i => some i
  | .label _ | .comment _ => none

/-- The name that a statement declares. -/
def Statement.labelName? : Statement → Option String
  | .label name => some name
  | .instruction _ | .comment _ => none

/-- The instructions of a list of statements. -/
def instructions (code : List Statement) : List Instruction :=
  code.filterMap Statement.instruction?

/-- The names of the labels of a list of statements. -/
def labelNames (code : List Statement) : List String := code.filterMap Statement.labelName?

/-- The number of slots that a list of statements takes. -/
def size (code : List Statement) : Nat := code.countP Statement.isInstruction

/-- The number of instructions before the first label with this name. -/
def labelAddress? (name : String) : List Statement → Option Nat
  | [] => none
  | .label other :: rest => if other = name then some 0 else labelAddress? name rest
  | .instruction _ :: rest => (labelAddress? name rest).map (· + 1)
  | .comment _ :: rest => labelAddress? name rest

@[simp]
theorem size_nil : size [] = 0 := rfl

@[simp]
theorem size_instruction (i : Instruction) (rest : List Statement) :
    size (.instruction i :: rest) = size rest + 1 := List.countP_cons_of_pos rfl

@[simp]
theorem size_label (name : String) (rest : List Statement) :
    size (.label name :: rest) = size rest := List.countP_cons_of_neg Bool.false_ne_true

@[simp]
theorem size_comment (text : String) (rest : List Statement) :
    size (.comment text :: rest) = size rest := List.countP_cons_of_neg Bool.false_ne_true

@[simp]
theorem size_append (code rest : List Statement) : size (code ++ rest) = size code + size rest :=
  List.countP_append

/-- A list of statements can be cut behind any number of its instructions. -/
theorem exists_append_of_le_size {code : List Statement} {n : Nat} (h : n ≤ size code) :
    ∃ front rest, code = front ++ rest ∧ size front = n := by
  induction code generalizing n with
  | nil => exact ⟨[], [], rfl, (Nat.le_zero.mp h).symm⟩
  | cons s code ih =>
    cases n with
    | zero => exact ⟨[], s :: code, rfl, rfl⟩
    | succ n =>
      cases s with
      | instruction i =>
        rw [size_instruction] at h
        obtain ⟨front, rest, rfl, hfront⟩ := ih (Nat.le_of_succ_le_succ h)
        exact ⟨.instruction i :: front, rest, rfl, by rw [size_instruction, hfront]⟩
      | label name =>
        rw [size_label] at h
        obtain ⟨front, rest, rfl, hfront⟩ := ih h
        exact ⟨.label name :: front, rest, rfl, by rw [size_label, hfront]⟩
      | comment text =>
        rw [size_comment] at h
        obtain ⟨front, rest, rfl, hfront⟩ := ih h
        exact ⟨.comment text :: front, rest, rfl, by rw [size_comment, hfront]⟩

@[simp]
theorem labelNames_append (code rest : List Statement) :
    labelNames (code ++ rest) = labelNames code ++ labelNames rest := List.filterMap_append

@[simp]
theorem instructions_append (code rest : List Statement) :
    instructions (code ++ rest) = instructions code ++ instructions rest := List.filterMap_append

/-- The size is the number of instructions. -/
theorem length_instructions (code : List Statement) : (instructions code).length = size code := by
  induction code with
  | nil => rfl
  | cons s rest ih =>
    cases s with
    | instruction i =>
      rw [size_instruction, ← ih]
      rfl
    | label name =>
      rw [size_label, ← ih]
      rfl
    | comment text =>
      rw [size_comment, ← ih]
      rfl

/-- A name is declared where it is the name of a label. -/
theorem mem_labelNames {code : List Statement} {name : String} :
    name ∈ labelNames code ↔ .label name ∈ code := by
  rw [labelNames, List.mem_filterMap]
  constructor
  · rintro ⟨s, hs, hname⟩
    cases s with
    | label other =>
      obtain rfl : other = name := Option.some.inj hname
      exact hs
    | instruction => exact absurd hname (by simp [Statement.labelName?])
    | comment => exact absurd hname (by simp [Statement.labelName?])
  · intro h
    exact ⟨_, h, rfl⟩

/-- **Where a label stands**: behind as many instructions as precede it. -/
theorem labelAddress?_append {code rest : List Statement} {name : String}
    (h : name ∉ labelNames code) :
    labelAddress? name (code ++ .label name :: rest) = some (size code) := by
  induction code with
  | nil => exact if_pos rfl
  | cons s code ih =>
    cases s with
    | instruction i =>
      rw [List.cons_append, labelAddress?, ih h, size_instruction]
      rfl
    | label other =>
      obtain ⟨hne, hrest⟩ := List.ne_and_not_mem_of_not_mem_cons h
      rw [List.cons_append, labelAddress?, if_neg fun he => hne he.symm, ih hrest, size_label]
    | comment text => rw [List.cons_append, labelAddress?, ih h, size_comment]

/-- Only a label has an address. -/
theorem labelAddress?_isSome {code : List Statement} {name : String} :
    (labelAddress? name code).isSome ↔ name ∈ labelNames code := by
  induction code with
  | nil => simp [labelAddress?, labelNames]
  | cons s code ih =>
    cases s with
    | instruction i =>
      rw [labelAddress?, Option.isSome_map, ih]
      rfl
    | label other =>
      rw [labelAddress?]
      change _ ↔ name ∈ other :: labelNames code
      rw [List.mem_cons]
      by_cases h : other = name
      · simp [h]
      · rw [if_neg h, ih]
        exact ⟨Or.inr, fun hmem => hmem.resolve_left fun he => h he.symm⟩
    | comment text =>
      rw [labelAddress?, ih]
      rfl

/-- **Where a label stands**, when all labels are different. -/
theorem labelAddress?_eq_some_iff {code : List Statement} (h : (labelNames code).Nodup)
    {name : String} {address : Nat} :
    labelAddress? name code = some address ↔
      ∃ before after, code = before ++ .label name :: after ∧ address = size before := by
  have happend : ∀ before after, code = before ++ .label name :: after →
      labelAddress? name code = some (size before) := by
    rintro before after rfl
    rw [labelNames_append] at h
    refine labelAddress?_append fun hmem => ?_
    exact (List.nodup_append.mp h).2.2 name hmem name List.mem_cons_self rfl
  constructor
  · intro haddress
    have hmem := labelAddress?_isSome.mp (haddress ▸ rfl : (labelAddress? name code).isSome)
    obtain ⟨before, after, hcode⟩ := List.append_of_mem (mem_labelNames.mp hmem)
    exact ⟨before, after, hcode, Option.some.inj (haddress.symm.trans (happend _ _ hcode))⟩
  · rintro ⟨before, after, hcode, rfl⟩
    exact happend before after hcode

/-! ### The lines of a listing -/

/-- Every written form holds a character. -/
theorem Statement.render_ne_nil (s : Statement) : s.render.toList ≠ [] := by
  match s with
  | .instruction (.address operand) =>
    rw [Statement.render, Instruction.render, String.toList_append]
    exact List.cons_ne_nil _ _
  | .instruction (.compute fields) =>
    intro h
    have hread := Compute.read_render fields
    rw [show fields.render.toList = [] from h] at hread
    have hempty : Compute.read [] = .error (.computation "") := rfl
    rw [hempty] at hread
    exact absurd hread (by simp)
  | .label name =>
    rw [Statement.render, String.toList_append, String.toList_append]
    exact List.cons_ne_nil _ _
  | .comment text =>
    rw [Statement.render, String.toList_append]
    exact List.cons_ne_nil _ _

/-- No line feed stands in the written form of a plain statement. -/
theorem Statement.Plain.newline_not_mem {s : Statement} (h : s.Plain) : '\n' ∉ s.render.toList := by
  by_cases hs : s.isComment = true
  · cases s with
    | comment text =>
      rw [Statement.render, String.toList_append, List.mem_append]
      rintro (hc | hc)
      · exact absurd hc (by decide)
      · exact h.2.1 hc
    | instruction => exact Bool.noConfusion hs
    | label => exact Bool.noConfusion hs
  · exact Text.newline_not_mem fun c hc => (h.mem_render (Bool.eq_false_iff.mpr hs) hc).1

/-- **The lines of a listing** are those of its parts. -/
theorem lines_listing_append (before after : List Statement) :
    Text.lines (listing (before ++ after)) =
      (before.flatMap fun s => s.render.toList.splitOn '\n') ++ Text.lines (listing after) := by
  induction before with
  | nil => rfl
  | cons s before ih =>
    have hlist : (listing (s :: before ++ after)).toList =
        s.render.toList ++ '\n' :: (listing (before ++ after)).toList := by
      have hjoin : listing (s :: before ++ after) = s.line ++ listing (before ++ after) :=
        String.join_cons ..
      rw [hjoin, String.toList_append, Statement.line, String.toList_append, List.append_assoc]
      rfl
    rw [Text.lines, hlist, List.splitOn_append_cons_self, List.flatMap_cons, List.append_assoc,
      ← ih]
    rfl

/-- **A listing has one line for each statement**, and an empty one at its end. -/
theorem lines_listing {code : List Statement} (h : ∀ s ∈ code, '\n' ∉ s.render.toList) :
    Text.lines (listing code) = code.map (fun s => s.render.toList) ++ [[]] := by
  have hpieces : (code.flatMap fun s => s.render.toList.splitOn '\n') =
      code.map fun s => s.render.toList := by
    rw [List.map_eq_flatMap, List.flatMap, List.flatMap]
    exact congrArg _ (List.map_congr_left fun s hs => List.splitOn_eq_singleton (h s hs))
  have hlines := lines_listing_append code []
  rw [List.append_nil, hpieces] at hlines
  exact hlines

/-- The code of a statement's line: none for a comment, and all of it otherwise. -/
theorem code_render {s : Statement} (h : s.Plain) :
    Text.code s.render.toList = if s.isComment then [] else s.render.toList := by
  by_cases hs : s.isComment = true
  · rw [if_pos hs]
    cases s with
    | comment text =>
      rw [Statement.render, String.toList_append]
      exact congrArg Text.trim (Text.beforeComment_slashes _)
    | instruction => exact Bool.noConfusion hs
    | label => exact Bool.noConfusion hs
  · rw [if_neg hs]
    have hmem := fun c => h.mem_render (Bool.eq_false_iff.mpr hs) (c := c)
    exact Text.code_eq_self (fun c hc => (hmem c hc).1) fun hc => (hmem '/' hc).2 rfl

/-- **A statement is legible** if it stands on one line, and that line is read back to it – or, if
it is a comment, has no code. -/
structure Statement.Legible (s : Statement) : Prop where
  newline_not_mem : '\n' ∉ s.render.toList
  code_eq_nil : s.isComment = true → Text.code s.render.toList = []
  read_code : s.isComment = false → Text.code s.render.toList ≠ [] ∧
    Statement.read (String.ofList (Text.code s.render.toList)) = .ok s

/-- **Plain statements are legible.** -/
theorem Statement.Plain.legible {s : Statement} (h : s.Plain) : s.Legible where
  newline_not_mem := h.newline_not_mem
  code_eq_nil hs := by rw [code_render h, if_pos hs]
  read_code hs := by
    rw [code_render h, if_neg (Bool.eq_false_iff.mp hs), String.ofList_toList]
    exact ⟨fun he => s.render_ne_nil he, Statement.read_render h⟩

end Assembly

/-! ### The first pass -/

namespace Layout

open Assembly

/-- **What the first pass does with a statement** that it adds: an instruction goes behind the
others, a comment is passed over, and a label, which must be new, gets the number of the
instructions before it. -/
inductive Adds : Layout → Statement → Layout → Prop
  | instruction (layout : Layout) (i : Instruction) :
      Adds layout (.instruction i) ⟨layout.code.push i, layout.labels⟩
  | comment (layout : Layout) (text : String) : Adds layout (.comment text) layout
  | label {layout : Layout} {name : String} (h : name ∉ layout.labels) :
      Adds layout (.label name)
        ⟨layout.code, layout.labels.insertIfNew name layout.code.size⟩

/-- Add statements behind the others, up to the first that cannot be added. -/
def addAll (layout : Layout) (code : List Statement) : Except AssemblyError Layout :=
  code.foldlM (fun layout s => layout.add s) layout

section

variable {layout layout' between : Layout} {s : Statement} {rest : List Statement} {name : String}

/-- A label that is there already is not added. -/
theorem add_label_of_mem (h : name ∈ layout.labels) :
    layout.add (.label name) = .error (.duplicateLabel name) := by
  simp [add, Std.HashMap.contains_iff_mem.mpr h]

theorem Adds.add_eq (h : Adds layout s layout') : layout.add s = .ok layout' := by
  cases h with
  | instruction i => rfl
  | comment text => rfl
  | label hnew => simp [add, Std.HashMap.contains_eq_false_iff_not_mem.mpr hnew]

/-- **Adding a statement** succeeds for what the first pass adds. -/
theorem add_eq_ok_iff : layout.add s = .ok layout' ↔ Adds layout s layout' := by
  refine ⟨fun h => ?_, Adds.add_eq⟩
  cases s with
  | instruction i =>
    obtain rfl := Except.ok.inj h
    exact .instruction layout i
  | comment text =>
    obtain rfl := Except.ok.inj h
    exact .comment layout text
  | label name =>
    by_cases hnew : name ∈ layout.labels
    · rw [add_label_of_mem hnew] at h
      cases h
    · rw [(Adds.label hnew).add_eq] at h
      obtain rfl := Except.ok.inj h
      exact .label hnew

theorem Adds.addAll_cons (h : Adds layout s between) :
    layout.addAll (s :: rest) = between.addAll rest := by
  rw [addAll, List.foldlM_cons, h.add_eq]
  rfl

theorem addAll_cons_eq_ok_iff :
    layout.addAll (s :: rest) = .ok layout' ↔
      ∃ between, Adds layout s between ∧ between.addAll rest = .ok layout' := by
  rw [addAll, List.foldlM_cons, bind_eq_ok_iff]
  exact exists_congr fun between => and_congr_left fun _ => add_eq_ok_iff

theorem Adds.code_eq (h : Adds layout s layout') :
    layout'.code = layout.code ++ (instructions [s]).toArray := by
  cases h with
  | instruction i => exact Array.push_eq_append
  | comment text => exact Array.append_empty.symm
  | label hnew => exact Array.append_empty.symm

/-- **The labels behind a statement** are those before it, and its own. -/
theorem Adds.label_iff (h : Adds layout s layout') {address : Nat} :
    layout'.labels[name]? = some address ↔
      layout.labels[name]? = some address ∨ s = .label name ∧ address = layout.code.size := by
  cases h with
  | instruction i => simp
  | comment text => simp
  | @label new hnew =>
    rw [Std.HashMap.getElem?_insertIfNew]
    by_cases he : new = name
    · subst he
      simp [hnew, eq_comm]
    · simp [he]

end

/-- **A program that has been assembled** comes from a layout. -/
theorem exists_layout_of_assemble {text : String} {rom : Rom} (hrom : assemble text = .ok rom) :
    ∃ layout, ofText text = .ok layout ∧ layout.link = rom ∧ layout.code.size ≤ MemoryMap.size := by
  obtain ⟨layout, hlayout, hfits⟩ := bind_eq_ok_iff.mp hrom
  dsimp only at hfits
  split at hfits
  next => cases hfits
  next hfits' => exact ⟨layout, hlayout, Except.ok.inj hfits, Nat.le_of_not_lt hfits'⟩

/-- Every line of code is read if the first pass succeeds. -/
theorem read_of_foldlM {code : List (Nat × String)} {layout layout' : Layout}
    (h : code.foldlM addLine layout = .ok layout') {line : Nat × String} (hline : line ∈ code) :
    ∃ s, Statement.read line.2 = .ok s := by
  induction code generalizing layout with
  | nil => exact absurd hline List.not_mem_nil
  | cons first rest ih =>
    rw [List.foldlM_cons] at h
    obtain ⟨between, hfirst, hrest⟩ := bind_eq_ok_iff.mp h
    rcases List.mem_cons.mp hline with rfl | hline
    · rw [addLine] at hfirst
      split at hfirst
      next s hs => exact ⟨s, hs⟩
      next => cases hfirst
    · exact ih hrest hline

/-- **Every statement of a listing that is assembled** has a written form that is read, unless it
has no code. -/
theorem read_of_assemble {code : List Statement} (h : ∀ s ∈ code, '\n' ∉ s.render.toList)
    {rom : Rom} (hrom : assemble (listing code) = .ok rom) {s : Statement} (hs : s ∈ code)
    (hcode : Text.code s.render.toList ≠ []) :
    ∃ s', Statement.read (String.ofList (Text.code s.render.toList)) = .ok s' := by
  obtain ⟨layout, hlayout, -⟩ := exists_layout_of_assemble hrom
  rw [ofText, Text.codeLines_eq, lines_listing h] at hlayout
  have hline : s.render.toList ∈ code.map (fun s => s.render.toList) ++ [[]] :=
    List.mem_append_left _ (List.mem_map.mpr ⟨s, hs, rfl⟩)
  obtain ⟨number, hmem⟩ := Text.exists_mem_codeFrom hline hcode 1
  obtain ⟨s', hread⟩ := read_of_foldlM hlayout hmem
  exact ⟨s', hread⟩

/-- **A listing is read** as if the statements themselves were added. The numbers of its lines
matter to no line that can be read. -/
theorem foldlM_listing {code : List Statement} (h : ∀ s ∈ code, s.Legible) (first : Nat)
    (layout : Layout) :
    (Text.codeFrom first (Text.lines (listing code))).foldlM addLine layout =
      layout.addAll code := by
  rw [lines_listing fun s hs => (h s hs).newline_not_mem]
  induction code generalizing first layout with
  | nil => rfl
  | cons s rest ih =>
    obtain ⟨hs, hrest⟩ := List.forall_mem_cons.mp h
    rw [List.map_cons, List.cons_append, Text.codeFrom_cons, addAll, List.foldlM_cons]
    by_cases hc : s.isComment = true
    · have hskip : Layout.add s layout = .ok layout := by
        cases s with
        | comment text => rfl
        | instruction => exact Bool.noConfusion hc
        | label => exact Bool.noConfusion hc
      rw [hs.code_eq_nil hc, if_pos List.isEmpty_nil, hskip]
      exact ih hrest (first + 1) layout
    · obtain ⟨hne, hread⟩ := hs.read_code (Bool.eq_false_iff.mpr hc)
      have hkeep : addLine layout (first, String.ofList (Text.code s.render.toList)) =
          layout.add s := by
        rw [addLine, hread]
      rw [if_neg (by simpa using hne), List.foldlM_cons, hkeep]
      exact congrArg _ (funext fun layout => ih hrest (first + 1) layout)

/-- **The first pass reads a listing** as if it were given the statements themselves. -/
theorem ofText_listing_eq {code : List Statement} (h : ∀ s ∈ code, s.Legible) :
    ofText (listing code) = addAll {} code := foldlM_listing h 1 {}

/-- **The first pass reads the end of a listing** as if it were given the statements themselves,
whatever is written before. -/
theorem exists_of_ofText_append {before after : List Statement} (h : ∀ s ∈ after, s.Plain)
    {layout : Layout} (hlayout : ofText (listing (before ++ after)) = .ok layout) :
    ∃ between : Layout, between.addAll after = .ok layout := by
  rw [ofText, Text.codeLines_eq, lines_listing_append, Text.codeFrom_append, List.foldlM_append]
    at hlayout
  obtain ⟨between, -, hafter⟩ := bind_eq_ok_iff.mp hlayout
  exact ⟨between, (foldlM_listing (fun s hs => (h s hs).legible) _ between).symm.trans hafter⟩

/-- **Statements can be added** if their labels are new and all different. -/
theorem exists_addAll {code : List Statement} (hn : (labelNames code).Nodup) {layout : Layout}
    (hl : ∀ name ∈ labelNames code, name ∉ layout.labels) :
    ∃ layout', layout.addAll code = .ok layout' := by
  induction code generalizing layout with
  | nil => exact ⟨layout, rfl⟩
  | cons s rest ih =>
    cases s with
    | instruction i =>
      obtain ⟨layout', hrest⟩ := @ih hn ⟨layout.code.push i, layout.labels⟩ hl
      exact ⟨layout', (Adds.instruction layout i).addAll_cons.trans hrest⟩
    | comment text =>
      obtain ⟨layout', hrest⟩ := ih hn hl
      exact ⟨layout', (Adds.comment layout text).addAll_cons.trans hrest⟩
    | label new =>
      change (new :: labelNames rest).Nodup at hn
      obtain ⟨hnew, hothers⟩ := List.nodup_cons.mp hn
      have hfree : new ∉ layout.labels := hl new List.mem_cons_self
      -- The names behind it are others, and stay free.
      have hfresh : ∀ name ∈ labelNames rest,
          name ∉ layout.labels.insertIfNew new layout.code.size := by
        intro name hname hmem
        rcases Std.HashMap.mem_insertIfNew.mp hmem with he | hmem
        · exact hnew (eq_of_beq he ▸ hname)
        · exact hl name (List.mem_cons_of_mem _ hname) hmem
      obtain ⟨layout', hrest⟩ :=
        @ih hothers ⟨layout.code, layout.labels.insertIfNew new layout.code.size⟩ hfresh
      exact ⟨layout', (Adds.label hfree).addAll_cons.trans hrest⟩

/-- **What adding statements leads to**, if all of them can be added: the instructions stand behind
those before, in their order, and the labels are those before and the new ones, each with the number
of the instructions before it. -/
theorem addAll_ok {code : List Statement} {layout layout' : Layout}
    (h : layout.addAll code = .ok layout') :
    layout'.code = layout.code ++ (instructions code).toArray ∧
      ∀ (name : String) (address : Nat), layout'.labels[name]? = some address ↔
        layout.labels[name]? = some address ∨
          ∃ before after, code = before ++ .label name :: after ∧
            address = layout.code.size + size before := by
  induction code generalizing layout with
  | nil =>
    obtain rfl := Except.ok.inj h
    exact ⟨by simp [instructions], fun name address => by simp⟩
  | cons s rest ih =>
    obtain ⟨between, hadds, hrest⟩ := addAll_cons_eq_ok_iff.mp h
    obtain ⟨hcode, hlabels⟩ := ih hrest
    -- The first statement moves the labels behind it by its own size.
    have hbetween : between.code.size = layout.code.size + size [s] := by
      rw [hadds.code_eq, Array.size_append, ← length_instructions]
      rfl
    constructor
    · rw [hcode, hadds.code_eq, Array.append_assoc, List.append_toArray (instructions [s]),
        ← instructions_append, List.singleton_append]
    · intro name address
      rw [hlabels, hadds.label_iff, or_assoc]
      refine or_congr_right ⟨?_, ?_⟩
      · rintro (⟨rfl, rfl⟩ | ⟨before, after, rfl, rfl⟩)
        · exact ⟨[], rest, rfl, rfl⟩
        · refine ⟨s :: before, after, rfl, ?_⟩
          rw [hbetween, Nat.add_assoc, ← size_append]
          rfl
      · rintro ⟨before, after, hsplit, rfl⟩
        cases before with
        | nil => exact Or.inl ⟨(List.cons.inj hsplit).1, rfl⟩
        | cons first before =>
          obtain ⟨rfl, hrest⟩ := List.cons.inj hsplit
          refine Or.inr ⟨before, after, hrest, ?_⟩
          rw [hbetween, Nat.add_assoc, ← size_append]
          rfl

/-- **The layout of statements** whose labels are all different. -/
theorem addAll_eq {code : List Statement} (hn : (labelNames code).Nodup) :
    ∃ labels, addAll {} code = .ok ⟨(instructions code).toArray, labels⟩ ∧
      ∀ name, labels[name]? = labelAddress? name code := by
  obtain ⟨⟨added, labels⟩, hadd⟩ := @exists_addAll code hn {} fun _ _ => Std.HashMap.not_mem_empty
  obtain ⟨hcode, hlabels⟩ := addAll_ok hadd
  obtain rfl : added = (instructions code).toArray := hcode.trans Array.empty_append
  refine ⟨labels, hadd, fun name => Option.ext fun address => ?_⟩
  rw [labelAddress?_eq_some_iff hn, hlabels]
  simp

/-- **The layout of a listing** whose labels are all different. -/
theorem ofText_listing {code : List Statement} (h : ∀ s ∈ code, s.Legible)
    (hn : (labelNames code).Nodup) :
    ∃ labels, ofText (listing code) = .ok ⟨(instructions code).toArray, labels⟩ ∧
      ∀ name, labels[name]? = labelAddress? name code := by
  rw [ofText_listing_eq h]
  exact addAll_eq hn

end Layout

end HackStack
