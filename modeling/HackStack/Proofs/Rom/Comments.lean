import HackStack.Proofs.Rom.Listing

/-!
# Comments in assembly

A line that holds a comment and nothing else has no code, and the assembler passes over it. So a
listing is assembled as it is without its comments (`HackStack.assemble_uncommented`), whatever its
other statements may be: nothing is assumed of names that are not symbols, which may make anything
of their lines. Only the numbers of the lines are not the same, and the assembler uses them in one
message; `HackStack.AssemblyError.forgetLine` leaves them out.
-/

namespace HackStack

open Assembly

namespace Assembly

/-- Statements without the comments among them. -/
def uncommented (code : List Statement) : List Statement := code.filter (!·.isComment)

@[simp]
theorem uncommented_append (code rest : List Statement) :
    uncommented (code ++ rest) = uncommented code ++ uncommented rest := List.filter_append ..

/-- The text of a comment. -/
def Statement.comment? : Statement → Option String
  | comment text => some text
  | instruction _ | label _ => none

/-- The comments among statements. -/
def comments (code : List Statement) : List String := code.filterMap Statement.comment?

@[simp]
theorem comments_append (code rest : List Statement) :
    comments (code ++ rest) = comments code ++ comments rest := List.filterMap_append

/-- Statements without comments are left alone. -/
theorem uncommented_eq_self {code : List Statement} (h : ∀ s ∈ code, s.isComment = false) :
    uncommented code = code := List.filter_eq_self.mpr fun s hs => by rw [h s hs]; rfl

/-- There are no comments among statements without comments. -/
theorem comments_eq_nil {code : List Statement} (h : ∀ s ∈ code, s.isComment = false) :
    comments code = [] := by
  refine List.filterMap_eq_nil_iff.mpr fun s hs => ?_
  cases s with
  | comment text => exact absurd (h _ hs) (by simp [Statement.isComment])
  | instruction => rfl
  | label => rfl

end Assembly

/-! ### Lines without their numbers -/

namespace Text

/-- The code on a line, if there is any. -/
def codeOn? (line : List Char) : Option String :=
  if (code line).isEmpty then none else some (String.ofList (code line))

/-- What stands on the lines of code does not depend on their numbers. -/
theorem map_snd_codeFrom (first : Nat) (lines : List (List Char)) :
    (codeFrom first lines).map Prod.snd = lines.filterMap codeOn? := by
  induction lines generalizing first with
  | nil => rfl
  | cons line rest ih =>
    rw [codeFrom_cons]
    by_cases h : (code line).isEmpty
    · have hnone : codeOn? line = none := if_pos h
      rw [if_pos h, List.filterMap_cons_none hnone, ih]
    · have hsome : codeOn? line = some (String.ofList (code line)) := if_neg h
      rw [if_neg h, List.filterMap_cons_some hsome, List.map_cons, ih]

end Text

/-- An error without the number of its line. -/
def AssemblyError.forgetLine : AssemblyError → AssemblyError
  | unreadable _ why => unreadable 0 why
  | duplicateLabel name => duplicateLabel name
  | tooLarge instructions => tooLarge instructions

/-- **The first pass depends on the lines alone**, and not on their numbers. -/
theorem Layout.foldlM_addLine_congr {code code' : List (Nat × String)}
    (h : code.map Prod.snd = code'.map Prod.snd) (layout : Layout) :
    (code.foldlM addLine layout).mapError AssemblyError.forgetLine =
      (code'.foldlM addLine layout).mapError AssemblyError.forgetLine := by
  -- The two codes have as many lines, so the second is taken apart as the first is.
  induction code generalizing code' layout with
  | nil =>
    obtain rfl : code' = [] := List.map_eq_nil_iff.mp h.symm
    rfl
  | cons line rest ih =>
    obtain ⟨line', rest', rfl, hline, hrest⟩ := List.map_eq_cons_iff.mp h.symm
    rw [List.foldlM_cons, List.foldlM_cons, addLine, addLine, hline]
    cases Statement.read line.2 with
    | error why => rfl
    | ok s =>
      dsimp only
      cases layout.add s with
      | error why => rfl
      | ok between => exact ih hrest.symm between

/-- What goes on in the same way goes on to the same result, but for the line of an error. -/
theorem AssemblyError.bind_congr {α β : Type} {first second : Except AssemblyError α}
    (h : first.mapError forgetLine = second.mapError forgetLine)
    (next : α → Except AssemblyError β) :
    (first >>= next).mapError forgetLine = (second >>= next).mapError forgetLine := by
  cases first <;> cases second
  case error.error why why' => exact congrArg Except.error (Except.error.inj h)
  case error.ok => exact absurd h (by simp [Except.mapError])
  case ok.error => exact absurd h (by simp [Except.mapError])
  case ok.ok found found' => rw [Except.ok.inj h]

/-- **Assembling depends on the lines of code alone**, but for the number of a line in an error. -/
theorem assemble_congr {text text' : String}
    (h : (Text.lines text).filterMap Text.codeOn? = (Text.lines text').filterMap Text.codeOn?) :
    (assemble text).mapError AssemblyError.forgetLine =
      (assemble text').mapError AssemblyError.forgetLine := by
  refine AssemblyError.bind_congr (Layout.foldlM_addLine_congr ?_ {}) _
  rw [Text.codeLines_eq, Text.codeLines_eq, Text.map_snd_codeFrom, Text.map_snd_codeFrom, h]

/-! ### Listings -/

/-- The lines of code in a listing are those of its statements. -/
theorem codes_listing (code : List Statement) :
    (Text.lines (listing code)).filterMap Text.codeOn? =
      code.flatMap fun s => (s.render.toList.splitOn '\n').filterMap Text.codeOn? := by
  have hend : (Text.lines (listing [])).filterMap Text.codeOn? = [] := rfl
  have hlines := lines_listing_append code []
  rw [List.append_nil] at hlines
  rw [hlines, List.filterMap_append, hend, List.append_nil, List.filterMap_flatMap]

/-- A comment on one line is no code. -/
theorem codes_comment {s : Statement} (hs : s.isComment) (hline : '\n' ∉ s.render.toList) :
    (s.render.toList.splitOn '\n').filterMap Text.codeOn? = [] := by
  rw [List.splitOn_eq_singleton hline]
  cases s with
  | comment text =>
    rw [Statement.render, String.toList_append]
    rfl
  | instruction => exact Bool.noConfusion hs
  | label => exact Bool.noConfusion hs

/-- **A listing is assembled as without its comments**, as long as each comment stands on one
line. -/
theorem assemble_uncommented {code : List Statement}
    (h : ∀ s ∈ code, s.isComment → '\n' ∉ s.render.toList) :
    (assemble (listing (uncommented code))).mapError AssemblyError.forgetLine =
      (assemble (listing code)).mapError AssemblyError.forgetLine := by
  refine assemble_congr ?_
  rw [codes_listing, codes_listing]
  induction code with
  | nil => rfl
  | cons s rest ih =>
    obtain ⟨hs, hrest⟩ := List.forall_mem_cons.mp h
    rw [List.flatMap_cons, ← ih hrest, uncommented]
    by_cases hc : s.isComment
    · rw [List.filter_cons_of_neg (by simp [hc]), codes_comment hc (hs hc), List.nil_append]
      rfl
    · rw [List.filter_cons_of_pos (by simp [hc]), List.flatMap_cons]
      rfl

end HackStack
