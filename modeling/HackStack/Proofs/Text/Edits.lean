import HackStack.Proofs.Text.Line
import Mathlib.Logic.Relation

/-!
# Edits of the layout of a text

The layout of a text is what may be changed without changing what its lines say: which blanks stand
around and between the words of a line, what its comment is, how it ends, and which lines hold
nothing at all. `HackStack.Text.Edit` is one change of this kind, made to the lines of a text, and
`HackStack.Text.Edits` any number of them; both say also which number a line has afterwards.

What a line says is its words, as far as they stand ahead of the comment
(`HackStack.Text.lineWords`). Everything here follows from one equation about them,
`HackStack.Text.lineWords_append_cons`: a blank cuts a line in two, unless a comment has begun
before. So an edit leaves the words on every line alone, and moves the numbers of the lines as it
says (`HackStack.Text.Edits.wordsFrom_eq`); and the line that has been moved to a number is the line
that was there before, edited (`HackStack.Text.Edits.exists_line`).
-/

namespace HackStack.Text

/-! ### Words -/

/-- **Words split at a blank.** -/
theorem words_append_cons {c : Char} (hc : isBlank c = true) (front back : List Char) :
    words (front ++ c :: back) = words front ++ words back := by
  rw [words, List.splitOnP_append_cons front back hc, List.filter_append]
  rfl

/-- Blanks at the beginning belong to no word. -/
theorem words_blanks_append {run : List Char} (h : ∀ c ∈ run, isBlank c = true)
    (back : List Char) : words (run ++ back) = words back := by
  induction run with
  | nil => rfl
  | cons c run ih =>
    obtain ⟨hc, hrun⟩ := List.forall_mem_cons.mp h
    exact (words_append_cons hc [] (run ++ back)).trans (ih hrun)

/-- Blanks at the end belong to no word. -/
theorem words_append_blanks {run : List Char} (h : ∀ c ∈ run, isBlank c = true)
    (front : List Char) : words (front ++ run) = words front := by
  cases run with
  | nil => rw [List.append_nil]
  | cons c run =>
    obtain ⟨hc, hrun⟩ := List.forall_mem_cons.mp h
    have hnone : words run = [] := by
      rw [← List.append_nil run]
      exact words_blanks_append hrun []
    rw [words_append_cons hc, hnone, List.append_nil]

/-- **Trimming changes no word.** -/
theorem words_trim (text : List Char) : words (trim text) = words text := by
  have hblank : ∀ text : List Char, ∀ c ∈ text.takeWhile isBlank, isBlank c = true :=
    fun text => List.all_eq_true.mp (List.all_takeWhile (p := isBlank) (l := text))
  have hstart : words (trimStart text) = words text :=
    calc words (trimStart text)
        = words (text.takeWhile isBlank ++ text.dropWhile isBlank) :=
          (words_blanks_append (hblank text) _).symm
      _ = words text := by rw [List.takeWhile_append_dropWhile]
  have hend : ∀ text : List Char, words (trimEnd text) = words text := by
    intro text
    have hdropped : ∀ c ∈ (text.reverse.takeWhile isBlank).reverse, isBlank c = true :=
      fun c hc => hblank _ c (List.mem_reverse.mp hc)
    calc words (trimEnd text)
        = words (trimEnd text ++ (text.reverse.takeWhile isBlank).reverse) :=
          (words_append_blanks hdropped _).symm
      _ = words text := by
          rw [trimEnd, ← List.reverse_append, List.takeWhile_append_dropWhile,
            List.reverse_reverse]
  rw [trim, hend, hstart]

/-- A text that begins with a word has one. -/
theorem words_cons_ne_nil {c : Char} (hc : isBlank c = false) (rest : List Char) :
    words (c :: rest) ≠ [] := by
  obtain ⟨first, more, hsplit⟩ := List.exists_cons_of_ne_nil (List.splitOnP_ne_nil isBlank rest)
  rw [words, List.splitOnP_cons_eq_if_modifyHead, if_neg (by simp [hc]), hsplit,
    List.modifyHead_cons, List.filter_cons_of_pos rfl]
  exact List.cons_ne_nil _ _

/-! ### The words on a line -/

/-- **The words on a line**, without its comment. -/
def lineWords (line : List Char) : List (List Char) := words (beforeComment line)

/-- The code of a line has the words of the line. -/
theorem words_code (line : List Char) : words (code line) = lineWords line := words_trim _

/-- **A line holds code** exactly if there are words on it. -/
theorem code_eq_nil_iff {line : List Char} : code line = [] ↔ lineWords line = [] := by
  rw [← words_code]
  constructor
  · intro h
    rw [h]
    rfl
  · intro h
    cases hcode : code line with
    | nil => rfl
    | cons c rest =>
      have hhead : isBlank c = false :=
        (trimmed_trim (beforeComment line)).1 c (congrArg List.head? hcode)
      exact absurd (hcode ▸ h) (words_cons_ne_nil hhead rest)

/-- A comment starts ahead of a character, or else the character is kept. -/
theorem beforeComment_append_cons_eq {c : Char} (hc : c ≠ '/') (front rest : List Char) :
    beforeComment (front ++ c :: rest) =
      if beforeComment front = front then front ++ c :: beforeComment rest
      else beforeComment front := by
  induction front with
  | nil => exact beforeComment_cons fun _ hslash _ => hc hslash
  | cons d front ih =>
    by_cases hcut : ∃ tail, d = '/' ∧ front = '/' :: tail
    · obtain ⟨tail, rfl, rfl⟩ := hcut
      rw [List.cons_append, List.cons_append, beforeComment_slashes, beforeComment_slashes,
        if_neg (List.cons_ne_nil _ _).symm]
    · have hfront : ∀ tail, d = '/' → front = '/' :: tail → False :=
        fun tail hd htail => hcut ⟨tail, hd, htail⟩
      have hall : ∀ tail, d = '/' → front ++ c :: rest = '/' :: tail → False := by
        intro tail hd htail
        cases front with
        | nil => exact hc (List.cons.inj htail).1
        | cons e front => exact hfront front hd (by rw [(List.cons.inj htail).1])
      rw [List.cons_append, beforeComment_cons hall, beforeComment_cons hfront, ih]
      by_cases hsame : beforeComment front = front
      · rw [if_pos hsame, if_pos (congrArg _ hsame)]
        rfl
      · rw [if_neg hsame, if_neg fun h => hsame (List.cons.inj h).2]

/-- **A blank cuts a line in two**, and the words are those ahead of it and those behind it, unless
a comment starts ahead of it. -/
theorem lineWords_append_cons {c : Char} (hc : isBlank c = true) (front back : List Char) :
    lineWords (front ++ c :: back) =
      if beforeComment front = front then lineWords front ++ lineWords back
      else lineWords front := by
  have hslash : c ≠ '/' := by
    rintro rfl
    exact absurd hc (by decide)
  rw [lineWords, beforeComment_append_cons_eq hslash]
  split
  next h => rw [words_append_cons hc, lineWords, lineWords, h]
  next => rfl

/-- Blanks ahead of a line belong to no word. -/
theorem lineWords_blanks_append {run : List Char} (h : ∀ c ∈ run, isBlank c = true)
    (back : List Char) : lineWords (run ++ back) = lineWords back := by
  induction run with
  | nil => rfl
  | cons c run ih =>
    obtain ⟨hc, hrun⟩ := List.forall_mem_cons.mp h
    exact (lineWords_append_cons hc [] (run ++ back)).trans (ih hrun)

/-- **A run of blanks cuts a line in two** like one blank. -/
theorem lineWords_append_blanks_append {run : List Char} (h : ∀ c ∈ run, isBlank c = true)
    (hne : run ≠ []) (front back : List Char) :
    lineWords (front ++ (run ++ back)) =
      if beforeComment front = front then lineWords front ++ lineWords back
      else lineWords front := by
  obtain ⟨c, run, rfl⟩ := List.exists_cons_of_ne_nil hne
  obtain ⟨hc, hrun⟩ := List.forall_mem_cons.mp h
  rw [List.cons_append, lineWords_append_cons hc, lineWords_blanks_append hrun]

/-- What follows a blank and holds no words adds none. -/
theorem lineWords_append_of_nil {run back : List Char} (h : ∀ c ∈ run, isBlank c = true)
    (hne : run ≠ []) (hback : lineWords back = []) (front : List Char) :
    lineWords (front ++ (run ++ back)) = lineWords front := by
  rw [lineWords_append_blanks_append h hne, hback, List.append_nil, ite_self]

/-! ### Edits -/

/-- A run of blanks on one line. -/
structure Blanks (run : List Char) : Prop where
  isBlank : ∀ c ∈ run, isBlank c = true
  newline_not_mem : '\n' ∉ run

/-- **An edit of the layout of one line.** -/
inductive LineEdit : List Char → List Char → Prop
  /-- A space and a comment are put behind the line. -/
  | comment (line : List Char) {text : List Char} (h : '\n' ∉ text) :
      LineEdit line (line ++ ' ' :: '/' :: '/' :: text)
  /-- Blanks somewhere on the line become other blanks. -/
  | respace (front back : List Char) {run run' : List Char} (h : Blanks run) (h' : Blanks run')
      (hne : run ≠ []) (hne' : run' ≠ []) :
      LineEdit (front ++ (run ++ back)) (front ++ (run' ++ back))
  /-- Blanks are put ahead of the line. -/
  | indent (line : List Char) {run : List Char} (h : Blanks run) : LineEdit line (run ++ line)
  /-- Blanks are put behind the line. -/
  | pad (line : List Char) {run : List Char} (h : Blanks run) : LineEdit line (line ++ run)

/-- **A line that holds nothing**: it is blank, or there is only a comment on it. -/
inductive Void : List Char → Prop
  | blank {line : List Char} (h : Blanks line) : Void line
  | comment {indent text : List Char} (h : Blanks indent) (htext : '\n' ∉ text) :
      Void (indent ++ '/' :: '/' :: text)

/-- The number of a line when a line has been put behind the first `count`. -/
def numberBehind (count number : Nat) : Nat := if number ≤ count then number else number + 1

/-- **An edit of the layout of a text**, given by its lines, with the number that each line has
afterwards. -/
inductive Edit : List (List Char) → (Nat → Nat) → List (List Char) → Prop
  /-- A line is edited. -/
  | line (above below : List (List Char)) {line line' : List Char} (h : LineEdit line line') :
      Edit (above ++ line :: below) id (above ++ line' :: below)
  /-- A line that holds nothing is put between two lines, or at one of the ends. -/
  | insert (above below : List (List Char)) {line : List Char} (h : Void line) :
      Edit (above ++ below) (numberBehind above.length) (above ++ line :: below)
  /-- A line that holds nothing is put behind the line feed that ends the text. -/
  | append (above : List (List Char)) {line : List Char} (h : Void line) :
      Edit (above ++ [[]]) id (above ++ [line])
  /-- A line feed becomes a carriage return and a line feed. -/
  | lineEnd (above : List (List Char)) (line next : List Char) (below : List (List Char)) :
      Edit (above ++ line :: next :: below) id (above ++ (line ++ ['\r']) :: next :: below)

/-- **A sequence of edits**, with the number that each line has after all of them. -/
inductive Edits (lines : List (List Char)) : (Nat → Nat) → List (List Char) → Prop
  | none : Edits lines id lines
  | next {lines' lines'' : List (List Char)} {moved moved' : Nat → Nat}
      (h : Edits lines moved lines') (hedit : Edit lines' moved' lines'') :
      Edits lines (moved' ∘ moved) lines''

/-! ### What edits leave alone -/

/-- A blank that ends no line can stand on one. -/
theorem blanks_singleton {c : Char} (hc : isBlank c = true) (hne : c ≠ '\n') : Blanks [c] where
  isBlank := fun _ hd => List.mem_singleton.mp hd ▸ hc
  newline_not_mem := fun h => hne (List.mem_singleton.mp h).symm

/-- **An edit of a line** leaves its words alone. -/
theorem LineEdit.lineWords_eq {line line' : List Char} (h : LineEdit line line') :
    lineWords line' = lineWords line := by
  cases h with
  | comment line h =>
    have hspace : Blanks [' '] := blanks_singleton rfl (by decide)
    exact lineWords_append_of_nil hspace.isBlank (List.cons_ne_nil _ _) rfl line
  | respace front back h h' hne hne' =>
    rw [lineWords_append_blanks_append h.isBlank hne,
      lineWords_append_blanks_append h'.isBlank hne']
  | indent line h => exact lineWords_blanks_append h.isBlank line
  | @pad line run h =>
    by_cases hne : run = []
    · rw [hne, List.append_nil]
    · rw [← List.append_nil run]
      exact lineWords_append_of_nil h.isBlank hne rfl line

/-- A line that has been edited has the same words. -/
theorem lineWords_of_edited {line line' : List Char}
    (h : Relation.ReflTransGen LineEdit line line') : lineWords line' = lineWords line := by
  induction h with
  | refl => rfl
  | tail _ hedit ih => exact hedit.lineWords_eq.trans ih

/-- **There are no words on a line that holds nothing.** -/
theorem Void.lineWords_eq {line : List Char} (h : Void line) : lineWords line = [] := by
  cases h with
  | blank h =>
    rw [← List.append_nil line]
    exact lineWords_blanks_append h.isBlank []
  | comment h htext => exact lineWords_blanks_append h.isBlank _

/-- A carriage return is a blank at the end of a line. -/
theorem lineEdit_carriageReturn (line : List Char) : LineEdit line (line ++ ['\r']) :=
  .pad line (blanks_singleton (by decide) (by decide))

/-- **The words on lines**, with the number of each line that has any, counted from `first` on. -/
def wordsFrom : Nat → List (List Char) → List (Nat × List (List Char))
  | _, [] => []
  | first, line :: rest =>
    if lineWords line = [] then wordsFrom (first + 1) rest
    else (first, lineWords line) :: wordsFrom (first + 1) rest

theorem wordsFrom_append (first : Nat) (above below : List (List Char)) :
    wordsFrom first (above ++ below) =
      wordsFrom first above ++ wordsFrom (first + above.length) below := by
  induction above generalizing first with
  | nil => rfl
  | cons line above ih =>
    rw [List.cons_append, wordsFrom, wordsFrom, ih, List.length_cons, Nat.add_right_comm,
      Nat.add_assoc]
    split <;> rfl

theorem wordsFrom_of_nil {line : List Char} (h : lineWords line = []) (first : Nat)
    (rest : List (List Char)) : wordsFrom first (line :: rest) = wordsFrom (first + 1) rest :=
  if_pos h

/-- A line with the same words can take the place of a line. -/
theorem wordsFrom_congr {line line' : List Char} (h : lineWords line' = lineWords line)
    (first : Nat) (rest : List (List Char)) :
    wordsFrom first (line' :: rest) = wordsFrom first (line :: rest) := by
  rw [wordsFrom, wordsFrom, h]

/-- Counting from the next number on. -/
theorem wordsFrom_succ (first : Nat) (lines : List (List Char)) :
    wordsFrom (first + 1) lines = (wordsFrom first lines).map (Prod.map (· + 1) id) := by
  induction lines generalizing first with
  | nil => rfl
  | cons line rest ih =>
    rw [wordsFrom, wordsFrom, ih (first + 1)]
    split <;> rfl

/-- **Where numbered words come from**: the line that has their number. -/
theorem exists_line_of_mem_wordsFrom {lines : List (List Char)} {first : Nat}
    {numbered : Nat × List (List Char)} (h : numbered ∈ wordsFrom first lines) :
    ∃ i line, lines[i]? = some line ∧ lineWords line ≠ [] ∧
      numbered = (first + i, lineWords line) := by
  induction lines generalizing first with
  | nil => exact absurd h List.not_mem_nil
  | cons line rest ih =>
    have hrest : numbered ∈ wordsFrom (first + 1) rest →
        ∃ i line', (line :: rest)[i]? = some line' ∧ lineWords line' ≠ [] ∧
          numbered = (first + i, lineWords line') := by
      intro hmem
      obtain ⟨i, line', hline, hwords, hnumbered⟩ := ih hmem
      refine ⟨i + 1, line', hline, hwords, ?_⟩
      rw [hnumbered, Nat.add_assoc, Nat.add_comm 1]
    rw [wordsFrom] at h
    split at h
    next => exact hrest h
    next hwords =>
      rcases List.mem_cons.mp h with rfl | hmem
      · exact ⟨0, line, rfl, hwords, rfl⟩
      · exact hrest hmem

/-- The lines are numbered from the first number on, one after the other. -/
theorem bounds_of_mem_wordsFrom {lines : List (List Char)} {first : Nat}
    {numbered : Nat × List (List Char)} (h : numbered ∈ wordsFrom first lines) :
    first ≤ numbered.1 ∧ numbered.1 < first + lines.length := by
  obtain ⟨i, line, hline, -, rfl⟩ := exists_line_of_mem_wordsFrom h
  obtain ⟨hi, -⟩ := List.getElem?_eq_some_iff.mp hline
  exact ⟨Nat.le_add_right _ _, Nat.add_lt_add_left hi _⟩

/-- **The lines of code in a text** are those with words. -/
theorem map_codeFrom (first : Nat) (lines : List (List Char)) :
    (codeFrom first lines).map (fun line => (line.1, words line.2.toList)) =
      wordsFrom first lines := by
  induction lines generalizing first with
  | nil => rfl
  | cons line rest ih =>
    rw [codeFrom_cons, wordsFrom]
    by_cases h : lineWords line = []
    · rw [if_pos h, if_pos (List.isEmpty_iff.mpr (code_eq_nil_iff.mpr h)), ih]
    · have hcode : ¬(code line).isEmpty := fun he =>
        h (code_eq_nil_iff.mp (List.isEmpty_iff.mp he))
      rw [if_neg h, if_neg hcode, List.map_cons, ih, String.toList_ofList, words_code]

/-! ### The numbers of the lines -/

theorem numberBehind_of_le {count number : Nat} (h : number ≤ count) :
    numberBehind count number = number := if_pos h

theorem numberBehind_of_lt {count number : Nat} (h : count < number) :
    numberBehind count number = number + 1 := if_neg (Nat.not_le_of_lt h)

/-- **An edit leaves the words on every line alone**, and moves the lines as it says. -/
theorem Edit.wordsFrom_eq {lines lines' : List (List Char)} {moved : Nat → Nat}
    (h : Edit lines moved lines') :
    wordsFrom 1 lines' = (wordsFrom 1 lines).map (Prod.map moved id) := by
  have stays : ∀ {line line' : List Char} (above below : List (List Char)),
      lineWords line' = lineWords line →
      wordsFrom 1 (above ++ line' :: below) =
        (wordsFrom 1 (above ++ line :: below)).map (Prod.map id id) := by
    intro line line' above below hwords
    rw [Prod.map_id, List.map_id, wordsFrom_append, wordsFrom_append, wordsFrom_congr hwords]
  cases h with
  | line above below h => exact stays above below h.lineWords_eq
  | append above h => exact stays above [] h.lineWords_eq
  | lineEnd above line next below =>
    exact stays above (next :: below) (lineEdit_carriageReturn line).lineWords_eq
  | insert above below h =>
    -- What stands above keeps its numbers, and what stands below has the next ones.
    have habove : (wordsFrom 1 above).map (Prod.map (numberBehind above.length) id) =
        wordsFrom 1 above := by
      refine (List.map_congr_left fun numbered hmem => ?_).trans (List.map_id _)
      have hlt := (bounds_of_mem_wordsFrom hmem).2
      exact Prod.ext (numberBehind_of_le (by omega)) rfl
    have hbelow : (wordsFrom (1 + above.length) below).map
        (Prod.map (numberBehind above.length) id) = wordsFrom (1 + above.length + 1) below := by
      rw [wordsFrom_succ]
      refine List.map_congr_left fun numbered hmem => ?_
      have hle := (bounds_of_mem_wordsFrom hmem).1
      exact Prod.ext (numberBehind_of_lt (by omega)) rfl
    rw [wordsFrom_append, wordsFrom_append, List.map_append, wordsFrom_of_nil h.lineWords_eq,
      habove, hbelow]

/-- Beside one place, two lists are the same. -/
theorem getElem?_append_cons_of_ne {above below : List (List Char)} {i : Nat}
    (hi : i ≠ above.length) (old new : List Char) :
    (above ++ new :: below)[i]? = (above ++ old :: below)[i]? := by
  rcases Nat.lt_or_gt_of_ne hi with hlt | hgt
  · rw [List.getElem?_append_left hlt, List.getElem?_append_left hlt]
  · obtain ⟨k, rfl⟩ := Nat.exists_eq_add_of_lt hgt
    rw [List.getElem?_append_right (by omega), List.getElem?_append_right (by omega),
      show above.length + k + 1 - above.length = k + 1 by omega]
    rfl

/-- **Where an edit leaves a line** that says something: at the number that it says, and as it was
or edited. -/
theorem Edit.exists_line {lines lines' : List (List Char)} {moved : Nat → Nat}
    (h : Edit lines moved lines') {i : Nat} {line : List Char} (hline : lines[i]? = some line)
    (hwords : lineWords line ≠ []) :
    ∃ j line', moved (i + 1) = j + 1 ∧ lines'[j]? = some line' ∧
      Relation.ReflTransGen LineEdit line line' := by
  -- Three of the edits change one line in its place.
  have stays : ∀ (above below : List (List Char)) (old new : List Char),
      (lineWords old ≠ [] → LineEdit old new) → (above ++ old :: below)[i]? = some line →
      ∃ j line', id (i + 1) = j + 1 ∧ (above ++ new :: below)[j]? = some line' ∧
        Relation.ReflTransGen LineEdit line line' := by
    intro above below old new hedit hold
    by_cases hi : i = above.length
    · subst hi
      have hplace : ∀ x : List Char, (above ++ x :: below)[above.length]? = some x := by
        intro x
        rw [List.getElem?_append_right (Nat.le_refl _), Nat.sub_self]
        rfl
      obtain rfl := Option.some.inj ((hplace old).symm.trans hold)
      exact ⟨above.length, new, rfl, hplace new, .single (hedit hwords)⟩
    · exact ⟨i, line, rfl, (getElem?_append_cons_of_ne hi old new).trans hold, .refl⟩
  cases h with
  | line above below h => exact stays above below _ _ (fun _ => h) hline
  | append above h => exact stays above [] _ _ (fun hne => absurd rfl hne) hline
  | lineEnd above line next below =>
    exact stays above (next :: below) _ _ (fun _ => lineEdit_carriageReturn line) hline
  | insert above below h =>
    by_cases hi : i < above.length
    · refine ⟨i, line, numberBehind_of_le hi, ?_, .refl⟩
      rw [List.getElem?_append_left hi] at hline ⊢
      exact hline
    · refine ⟨i + 1, line, numberBehind_of_lt (by omega), ?_, .refl⟩
      rw [List.getElem?_append_right (by omega)] at hline ⊢
      rw [show i + 1 - above.length = i - above.length + 1 by omega]
      exact hline

namespace Edits

variable {lines lines' : List (List Char)} {moved : Nat → Nat}

/-- No line is moved to the place of the file as a whole. -/
theorem moved_zero (h : Edits lines moved lines') : moved 0 = 0 := by
  induction h with
  | none => rfl
  | next h hedit ih =>
    rw [Function.comp_apply, ih]
    cases hedit with
    | insert above below h => exact numberBehind_of_le (Nat.zero_le _)
    | line | append | lineEnd => rfl

/-- **Edits leave the words on every line alone**, and move the lines as they say. -/
theorem wordsFrom_eq (h : Edits lines moved lines') :
    wordsFrom 1 lines' = (wordsFrom 1 lines).map (Prod.map moved id) := by
  induction h with
  | none => rw [Prod.map_id, List.map_id]
  | next h hedit ih =>
    rw [hedit.wordsFrom_eq, ih, List.map_map, Prod.map_comp_map, Function.id_comp]

/-- **Where edits leave a line** that says something: at the number that they say, and edited. -/
theorem exists_line (h : Edits lines moved lines') {i : Nat} {line : List Char}
    (hline : lines[i]? = some line) (hwords : lineWords line ≠ []) :
    ∃ j line', moved (i + 1) = j + 1 ∧ lines'[j]? = some line' ∧
      Relation.ReflTransGen LineEdit line line' := by
  induction h with
  | none => exact ⟨i, line, rfl, hline, .refl⟩
  | next h hedit ih =>
    obtain ⟨j, between, hj, hbetween, hedited⟩ := ih
    rw [← lineWords_of_edited hedited] at hwords
    obtain ⟨k, line', hk, hline', hedited'⟩ := hedit.exists_line hbetween hwords
    exact ⟨k, line', by rw [Function.comp_apply, hj, hk], hline', hedited.trans hedited'⟩

end Edits

end HackStack.Text
