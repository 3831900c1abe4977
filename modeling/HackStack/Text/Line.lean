import HackStack.Text.Blank

/-!
# Code lines

A source, whether of commands or of assembly, is a sequence of lines. On each line a comment
starts at the first `//`; what stands before it, without the blanks around it, is the line's code.
A line without code counts when lines are numbered, and is otherwise passed over.

Only a line feed ends a line. A carriage return before it is a blank, so trimming removes it and
texts with either line ending have the same code.

The number of a line is a natural number. It is at most the number of lines
(`HackStack.Text.le_length_of_mem_codeLines`), so a counter of 32 bits numbers a text of fewer than
`2 ^ 32` lines alike. What is said of longer texts is said of the unbounded numbers only.
-/

namespace HackStack.Text

/-! ### Comments -/

/-- Auxiliary to `beforeComment`: `seen` holds what has been read, last character first. -/
def beforeCommentFrom (seen : List Char) : List Char → List Char
  | [] => seen.reverse
  | '/' :: '/' :: _ => seen.reverse
  | c :: rest => beforeCommentFrom (c :: seen) rest

/-- The part of a line before its first `//`; all of it when there is none. -/
def beforeComment (line : List Char) : List Char := beforeCommentFrom [] line

/-- What has been read is kept, whatever follows. -/
theorem beforeCommentFrom_eq (line : List Char) :
    ∀ seen, beforeCommentFrom seen line = seen.reverse ++ beforeComment line := by
  unfold beforeComment
  suffices ∀ seen rest, beforeCommentFrom (seen ++ rest) line =
      rest.reverse ++ beforeCommentFrom seen line by
    intro seen
    simpa using this [] seen
  intro seen rest
  fun_induction beforeCommentFrom seen line with
  | case1 seen => simp [beforeCommentFrom]
  | case2 seen _ => simp [beforeCommentFrom]
  | case3 seen c tail hc ih =>
    rw [beforeCommentFrom.eq_3 _ _ _ hc]
    exact ih

/-- **A comment cuts the line.** -/
theorem beforeComment_slashes (rest : List Char) : beforeComment ('/' :: '/' :: rest) = [] := rfl

/-- **Any other character is kept.** -/
theorem beforeComment_cons {c : Char} {rest : List Char}
    (h : ∀ tail, c = '/' → rest = '/' :: tail → False) :
    beforeComment (c :: rest) = c :: beforeComment rest := by
  rw [beforeComment, beforeCommentFrom.eq_3 _ _ _ h, beforeCommentFrom_eq]
  rfl

/-! ### Numbered code -/

/-- The code of a line: what precedes its comment, trimmed. -/
def code (line : List Char) : List Char := trim (beforeComment line)

/-- The lines of a text, without the line feeds that end them. -/
def lines (text : String) : List (List Char) := text.toList.splitOn '\n'

/-- The lines of a text that hold code, each with its number counted from one. -/
def codeLines (text : String) : List (Nat × String) :=
  ((lines text).zipIdx 1).filterMap fun (line, number) =>
    let code := code line
    if code.isEmpty then none else some (number, String.ofList code)

end HackStack.Text
