import HackStack.Text.Line

/-!
# Lines that are their own code

A reader trims a line and cuts it at its comment before it looks at the rest. What this library
writes on a line has no blank at its ends, and no slash unless it is a comment; both operations
then leave it alone.

* `HackStack.Text.Trimmed` – no blank at either end, which is what trimming changes nothing about
  (`HackStack.Text.trim_eq_self`);
* `HackStack.Text.code_eq_self` – the code of a line without blanks and slashes is the line;
* `HackStack.Text.Inline` – neither a line feed nor a comment, which is kept where texts are put
  together (`HackStack.Text.Inline.append_cons`);
* `HackStack.Text.codeFrom` – the lines that hold code, numbered from any number on.
-/

namespace HackStack.Text

/-! ### Trimming -/

/-- A text with no blank at either end. -/
def Trimmed (text : List Char) : Prop :=
  (∀ c, text.head? = some c → isBlank c = false) ∧
    ∀ c, text.getLast? = some c → isBlank c = false

/-- Nothing is dropped from a text that does not start with a blank. -/
theorem trimStart_eq_self {text : List Char} (h : ∀ c, text.head? = some c → isBlank c = false) :
    trimStart text = text := by
  cases text with
  | nil => rfl
  | cons c rest => exact List.dropWhile_cons_of_neg (by simp [h c rfl])

/-- Nothing is dropped from a text that does not end with a blank. -/
theorem trimEnd_eq_self {text : List Char} (h : ∀ c, text.getLast? = some c → isBlank c = false) :
    trimEnd text = text := by
  have hr : ∀ c, text.reverse.head? = some c → isBlank c = false := by
    intro c hc
    rw [List.head?_reverse] at hc
    exact h c hc
  have hd : text.reverse.dropWhile isBlank = text.reverse := trimStart_eq_self hr
  rw [trimEnd, hd, List.reverse_reverse]

/-- **Trimming changes nothing about a trimmed text.** -/
theorem trim_eq_self {text : List Char} (h : Trimmed text) : trim text = text := by
  rw [trim, trimStart_eq_self h.1, trimEnd_eq_self h.2]

/-- A text without blanks is trimmed. -/
theorem trimmed_of_forall {text : List Char} (h : ∀ c ∈ text, isBlank c = false) :
    Trimmed text :=
  ⟨fun c hc => h c (List.mem_of_mem_head? hc), fun c hc => h c (List.mem_of_getLast? hc)⟩

/-- A text between characters that are no blanks is trimmed. -/
theorem trimmed_cons {c : Char} {text : List Char} (hc : isBlank c = false)
    (hlast : ∀ d, text.getLast? = some d → isBlank d = false) : Trimmed (c :: text) := by
  refine ⟨fun d hd => Option.some.inj hd ▸ hc, fun d hd => ?_⟩
  cases text with
  | nil => exact Option.some.inj hd ▸ hc
  | cons e text => exact hlast d (by rwa [List.getLast?_cons_cons] at hd)

/-- What is dropped from the end of a text stands at its end. -/
theorem trimEnd_prefix (text : List Char) : trimEnd text <+: text := by
  have hdropped := List.reverse_prefix.mpr (List.dropWhile_suffix isBlank (l := text.reverse))
  rwa [List.reverse_reverse] at hdropped

/-- **A text that has been trimmed is trimmed.** -/
theorem trimmed_trim (text : List Char) : Trimmed (trim text) := by
  have hdropped : ∀ (text : List Char) c, (text.dropWhile isBlank).head? = some c →
      isBlank c = false := by
    intro text c hc
    have hhead := List.head?_dropWhile_not isBlank text
    rw [hc] at hhead
    simpa using hhead
  refine ⟨fun c hc => ?_, fun c hc => ?_⟩
  · obtain ⟨rest, hrest⟩ := trimEnd_prefix (trimStart text)
    have hhead : (trimEnd (trimStart text)).head? = some c := hc
    refine hdropped text c ?_
    change (trimStart text).head? = some c
    rw [← hrest, List.head?_append, hhead, Option.some_or]
  · rw [trim, trimEnd, List.getLast?_reverse] at hc
    exact hdropped _ c hc

/-! ### Code -/

/-- A line without slashes holds no comment. -/
theorem beforeComment_eq_self {line : List Char} (h : '/' ∉ line) : beforeComment line = line := by
  induction line with
  | nil => rfl
  | cons c rest ih =>
    obtain ⟨hc, hrest⟩ := List.ne_and_not_mem_of_not_mem_cons h
    rw [beforeComment_cons fun _ hslash _ => hc hslash.symm, ih hrest]

/-- **A line without blanks and slashes is its own code.** -/
theorem code_eq_self {line : List Char} (hb : ∀ c ∈ line, isBlank c = false) (hs : '/' ∉ line) :
    code line = line := by
  rw [code, beforeComment_eq_self hs, trim_eq_self (trimmed_of_forall hb)]

/-! ### Texts on a line -/

/-- **A text that can stand on a line**: it holds neither a line feed nor a comment. -/
structure Inline (text : List Char) : Prop where
  newline_not_mem : '\n' ∉ text
  beforeComment_eq : beforeComment text = text

/-- A line that holds no comment goes on without one. -/
theorem beforeComment_cons_eq_self {c : Char} {rest : List Char}
    (h : beforeComment (c :: rest) = c :: rest) :
    beforeComment rest = rest ∧ ∀ tail, c = '/' → rest = '/' :: tail → False := by
  have hcut : ∀ tail, c = '/' → rest = '/' :: tail → False := by
    rintro tail rfl rfl
    rw [beforeComment_slashes] at h
    exact absurd h (by simp)
  rw [beforeComment_cons hcut] at h
  exact ⟨(List.cons.inj h).2, hcut⟩

/-- **No comment starts where two texts meet** that have no slash between them. -/
theorem beforeComment_append_cons {text rest : List Char} {c : Char}
    (h : beforeComment text = text) (hc : c ≠ '/') (hrest : beforeComment rest = rest) :
    beforeComment (text ++ c :: rest) = text ++ c :: rest := by
  induction text with
  | nil => rw [List.nil_append, beforeComment_cons fun _ hslash _ => hc hslash, hrest]
  | cons d text ih =>
    obtain ⟨htext, hcut⟩ := beforeComment_cons_eq_self h
    rw [List.cons_append, beforeComment_cons, ih htext]
    intro tail hd htail
    cases text with
    | nil => exact hc (List.cons.inj htail).1
    | cons e text => exact hcut text hd (by rw [(List.cons.inj htail).1])

theorem inline_nil : Inline [] := ⟨List.not_mem_nil, rfl⟩

/-- Texts that can stand on a line can be put together, with a character between them. -/
theorem Inline.append_cons {text rest : List Char} {c : Char} (h : Inline text) (hslash : c ≠ '/')
    (hnewline : c ≠ '\n') (hrest : Inline rest) : Inline (text ++ c :: rest) where
  newline_not_mem hmem := by
    rcases List.mem_append.mp hmem with hmem | hmem
    · exact h.newline_not_mem hmem
    · rcases List.mem_cons.mp hmem with hc | hmem
      · exact hnewline hc.symm
      · exact hrest.newline_not_mem hmem
  beforeComment_eq := beforeComment_append_cons h.beforeComment_eq hslash hrest.beforeComment_eq

/-! ### Lines -/

/-- The lines that hold code, numbered from `first` on. -/
def codeFrom (first : Nat) (lines : List (List Char)) : List (Nat × String) :=
  (lines.zipIdx first).filterMap fun (line, number) =>
    let code := code line
    if code.isEmpty then none else some (number, String.ofList code)

theorem codeLines_eq (text : String) : codeLines text = codeFrom 1 (lines text) := rfl

theorem codeFrom_cons (first : Nat) (line : List Char) (rest : List (List Char)) :
    codeFrom first (line :: rest) =
      if (code line).isEmpty then codeFrom (first + 1) rest
      else (first, String.ofList (code line)) :: codeFrom (first + 1) rest := by
  rw [codeFrom, List.zipIdx_cons]
  split
  next h => exact List.filterMap_cons_none (by simp [h])
  next h => exact List.filterMap_cons_some (by simp [h])

theorem codeFrom_append (first : Nat) (before after : List (List Char)) :
    codeFrom first (before ++ after) =
      codeFrom first before ++ codeFrom (first + before.length) after := by
  rw [codeFrom, List.zipIdx_append, List.filterMap_append]
  rfl

/-- A line that holds code is among the numbered ones. -/
theorem exists_mem_codeFrom {lines : List (List Char)} {line : List Char} (h : line ∈ lines)
    (hcode : code line ≠ []) (first : Nat) :
    ∃ number, (number, String.ofList (code line)) ∈ codeFrom first lines := by
  obtain ⟨i, hi, rfl⟩ := List.getElem_of_mem h
  have hnumbered : (lines[i], first + i) ∈ lines.zipIdx first :=
    List.mk_add_mem_zipIdx_iff_getElem?.mpr (List.getElem?_eq_getElem hi)
  exact ⟨first + i, List.mem_filterMap.mpr ⟨_, hnumbered, by simp [hcode]⟩⟩

/-- **Where a line of code comes from**: the line of the text that has its number. -/
theorem raw_of_mem_codeLines {text : String} {number : Nat} {line : String}
    (h : (number, line) ∈ codeLines text) :
    0 < number ∧ ∃ raw, (lines text)[number - 1]? = some raw ∧ String.ofList (code raw) = line := by
  rw [codeLines, List.mem_filterMap] at h
  obtain ⟨⟨raw, n⟩, hmem, hline⟩ := h
  obtain ⟨hle, hget⟩ := List.mk_mem_zipIdx_iff_le_and_getElem?_sub.mp hmem
  dsimp only at hline
  split at hline
  · exact absurd hline (by simp)
  · rw [Option.some.injEq, Prod.mk.injEq] at hline
    obtain ⟨rfl, rfl⟩ := hline
    exact ⟨hle, raw, hget, rfl⟩

/-- **A number is at most the number of lines.** Below `2 ^ 32` lines every number fits in 32
bits. -/
theorem le_length_of_mem_codeLines {text : String} {number : Nat} {line : String}
    (h : (number, line) ∈ codeLines text) : number ≤ (lines text).length := by
  obtain ⟨hpos, raw, hraw, -⟩ := raw_of_mem_codeLines h
  have hlt : number - 1 < (lines text).length := (List.getElem?_eq_some_iff.mp hraw).1
  omega

/-- A line feed is a blank. -/
theorem newline_not_mem {text : List Char} (h : ∀ c ∈ text, isBlank c = false) : '\n' ∉ text :=
  fun hn => absurd (h _ hn) (by decide)

end HackStack.Text
