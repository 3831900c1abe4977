import Mathlib.Data.List.Induction
import HackStack.Proofs.Command.Written

/-!
# Written commands are read back

What a command is written with has blanks only between its words, so a reader finds the same words
again (`HackStack.Text.words_intercalate`), and these words spell the command
(`HackStack.Command.Written.spells`). So a command that can be read is read back from its written
form; that is `HackStack.Command.Written.read_render`.

Other lines are read as the same command: they have more blanks, or zeros in front of a number.
A line without either is *canonical* (`HackStack.Command.Canonical`), and the only canonical line
for a command is its written form (`HackStack.Command.Canonical.eq_render`). The zeros need an
argument: digits that start with no zero are the digits of their value
(`HackStack.toDigits_ofDigitChars`).

The main result, `HackStack.Command.read_grammar`, puts this next to what the grammar says of the
reader.
-/

namespace HackStack

open Text Assembly

/-- **Words are found again** in a text that puts a blank between them. -/
theorem Text.words_intercalate {texts : List String} (h : ∀ text ∈ texts, IsWord text) :
    words (" ".intercalate texts).toList = texts.map String.toList := by
  have hkept : ∀ text, IsWord text → ∀ pieces, (text.toList :: pieces).filter (!·.isEmpty) =
      text.toList :: pieces.filter (!·.isEmpty) := by
    intro text htext pieces
    exact List.filter_cons_of_pos (by simpa using htext.1)
  induction texts with
  | nil => rfl
  | cons text rest ih =>
    obtain ⟨htext, hrest⟩ := List.forall_mem_cons.mp h
    by_cases hend : rest = []
    · subst hend
      rw [String.intercalate_singleton, words, List.splitOnP_eq_singleton htext.2,
        hkept text htext]
      rfl
    · have hlist : (" ".intercalate (text :: rest)).toList =
          text.toList ++ ' ' :: (" ".intercalate rest).toList := by
        rw [String.intercalate_cons_of_ne_nil hend, String.toList_append, String.toList_append,
          List.append_assoc]
        rfl
      rw [hlist, words, List.splitOnP_append_cons_of_forall_mem htext.2 ' ' (by decide),
        hkept text htext]
      exact congrArg (text.toList :: ·) (ih hrest)

/-! ### Numbers -/

/-- A digit is the one of its value. -/
theorem digitChar_of_isDigit {c : Char} (h : c.isDigit = true) :
    c.toNat - '0'.toNat < 10 ∧ (c.toNat - '0'.toNat).digitChar = c := by
  obtain ⟨hlow, hhigh⟩ := Char.isDigit_iff_toNat.mp h
  have hzero : '0'.toNat = 48 := rfl
  have hnine : '9'.toNat = 57 := rfl
  have hlt : c.toNat - '0'.toNat < 10 := by omega
  refine ⟨hlt, Char.toNat_inj.mp ?_⟩
  rw [Nat.toNat_digitChar_of_lt_ten hlt]
  omega

/-- **Digits that start with no zero** have a value other than zero, and are its digits. -/
theorem toDigits_ofDigitChars {text : List Char} (hne : text ≠ [])
    (hdigits : ∀ c ∈ text, c.isDigit = true) (hzero : text.head? ≠ some '0') :
    0 < Nat.ofDigitChars 10 text 0 ∧ Nat.toDigits 10 (Nat.ofDigitChars 10 text 0) = text := by
  induction text using List.reverseRecOn with
  | nil => exact absurd rfl hne
  | append_singleton front c ih =>
    obtain ⟨hlt, hchar⟩ := digitChar_of_isDigit (hdigits c (by simp))
    rw [Nat.ofDigitChars_append, Nat.ofDigitChars_cons, Nat.ofDigitChars_nil]
    by_cases hfront : front = []
    · subst hfront
      have hvalue : c.toNat - '0'.toNat ≠ 0 := by
        intro h
        rw [h] at hchar
        exact hzero (hchar ▸ rfl)
      rw [Nat.ofDigitChars_nil, Nat.mul_zero, Nat.zero_add, Nat.toDigits_of_lt_base hlt, hchar]
      exact ⟨Nat.pos_of_ne_zero hvalue, rfl⟩
    · have hhead : (front ++ [c]).head? = front.head? := by
        rw [List.head?_append, List.head?_eq_some_head hfront, Option.some_or]
      obtain ⟨hpos, heq⟩ := ih hfront (fun d hd => hdigits d (List.mem_append_left _ hd))
        (hhead ▸ hzero)
      rw [← Nat.toDigits_append_toDigits (by decide) hpos hlt, heq, Nat.toDigits_of_lt_base hlt,
        hchar]
      exact ⟨by omega, rfl⟩

/-- The digits of a number that is not zero start with no zero. -/
theorem head?_toDigits_ne {n : Nat} (h : 0 < n) : (Nat.toDigits 10 n).head? ≠ some '0' := by
  induction n using Nat.strongRecOn with
  | ind n ih =>
    rw [Nat.toDigits_eq_if (by decide)]
    split
    next hlt =>
      intro hhead
      have hzero := Nat.digitChar_eq_zero.mp (Option.some.inj hhead)
      omega
    next hge =>
      rw [List.head?_append, List.head?_eq_some_head Nat.toDigits_ne_nil, Option.some_or,
        ← List.head?_eq_some_head]
      exact ih (n / 10) (by omega) (by omega)

/-- **No zero in front**: a text that starts with a zero is a single zero. -/
def NoZeroAhead (text : String) : Prop := ∀ rest, text.toList = '0' :: rest → rest = []

theorem noZeroAhead_of_head?_ne {text : String} (h : text.toList.head? ≠ some '0') :
    NoZeroAhead text := by
  intro rest hrest
  exact absurd (by rw [hrest]; rfl) h

/-- Numbers are written with no zero in front. -/
theorem noZeroAhead_toString (n : Nat) : NoZeroAhead (toString n) := by
  intro rest hrest
  rw [Nat.toString_eq_repr, Nat.toList_repr] at hrest
  rcases Nat.eq_zero_or_pos n with rfl | hpos
  · rw [Nat.toDigits_zero, List.cons.injEq] at hrest
    exact hrest.2.symm
  · exact absurd (by rw [hrest]; rfl) (head?_toDigits_ne hpos)

/-- Names start with no digit at all. -/
theorem IsName.noZeroAhead {name : String} (h : IsName name) : NoZeroAhead name := by
  obtain ⟨c, tail, hname, hdigit⟩ := h.exists_cons
  refine noZeroAhead_of_head?_ne fun hhead => ?_
  rw [hname, List.head?_cons, Option.some.injEq] at hhead
  rw [hhead] at hdigit
  exact absurd hdigit (by decide)

theorem Segment.noZeroAhead_name (segment : Segment) : NoZeroAhead segment.name := by
  rcases segment with _ | (_ | _ | _ | _) | _ | _ | _ <;>
    exact noZeroAhead_of_head?_ne (by decide)

theorem Operator.noZeroAhead_name (op : Operator) : NoZeroAhead op.name := by
  rcases op with op | op | op <;> cases op <;> exact noZeroAhead_of_head?_ne (by decide)

/-- The digits of a number that is small enough are a number. -/
theorem numberWord_toString {n : Nat} (h : n ≤ Command.maxNumber) : NumberWord (toString n) n := by
  have hlist : (toString n).toList = Nat.toDigits 10 n := by
    rw [Nat.toString_eq_repr, Nat.toList_repr]
  refine ⟨(isWord_toString n).1, fun c hc => ?_, ?_, h⟩
  · rw [hlist] at hc
    exact isDigit_iff.mp (Nat.isDigit_of_mem_toDigits (by decide) (by decide) hc)
  · rw [hlist, Nat.ofDigitChars_ten_toDigits]

/-- **A number with no zero in front** is written like its value. -/
theorem NumberWord.eq_toString {text : String} {n : Nat} (h : NumberWord text n)
    (hzero : NoZeroAhead text) : text = toString n := by
  have hne : text.toList ≠ [] := fun he => h.ne_empty (String.toList_eq_nil_iff.mp he)
  have hlist : text.toList = Nat.toDigits 10 n := by
    by_cases hhead : text.toList.head? = some '0'
    · obtain ⟨rest, hrest⟩ := List.head?_eq_some_iff.mp hhead
      obtain rfl := hzero rest hrest
      rw [← h.value, hrest]
      rfl
    · have hdigits := toDigits_ofDigitChars hne
        (fun c hc => isDigit_iff.mpr (h.digits c hc)) hhead
      rw [← h.value, hdigits.2]
  rw [← String.ofList_toList (s := text), hlist, Nat.toString_eq_ofList_toDigits]

namespace Command

/-! ### Commands -/

/-- **A command that can be read is spelled by its words.** -/
theorem Written.spells {c : Command} (h : c.Written) : Spells c.words c := by
  cases c with
  | push segment index => exact .push segment (numberWord_toString h)
  | pop segment index => exact .pop h.1 (numberWord_toString h.2)
  | operate op => exact .operate op
  | label name => exact .label (symbolWord_iff.mpr h)
  | goto name => exact .goto (symbolWord_iff.mpr h)
  | ifGoto name => exact .ifGoto (symbolWord_iff.mpr h)
  | function name count => exact .function (symbolWord_iff.mpr h.1) (numberWord_toString h.2)
  | call name count => exact .call (symbolWord_iff.mpr h.1) (numberWord_toString h.2)
  | ret => exact .ret

/-- A line that puts one blank between words is read as what the words spell. -/
theorem read_intercalate_eq_ok_iff {texts : List String} {c : Command}
    (h : ∀ text ∈ texts, IsWord text) :
    read (" ".intercalate texts) = .ok c ↔ Spells texts c := by
  have htexts : (texts.map String.toList).map String.ofList = texts := by simp
  rw [read_eq_ok_iff, words_intercalate h, htexts]

/-- **A command that can be read is read back** from its written form. -/
theorem Written.read_render {c : Command} (h : c.Written) : read c.render = .ok c :=
  (read_intercalate_eq_ok_iff h.isWord).mpr h.spells

/-! ### Canonical lines -/

/-- **A canonical line**: one blank between its words, none around them, and no zero in front of a
number. -/
def Canonical (line : String) : Prop :=
  ∃ texts : List String, line = " ".intercalate texts ∧
    ∀ text ∈ texts, IsWord text ∧ NoZeroAhead text

/-- The keywords and the names of segments and operators start with no zero. -/
theorem Spells.eq_words {texts : List String} {c : Command} (h : Spells texts c)
    (hzero : ∀ text ∈ texts, NoZeroAhead text) : texts = c.words := by
  cases h with
  | operate op => rfl
  | ret => rfl
  | push segment hnumber | pop hsegment hnumber | function hname hnumber | call hname hnumber =>
    rw [words, ← hnumber.eq_toString (hzero _ (by simp))]
  | label hname | goto hname | ifGoto hname => rfl

/-- **A canonical line is the written form** of the command that it is read as. -/
theorem Canonical.eq_render {line : String} {c : Command} (h : Canonical line)
    (hread : read line = .ok c) : line = c.render := by
  obtain ⟨texts, rfl, htexts⟩ := h
  have hspells := (read_intercalate_eq_ok_iff fun text htext => (htexts text htext).1).mp hread
  rw [render, hspells.eq_words fun text htext => (htexts text htext).2]

/-- The words of a command that can be read have no zero in front. -/
theorem Written.noZeroAhead {c : Command} (h : c.Written) : ∀ text ∈ c.words, NoZeroAhead text := by
  have hkeyword : ∀ word ∈ ["push", "pop", "label", "goto", "if-goto", "function", "call",
      "return"], NoZeroAhead word := by
    have hhead : ∀ word ∈ ["push", "pop", "label", "goto", "if-goto", "function", "call",
        "return"], word.toList.head? ≠ some '0' := by decide
    exact fun word hword => noZeroAhead_of_head?_ne (hhead word hword)
  cases c with
  | push segment index | pop segment index =>
    simp only [words, List.forall_mem_cons]
    exact ⟨hkeyword _ (by simp), segment.noZeroAhead_name, noZeroAhead_toString index, by simp⟩
  | operate op => simpa [words] using op.noZeroAhead_name
  | label name | goto name | ifGoto name =>
    simp only [words, List.forall_mem_cons]
    exact ⟨hkeyword _ (by simp), IsName.noZeroAhead h, by simp⟩
  | function name count | call name count =>
    simp only [words, List.forall_mem_cons]
    exact ⟨hkeyword _ (by simp), h.1.noZeroAhead, noZeroAhead_toString count, by simp⟩
  | ret => simpa [words] using hkeyword "return" (by simp)

/-- **The written form is canonical.** -/
theorem Written.canonical {c : Command} (h : c.Written) : Canonical c.render :=
  ⟨c.words, rfl, fun text htext => ⟨h.isWord text htext, h.noZeroAhead text htext⟩⟩

/-- **The reader follows the grammar, and writing inverts it**: a line is read as a command exactly
if its words spell the command, the command is read back from its written form, and that is the
only canonical line for it. -/
theorem read_grammar {line : String} {c : Command} :
    (read line = .ok c ↔ Spells ((Text.words line.toList).map String.ofList) c) ∧
    (read line = .ok c →
      read c.render = .ok c ∧ Canonical c.render ∧ (Canonical line → line = c.render)) := by
  refine ⟨read_eq_ok_iff, fun h => ?_⟩
  have hwritten := written_of_read h
  exact ⟨hwritten.read_render, hwritten.canonical, fun hcanonical => hcanonical.eq_render h⟩

/-- A line with needless blanks and zeros, which is not how the command is written. -/
theorem read_grammar_padded :
    read " push  constant 007" = .ok (.push .constant 7) ∧
      read (push .constant 7).render = .ok (.push .constant 7) ∧
      ¬Canonical " push  constant 007" := by
  have hread : read " push  constant 007" = .ok (.push .constant 7) := by decide
  obtain ⟨hback, -, hunique⟩ := read_grammar.2 hread
  exact ⟨hread, hback, fun hcanonical => absurd (hunique hcanonical) (by decide)⟩

end Command

end HackStack
