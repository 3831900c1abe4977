import HackStack.Proofs.Assembly.RoundTrip
import HackStack.Proofs.Command.Grammar

/-!
# Commands that were read

A command that was read from a line is not just any command: its names are names, its numbers fit in
a word, and it does not pop into a constant. `HackStack.Command.Written` collects this, and
`HackStack.Command.written_of_read` is all that the other files know about reading.

The written form of such a command can stand in a comment (`HackStack.Command.Written.plain_note`).
-/

namespace HackStack

open Text Assembly

namespace Command

/-- **What a line can be read to.** -/
def Written : Command → Prop
  | push _ index => index ≤ maxNumber
  | pop segment index => segment ≠ .constant ∧ index ≤ maxNumber
  | operate _ | ret => True
  | label name | goto name | ifGoto name => IsName name
  | function name count | call name count => IsName name ∧ count ≤ maxNumber

/-- **What is spelled can be read.** -/
theorem Spells.written {words : List String} {c : Command} (h : Spells words c) : c.Written := by
  cases h with
  | operate op => trivial
  | ret => trivial
  | push segment hnumber => exact hnumber.le
  | pop hsegment hnumber => exact ⟨hsegment, hnumber.le⟩
  | label hname | goto hname | ifGoto hname => exact symbolWord_iff.mp hname
  | function hname hnumber | call hname hnumber => exact ⟨symbolWord_iff.mp hname, hnumber.le⟩

/-- **A command that was read** is one that can be. -/
theorem written_of_read {line : String} {c : Command} (h : read line = .ok c) : c.Written :=
  (read_eq_ok_iff.mp h).written

/-! ### Errors -/

/-- **A fault in the form of a line.** -/
def FormFault (why : Fault) : Prop :=
  (∃ what, why = .malformed what) ∨ ∃ name, why = .unknownSegment name

variable {command : String} {arguments : List String}

theorem formFault_of_readNone {result : Command} {why : Fault}
    (h : readNone command result arguments = .error why) : FormFault why := by
  cases arguments with
  | nil => exact absurd h (by simp [readNone])
  | cons _ _ => exact Or.inl ⟨_, (Except.error.inj h).symm⟩

theorem formFault_of_readSymbol {text : String} {why : Fault}
    (h : readSymbol command text = .error why) : FormFault why := by
  rw [readSymbol] at h
  split at h
  · exact absurd h (by simp)
  · exact Or.inl ⟨_, (Except.error.inj h).symm⟩

theorem formFault_of_readNumber {text : String} {why : Fault}
    (h : readNumber command text = .error why) : FormFault why := by
  rw [readNumber] at h
  split at h
  · split at h
    · exact absurd h (by simp)
    · exact Or.inl ⟨_, (Except.error.inj h).symm⟩
  · exact Or.inl ⟨_, (Except.error.inj h).symm⟩

theorem formFault_of_readSegment {text : String} {why : Fault}
    (h : readSegment text = .error why) : FormFault why := by
  rw [readSegment] at h
  split at h
  · exact absurd h (by simp)
  · exact Or.inr ⟨_, (Except.error.inj h).symm⟩

theorem formFault_of_readOne {result : String → Command} {why : Fault}
    (h : readOne command result arguments = .error why) : FormFault why := by
  match arguments with
  | [text] =>
    cases hname : readSymbol command text with
    | ok name =>
      rw [readOne, hname] at h
      exact absurd h (by simp [bind, Except.bind, pure, Except.pure])
    | error why' =>
      rw [readOne, hname] at h
      obtain rfl := Except.error.inj h
      exact formFault_of_readSymbol hname
  | [] => exact Or.inl ⟨_, (Except.error.inj h).symm⟩
  | _ :: _ :: _ => exact Or.inl ⟨_, (Except.error.inj h).symm⟩

theorem formFault_of_readTwo {result : String → Nat → Command} {why : Fault}
    (h : readTwo command result arguments = .error why) : FormFault why := by
  match arguments with
  | [text, number] =>
    cases hname : readSymbol command text with
    | ok name =>
      cases hcount : readNumber command number with
      | ok count =>
        rw [readTwo, hname, hcount] at h
        exact absurd h (by simp [bind, Except.bind, pure, Except.pure])
      | error why' =>
        rw [readTwo, hname, hcount] at h
        obtain rfl := Except.error.inj h
        exact formFault_of_readNumber hcount
    | error why' =>
      rw [readTwo, hname] at h
      obtain rfl := Except.error.inj h
      exact formFault_of_readSymbol hname
  | [] => exact Or.inl ⟨_, (Except.error.inj h).symm⟩
  | [_] => exact Or.inl ⟨_, (Except.error.inj h).symm⟩
  | _ :: _ :: _ :: _ => exact Or.inl ⟨_, (Except.error.inj h).symm⟩

theorem formFault_of_readAccess {result : Segment → Nat → Except Fault Command} {why : Fault}
    (hresult : ∀ segment index, result segment index = .error why → FormFault why)
    (h : readAccess command result arguments = .error why) : FormFault why := by
  match arguments with
  | [name, number] =>
    cases hsegment : readSegment name with
    | ok segment =>
      cases hindex : readNumber command number with
      | ok index =>
        rw [readAccess, hsegment, hindex] at h
        exact hresult segment index h
      | error why' =>
        rw [readAccess, hsegment, hindex] at h
        obtain rfl := Except.error.inj h
        exact formFault_of_readNumber hindex
    | error why' =>
      rw [readAccess, hsegment] at h
      obtain rfl := Except.error.inj h
      exact formFault_of_readSegment hsegment
  | [] => exact Or.inl ⟨_, (Except.error.inj h).symm⟩
  | [_] => exact Or.inl ⟨_, (Except.error.inj h).symm⟩
  | _ :: _ :: _ :: _ => exact Or.inl ⟨_, (Except.error.inj h).symm⟩

/-- **A line that cannot be read** has a fault in its form. -/
theorem formFault_of_read {line : String} {why : Fault} (h : read line = .error why) :
    FormFault why := by
  rw [read] at h
  cases hwords : (Text.words line.toList).map String.ofList with
  | nil =>
    rw [hwords] at h
    exact Or.inl ⟨_, (Except.error.inj h).symm⟩
  | cons word arguments =>
    rw [hwords, ofWords] at h
    unfold ofName at h
    split at h
    · exact formFault_of_readNone h
    · split at h
      · exact formFault_of_readAccess (fun _ _ hc => absurd hc (by simp)) h
      · refine formFault_of_readAccess (fun segment index hc => ?_) h
        rw [popInto] at hc
        split at hc
        · exact Or.inl ⟨_, (Except.error.inj hc).symm⟩
        · exact absurd hc (by simp)
      · exact formFault_of_readOne h
      · exact formFault_of_readOne h
      · exact formFault_of_readOne h
      · exact formFault_of_readTwo h
      · exact formFault_of_readTwo h
      · exact formFault_of_readNone h
      · exact Or.inl ⟨_, (Except.error.inj h).symm⟩

end Command

/-! ### Written forms -/

/-- A text with at least one character, and no blank among them. -/
def IsWord (text : String) : Prop := text ≠ "" ∧ ∀ c ∈ text.toList, isBlank c = false

instance : DecidablePred IsWord := fun text =>
  decidable_of_iff (text ≠ "" ∧ text.toList.all (!isBlank ·) = true) (by simp [IsWord])

/-- A name is a word. -/
theorem IsName.isWord {name : String} (h : IsName name) : IsWord name :=
  ⟨h.2, fun _ hc => isBlank_of_isSymbolChar (h.isSymbolChar hc)⟩

/-- A number is a word. -/
theorem isWord_toString (n : Nat) : IsWord (toString n) := by
  refine ⟨fun h => ?_, fun c hc => isBlank_of_isSymbolChar (isSymbolChar_of_mem_toString hc)⟩
  have hlist : (toString n).toList = [] := String.toList_eq_nil_iff.mpr h
  rw [Nat.toString_eq_repr, Nat.toList_repr] at hlist
  exact Nat.toDigits_ne_nil hlist

/-- **Words with blanks between them** make a trimmed text on one line. -/
theorem trimmed_intercalate {texts : List String} (h : ∀ text ∈ texts, IsWord text)
    (hne : texts ≠ []) :
    Trimmed (" ".intercalate texts).toList ∧ '\n' ∉ (" ".intercalate texts).toList ∧
      " ".intercalate texts ≠ "" := by
  induction texts with
  | nil => exact absurd rfl hne
  | cons text rest ih =>
    obtain ⟨htext, hrest⟩ := List.forall_mem_cons.mp h
    have hlist : text.toList ≠ [] := fun he => htext.1 (String.toList_eq_nil_iff.mp he)
    by_cases hend : rest = []
    · subst hend
      rw [String.intercalate_singleton]
      exact ⟨trimmed_of_forall htext.2, newline_not_mem htext.2, htext.1⟩
    obtain ⟨htrim, hline, hfull⟩ := ih hrest hend
    have hfull' : (" ".intercalate rest).toList ≠ [] :=
      fun he => hfull (String.toList_eq_nil_iff.mp he)
    -- The text starts like the first word and ends like the rest.
    rw [String.intercalate_cons_of_ne_nil hend]
    refine ⟨⟨fun c hc => ?_, fun c hc => ?_⟩, fun hc => ?_, fun he => ?_⟩
    · rw [String.toList_append, String.toList_append, List.append_assoc, List.head?_append,
        List.head?_eq_some_head hlist, Option.some_or, ← List.head?_eq_some_head hlist] at hc
      exact htext.2 c (List.mem_of_mem_head? hc)
    · rw [String.toList_append, List.getLast?_append, List.getLast?_eq_some_getLast hfull',
        Option.some_or, ← List.getLast?_eq_some_getLast hfull'] at hc
      exact htrim.2 c hc
    · rw [String.toList_append, String.toList_append, List.mem_append, List.mem_append] at hc
      rcases hc with (hc | hc) | hc
      · exact newline_not_mem htext.2 hc
      · exact absurd hc (by decide)
      · exact hline hc
    · have hnil := String.toList_eq_nil_iff.mpr he
      rw [String.toList_append, List.append_eq_nil_iff] at hnil
      exact hfull' hnil.2

/-- The name of a segment is a word. -/
theorem Segment.isWord_name (segment : Segment) : IsWord segment.name := by
  rcases segment with _ | (_ | _ | _ | _) | _ | _ | _ <;> decide

/-- The name of an operator is a word. -/
theorem Operator.isWord_name (op : Operator) : IsWord op.name := by
  rcases op with op | op | op <;> cases op <;> decide

namespace Command

theorem words_ne_nil (c : Command) : c.words ≠ [] := by
  cases c <;> exact List.cons_ne_nil _ _

/-- A command that can be read is written with words. -/
theorem Written.isWord {c : Command} (h : c.Written) : ∀ word ∈ c.words, IsWord word := by
  have hkeyword : ∀ word ∈ ["push", "pop", "label", "goto", "if-goto", "function", "call",
      "return"], IsWord word := by decide
  cases c with
  | push segment index =>
    simp only [words, List.forall_mem_cons]
    exact ⟨hkeyword _ (by simp), segment.isWord_name, isWord_toString index, by simp⟩
  | pop segment index =>
    simp only [words, List.forall_mem_cons]
    exact ⟨hkeyword _ (by simp), segment.isWord_name, isWord_toString index, by simp⟩
  | operate op => simpa [words] using op.isWord_name
  | label name | goto name | ifGoto name =>
    simp only [words, List.forall_mem_cons]
    exact ⟨hkeyword _ (by simp), IsName.isWord h, by simp⟩
  | function name count | call name count =>
    simp only [words, List.forall_mem_cons]
    exact ⟨hkeyword _ (by simp), h.1.isWord, isWord_toString count, by simp⟩
  | ret => simpa [words] using hkeyword "return" (by simp)

/-- **A command that can be read** can stand in a comment. -/
theorem Written.plain_note {c : Command} (h : c.Written) : (Statement.comment c.render).Plain :=
  trimmed_intercalate h.isWord c.words_ne_nil

end Command

end HackStack
