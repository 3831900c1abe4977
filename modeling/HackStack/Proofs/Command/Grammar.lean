import HackStack.Command.Reader
import HackStack.Proofs.Symbol
import HackStack.Step

/-!
# The grammar of commands

What a reader accepts is said here once more, without a reader: a *symbol* is a run of letters,
digits and four marks that starts with no digit (`HackStack.SymbolWord`), a *number* is a run of
digits with a small value (`HackStack.NumberWord`), and `HackStack.Command.Spells` lists the
sequences of words that spell each command.

The reader follows the grammar. Every function that reads a part of a command has one lemma here,
which says when it succeeds and with what; together they give
`HackStack.Command.ofWords_eq_ok_iff`: words are read as a command exactly if they spell it.
-/

namespace HackStack

/-! ### Words -/

/-- **A symbol**: letters, digits and four marks, at least one of them, and no digit first. -/
structure SymbolWord (text : String) : Prop where
  ne_empty : text ≠ ""
  chars : ∀ c ∈ text.toList, ('A' ≤ c ∧ c ≤ 'Z') ∨ ('a' ≤ c ∧ c ≤ 'z') ∨ ('0' ≤ c ∧ c ≤ '9') ∨
    c ∈ ['_', '.', ':', '$']
  first : ∀ c, text.toList.head? = some c → ¬('0' ≤ c ∧ c ≤ '9')

/-- **A number**: digits, at least one of them, whose value fits in a word. Zeros in front do not
matter. -/
structure NumberWord (text : String) (n : Nat) : Prop where
  ne_empty : text ≠ ""
  digits : ∀ c ∈ text.toList, '0' ≤ c ∧ c ≤ '9'
  value : Nat.ofDigitChars 10 text.toList 0 = n
  le : n ≤ 65535

/-- The digits as a range. -/
theorem isDigit_iff {c : Char} : c.isDigit = true ↔ '0' ≤ c ∧ c ≤ '9' :=
  Bool.and_eq_true_iff.trans (and_congr decide_eq_true_iff decide_eq_true_iff)

/-- The characters of symbols as ranges. -/
theorem isSymbolChar_iff {c : Char} :
    isSymbolChar c = true ↔ ('A' ≤ c ∧ c ≤ 'Z') ∨ ('a' ≤ c ∧ c ≤ 'z') ∨ ('0' ≤ c ∧ c ≤ '9') ∨
      c ∈ ['_', '.', ':', '$'] := by
  have hupper : c.isUpper = true ↔ 'A' ≤ c ∧ c ≤ 'Z' := decide_eq_true_iff
  have hlower : c.isLower = true ↔ 'a' ≤ c ∧ c ≤ 'z' :=
    Bool.and_eq_true_iff.trans (and_congr decide_eq_true_iff decide_eq_true_iff)
  have halphanum : c.isAlphanum = (c.isUpper || c.isLower || c.isDigit) := rfl
  simp only [isSymbolChar, halphanum, Bool.or_eq_true, decide_eq_true_eq, hupper, hlower,
    isDigit_iff, List.mem_cons, List.not_mem_nil, or_false, or_assoc]

/-- **A name is a symbol.** -/
theorem symbolWord_iff {text : String} : SymbolWord text ↔ IsName text := by
  have hfirst : (∀ c, text.toList.head? = some c → ¬('0' ≤ c ∧ c ≤ '9')) ↔
      (!text.toList.head?.any Char.isDigit) = true := by
    cases text.toList.head? with
    | none => simp
    | some c => simp [← isDigit_iff]
  constructor
  · rintro ⟨hne, hchars, hdigit⟩
    refine ⟨?_, hne⟩
    rw [isSymbol, Bool.and_eq_true, List.all_eq_true]
    exact ⟨fun c hc => isSymbolChar_iff.mpr (hchars c hc), hfirst.mp hdigit⟩
  · rintro ⟨hsymbol, hne⟩
    rw [isSymbol, Bool.and_eq_true, List.all_eq_true] at hsymbol
    exact ⟨hne, fun c hc => isSymbolChar_iff.mp (hsymbol.1 c hc), hfirst.mpr hsymbol.2⟩

/-- The name of a segment is found in the table exactly if it is the segment's. -/
theorem Segment.ofName?_eq_some_iff {text : String} {segment : Segment} :
    ofName? text = some segment ↔ text = segment.name := by
  constructor
  · intro h
    have hname := List.find?_some h
    exact (of_decide_eq_true hname).symm
  · rintro rfl
    exact ofName?_name segment

/-- The name of an operator is found in the table exactly if it is the operator's. -/
theorem Operator.ofName?_eq_some_iff {text : String} {op : Operator} :
    ofName? text = some op ↔ text = op.name := by
  constructor
  · intro h
    have hname := List.find?_some h
    exact (of_decide_eq_true hname).symm
  · rintro rfl
    exact ofName?_name op

namespace Command

/-- **The words spell the command.** -/
inductive Spells : List String → Command → Prop
  | operate (op : Operator) : Spells [op.name] (.operate op)
  | ret : Spells ["return"] .ret
  | push (segment : Segment) {number : String} {index : Nat} (hnumber : NumberWord number index) :
      Spells ["push", segment.name, number] (.push segment index)
  | pop {segment : Segment} {number : String} {index : Nat} (hsegment : segment ≠ .constant)
      (hnumber : NumberWord number index) :
      Spells ["pop", segment.name, number] (.pop segment index)
  | label {name : String} (hname : SymbolWord name) : Spells ["label", name] (.label name)
  | goto {name : String} (hname : SymbolWord name) : Spells ["goto", name] (.goto name)
  | ifGoto {name : String} (hname : SymbolWord name) : Spells ["if-goto", name] (.ifGoto name)
  | function {name number : String} {count : Nat} (hname : SymbolWord name)
      (hnumber : NumberWord number count) :
      Spells ["function", name, number] (.function name count)
  | call {name number : String} {count : Nat} (hname : SymbolWord name)
      (hnumber : NumberWord number count) : Spells ["call", name, number] (.call name count)

/-! ### Arguments -/

variable {command text : String} {arguments : List String} {c : Command}

theorem readSymbol_eq_ok_iff {name : String} (hne : text ≠ "") :
    readSymbol command text = .ok name ↔ SymbolWord text ∧ text = name := by
  rw [readSymbol, symbolWord_iff]
  by_cases h : isSymbol text.toList = true
  · rw [if_pos h, Except.ok.injEq]
    exact ⟨fun heq => ⟨⟨h, hne⟩, heq⟩, fun heq => heq.2⟩
  · rw [if_neg h]
    constructor
    · intro heq
      cases heq
    · intro heq
      exact absurd heq.1.1 h

theorem readNumber_eq_ok_iff {n : Nat} (hne : text ≠ "") :
    readNumber command text = .ok n ↔ NumberWord text n := by
  have hdigits : text.toList.all Char.isDigit = true ↔ ∀ c ∈ text.toList, '0' ≤ c ∧ c ≤ '9' := by
    simp only [List.all_eq_true, isDigit_iff]
  rw [readNumber, Text.decimal?_eq]
  constructor
  · intro h
    split at h
    next hall =>
      by_cases hle : Nat.ofDigitChars 10 text.toList 0 ≤ maxNumber
      · rw [if_pos hle] at h
        obtain rfl := Except.ok.inj h
        exact ⟨hne, hdigits.mp hall, rfl, hle⟩
      · rw [if_neg hle] at h
        cases h
    next => cases h
  · intro h
    have hle : Nat.ofDigitChars 10 text.toList 0 ≤ maxNumber := h.value ▸ h.le
    rw [if_pos (hdigits.mpr h.digits), if_pos hle, h.value]

theorem readSegment_eq_ok_iff {segment : Segment} :
    readSegment text = .ok segment ↔ text = segment.name := by
  rw [← Segment.ofName?_eq_some_iff, readSegment]
  cases Segment.ofName? text with
  | none => simp
  | some found => simp

theorem popInto_eq_ok_iff {segment : Segment} {index : Nat} :
    popInto segment index = .ok c ↔ segment ≠ .constant ∧ c = .pop segment index := by
  rw [popInto]
  split <;> simp [*, eq_comm]

/-! ### Argument lists -/

theorem readNone_eq_ok_iff {result : Command} :
    readNone command result arguments = .ok c ↔ arguments = [] ∧ c = result := by
  cases arguments with
  | nil => simp [readNone, eq_comm]
  | cons _ _ => simp [readNone]

theorem readOne_eq_ok_iff {result : String → Command} (hne : "" ∉ arguments) :
    readOne command result arguments = .ok c ↔
      ∃ name, arguments = [name] ∧ SymbolWord name ∧ c = result name := by
  match arguments with
  | [text] =>
    have htext : text ≠ "" := fun h => hne (h ▸ List.mem_cons_self)
    simp only [readOne, bind_eq_ok_iff, readSymbol_eq_ok_iff htext]
    constructor
    · rintro ⟨_, ⟨hname, rfl⟩, hc⟩
      exact ⟨text, rfl, hname, (Except.ok.inj hc).symm⟩
    · rintro ⟨name, heq, hname, rfl⟩
      obtain rfl := List.singleton_inj.mp heq
      exact ⟨text, ⟨hname, rfl⟩, rfl⟩
  | [] => simp [readOne]
  | _ :: _ :: _ => simp [readOne]

theorem readTwo_eq_ok_iff {result : String → Nat → Command} (hne : "" ∉ arguments) :
    readTwo command result arguments = .ok c ↔
      ∃ name number count, arguments = [name, number] ∧ SymbolWord name ∧
        NumberWord number count ∧ c = result name count := by
  match arguments with
  | [name, number] =>
    have hname : name ≠ "" := fun h => hne (h ▸ List.mem_cons_self)
    have hnumber : number ≠ "" := fun h => hne (h ▸ List.mem_cons_of_mem _ List.mem_cons_self)
    simp only [readTwo, bind_eq_ok_iff, readSymbol_eq_ok_iff hname, readNumber_eq_ok_iff hnumber]
    constructor
    · rintro ⟨_, ⟨hsymbol, rfl⟩, count, hcount, hc⟩
      exact ⟨name, number, count, rfl, hsymbol, hcount, (Except.ok.inj hc).symm⟩
    · rintro ⟨name', number', count, heq, hsymbol, hcount, rfl⟩
      obtain ⟨rfl, rfl⟩ : name = name' ∧ number = number' := by simpa using heq
      exact ⟨name, ⟨hsymbol, rfl⟩, count, hcount, rfl⟩
  | [] => simp [readTwo]
  | [_] => simp [readTwo]
  | _ :: _ :: _ :: _ => simp [readTwo]

theorem readAccess_eq_ok_iff {result : Segment → Nat → Except Fault Command}
    (hne : "" ∉ arguments) :
    readAccess command result arguments = .ok c ↔
      ∃ segment number index, arguments = [segment.name, number] ∧ NumberWord number index ∧
        result segment index = .ok c := by
  match arguments with
  | [name, number] =>
    have hnumber : number ≠ "" := fun h => hne (h ▸ List.mem_cons_of_mem _ List.mem_cons_self)
    simp only [readAccess, bind_eq_ok_iff, readSegment_eq_ok_iff, readNumber_eq_ok_iff hnumber]
    constructor
    · rintro ⟨segment, rfl, index, hindex, hc⟩
      exact ⟨segment, number, index, rfl, hindex, hc⟩
    · rintro ⟨segment, number', index, heq, hindex, hc⟩
      obtain ⟨rfl, rfl⟩ : name = segment.name ∧ number = number' := by simpa using heq
      exact ⟨segment, rfl, index, hindex, hc⟩
  | [] => simp [readAccess]
  | [_] => simp [readAccess]
  | _ :: _ :: _ :: _ => simp [readAccess]

/-! ### Commands -/

/-- No command but an operator is written like one. -/
theorem ofName?_keyword : ∀ word ∈ ["push", "pop", "label", "goto", "if-goto", "function", "call",
    "return"], Operator.ofName? word = none := by
  decide

/-- Words that are read spell what they are read as. -/
theorem spells_of_ofWords {words : List String} (hne : "" ∉ words) (h : ofWords words = .ok c) :
    Spells words c := by
  cases words with
  | nil => cases h
  | cons word arguments =>
    have harguments : "" ∉ arguments := fun hmem => hne (List.mem_cons_of_mem _ hmem)
    rw [ofWords] at h
    unfold ofName at h
    split at h
    next op hop =>
      obtain ⟨rfl, rfl⟩ := readNone_eq_ok_iff.mp h
      rw [Operator.ofName?_eq_some_iff.mp hop]
      exact .operate op
    next =>
      split at h
      · obtain ⟨segment, number, index, rfl, hnumber, hc⟩ :=
          (readAccess_eq_ok_iff harguments).mp h
        obtain rfl := Except.ok.inj hc
        exact .push segment hnumber
      · obtain ⟨segment, number, index, rfl, hnumber, hc⟩ :=
          (readAccess_eq_ok_iff harguments).mp h
        obtain ⟨hsegment, rfl⟩ := popInto_eq_ok_iff.mp hc
        exact .pop hsegment hnumber
      · obtain ⟨name, rfl, hname, rfl⟩ := (readOne_eq_ok_iff harguments).mp h
        exact .label hname
      · obtain ⟨name, rfl, hname, rfl⟩ := (readOne_eq_ok_iff harguments).mp h
        exact .goto hname
      · obtain ⟨name, rfl, hname, rfl⟩ := (readOne_eq_ok_iff harguments).mp h
        exact .ifGoto hname
      · obtain ⟨name, number, count, rfl, hname, hnumber, rfl⟩ :=
          (readTwo_eq_ok_iff harguments).mp h
        exact .function hname hnumber
      · obtain ⟨name, number, count, rfl, hname, hnumber, rfl⟩ :=
          (readTwo_eq_ok_iff harguments).mp h
        exact .call hname hnumber
      · obtain ⟨rfl, rfl⟩ := readNone_eq_ok_iff.mp h
        exact .ret
      · cases h

/-- Words that spell a command are read as it. -/
theorem Spells.ofWords_eq {words : List String} (hne : "" ∉ words) (h : Spells words c) :
    ofWords words = .ok c := by
  have harguments : ∀ {word : String} {arguments : List String}, words = word :: arguments →
      "" ∉ arguments :=
    fun hwords hmem => hne (hwords ▸ List.mem_cons_of_mem _ hmem)
  cases h with
  | operate op =>
    rw [ofWords]
    unfold ofName
    rw [Operator.ofName?_name]
    rfl
  | ret => rfl
  | @push segment number index hnumber =>
    rw [ofWords, ofName, ofName?_keyword _ (by simp)]
    exact (readAccess_eq_ok_iff (harguments rfl)).mpr
      ⟨segment, number, index, rfl, hnumber, rfl⟩
  | @pop segment number index hsegment hnumber =>
    rw [ofWords, ofName, ofName?_keyword _ (by simp)]
    exact (readAccess_eq_ok_iff (harguments rfl)).mpr
      ⟨segment, number, index, rfl, hnumber, popInto_eq_ok_iff.mpr ⟨hsegment, rfl⟩⟩
  | @label name hname | @goto name hname | @ifGoto name hname =>
    rw [ofWords, ofName, ofName?_keyword _ (by simp)]
    exact (readOne_eq_ok_iff (harguments rfl)).mpr ⟨name, rfl, hname, rfl⟩
  | @function name number count hname hnumber | @call name number count hname hnumber =>
    rw [ofWords, ofName, ofName?_keyword _ (by simp)]
    exact (readTwo_eq_ok_iff (harguments rfl)).mpr
      ⟨name, number, count, rfl, hname, hnumber, rfl⟩

/-- **The reader follows the grammar**: words are read as a command exactly if they spell it. -/
theorem ofWords_eq_ok_iff {words : List String} (hne : "" ∉ words) :
    ofWords words = .ok c ↔ Spells words c :=
  ⟨spells_of_ofWords hne, Spells.ofWords_eq hne⟩

/-- **A line is read as a command** exactly if its words spell the command. -/
theorem read_eq_ok_iff {line : String} :
    read line = .ok c ↔ Spells ((Text.words line.toList).map String.ofList) c := by
  refine ofWords_eq_ok_iff fun hempty => ?_
  obtain ⟨word, hword, heq⟩ := List.mem_map.mp hempty
  have hnil : word = [] := by simpa using heq
  exact Text.ne_nil_of_mem_words hword hnil

end Command

end HackStack
