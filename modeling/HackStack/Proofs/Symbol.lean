import HackStack.Command.Reader
import HackStack.Proofs.Text.Line

/-!
# Symbols and names

The characters of symbols are a few of the printable ones: none is a blank and none is a slash, so
a symbol can stand on a line of assembly without being trimmed or taken for a comment.

A *name* (`HackStack.IsName`) is a symbol with at least one character. Names are what labels and
variables are written with. They are built from shorter ones by putting a `$` or a dot between a
symbol, which may be empty here, and more symbol characters
(`HackStack.isName_append`).
-/

namespace HackStack

open Text

/-! ### Symbol characters -/

/-- The code points of the symbol characters. -/
theorem toNat_of_isSymbolChar {c : Char} (h : isSymbolChar c = true) :
    c.toNat = 36 ∨ c.toNat = 46 ∨ (48 ≤ c.toNat ∧ c.toNat ≤ 58) ∨ (65 ≤ c.toNat ∧ c.toNat ≤ 90) ∨
      c.toNat = 95 ∨ (97 ≤ c.toNat ∧ c.toNat ≤ 122) := by
  have hv : c.toNat = c.val.toNat := rfl
  delta isSymbolChar Char.isAlphanum Char.isAlpha Char.isUpper Char.isLower Char.isDigit at h
  simp only [Bool.or_eq_true, Bool.and_eq_true, decide_eq_true_eq, UInt32.le_iff_toNat_le,
    ge_iff_le] at h
  rcases h with ((((h | h) | h) | h) | h) | h
  · simp only [UInt32.reduceToNat, Char.reduceVal] at h
    omega
  · simp only [UInt32.reduceToNat, Char.reduceVal] at h
    omega
  all_goals subst h; decide

/-- A symbol character is not a blank. -/
theorem isBlank_of_isSymbolChar {c : Char} (h : isSymbolChar c = true) : isBlank c = false := by
  have hc := toNat_of_isSymbolChar h
  simp only [isBlank, blankRanges, List.any_cons, List.any_nil, Bool.or_false, Bool.or_eq_false_iff,
    Bool.and_eq_false_imp, decide_eq_true_eq, decide_eq_false_iff_not]
  omega

/-- A symbol character is not a slash. -/
theorem ne_slash_of_isSymbolChar {c : Char} (h : isSymbolChar c = true) : c ≠ '/' := by
  rintro rfl
  exact absurd h (by decide)

/-- A digit is a symbol character. -/
theorem isSymbolChar_of_isDigit {c : Char} (h : c.isDigit = true) : isSymbolChar c = true := by
  simp [isSymbolChar, Char.isAlphanum, h]

/-- The digits of a number are symbol characters. -/
theorem isSymbolChar_of_mem_toString {n : Nat} {c : Char} (h : c ∈ (toString n).toList) :
    isSymbolChar c = true := by
  rw [Nat.toString_eq_repr, Nat.toList_repr] at h
  exact isSymbolChar_of_isDigit (Nat.isDigit_of_mem_toDigits (by decide) (by decide) h)

/-! ### Symbols -/

/-- A symbol holds symbol characters only. -/
theorem isSymbolChar_of_mem {text : List Char} (h : isSymbol text = true) {c : Char}
    (hc : c ∈ text) : isSymbolChar c = true := by
  rw [isSymbol, Bool.and_eq_true, List.all_eq_true] at h
  exact h.1 c hc

/-- The part of a symbol before some character is a symbol. -/
theorem isSymbol_takeWhile {text : List Char} (p : Char → Bool) (h : isSymbol text = true) :
    isSymbol (text.takeWhile p) = true := by
  rw [isSymbol, Bool.and_eq_true, List.all_eq_true] at h ⊢
  refine ⟨fun c hc => h.1 c (List.takeWhile_subset p hc), ?_⟩
  cases text with
  | nil => rfl
  | cons c rest =>
    rw [List.takeWhile_cons]
    split
    · exact h.2
    · rfl

/-- A symbol can be continued by symbol characters that start with no digit. -/
theorem isSymbol_append {text rest : List Char} (h : isSymbol text = true)
    (hr : isSymbol rest = true) : isSymbol (text ++ rest) = true := by
  cases text with
  | nil => exact hr
  | cons c tail =>
    rw [isSymbol, Bool.and_eq_true, List.all_eq_true] at h hr ⊢
    refine ⟨fun d hd => ?_, h.2⟩
    rcases List.mem_append.mp hd with hd | hd
    · exact h.1 d hd
    · exact hr.1 d hd

/-! ### Names -/

/-- **A name**: a symbol with at least one character. -/
def IsName (name : String) : Prop := isSymbol name.toList = true ∧ name ≠ ""

/-- A name holds symbol characters only. -/
theorem IsName.isSymbolChar {name : String} (h : IsName name) {c : Char} (hc : c ∈ name.toList) :
    isSymbolChar c = true :=
  isSymbolChar_of_mem h.1 hc

/-- A name starts with a character that is not a digit. -/
theorem IsName.exists_cons {name : String} (h : IsName name) :
    ∃ c rest, name.toList = c :: rest ∧ c.isDigit = false := by
  obtain ⟨hs, hne⟩ := h
  cases hl : name.toList with
  | nil => exact absurd (String.toList_eq_nil_iff.mp hl) hne
  | cons c rest =>
    rw [hl, isSymbol, Bool.and_eq_true] at hs
    exact ⟨c, rest, rfl, by simpa using hs.2⟩

/-- **How names are built**: a symbol, which may be empty, a text that starts with a symbol
character other than a digit, and more symbol characters. -/
theorem isName_append {name middle rest : String} (h : isSymbol name.toList = true)
    (hm : IsName middle) (hr : ∀ c ∈ rest.toList, HackStack.isSymbolChar c = true) :
    IsName (name ++ middle ++ rest) := by
  obtain ⟨c, tail, hmiddle, hc⟩ := hm.exists_cons
  have hsymbol : isSymbol (middle.toList ++ rest.toList) = true := by
    rw [hmiddle, isSymbol, Bool.and_eq_true, List.all_eq_true]
    refine ⟨fun d hd => ?_, by simp [hc]⟩
    rcases List.mem_append.mp hd with hd | hd
    · exact hm.isSymbolChar (hmiddle ▸ hd)
    · exact hr d hd
  refine ⟨?_, fun hempty => hm.2 ?_⟩
  · rw [String.append_assoc, String.toList_append, String.toList_append]
    exact isSymbol_append h hsymbol
  · have := congrArg String.toList hempty
    simp only [String.toList_append, String.toList_empty, List.append_eq_nil_iff] at this
    exact String.toList_eq_nil_iff.mp this.1.2

end HackStack
