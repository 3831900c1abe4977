/-!
# Blanks, trimming and words

Sources are read by the Unicode property `White_Space`: it decides where a line is trimmed and
where one word ends. This file holds the property as a table of ranges, and the two operations
that depend on it:

* `HackStack.Text.trim` – a text without the blanks at its two ends;
* `HackStack.Text.words` – the maximal runs of characters that are not blank, in order.

A word is never empty (`HackStack.Text.ne_nil_of_mem_words`).
-/

namespace HackStack.Text

/-- The code points with the property `White_Space`, as ranges with both ends included. -/
def blankRanges : List (Nat × Nat) :=
  [(0x09, 0x0D), (0x20, 0x20), (0x85, 0x85), (0xA0, 0xA0), (0x1680, 0x1680), (0x2000, 0x200A),
   (0x2028, 0x2029), (0x202F, 0x202F), (0x205F, 0x205F), (0x3000, 0x3000)]

/-- A blank is a character whose code point lies in one of `blankRanges`. -/
def isBlank (c : Char) : Bool :=
  blankRanges.any fun range => range.1 ≤ c.toNat && c.toNat ≤ range.2

/-! ### Trimming -/

/-- The text without the blanks it starts with. -/
def trimStart (text : List Char) : List Char := text.dropWhile isBlank

/-- The text without the blanks it ends with. -/
def trimEnd (text : List Char) : List Char := (text.reverse.dropWhile isBlank).reverse

/-- The text without the blanks at its two ends. -/
def trim (text : List Char) : List Char := trimEnd (trimStart text)

/-! ### Words -/

/-- The words of a text: what lies between blanks, empty stretches left out. -/
def words (text : List Char) : List (List Char) :=
  (text.splitOnP isBlank).filter (!·.isEmpty)

/-- A word is never empty. -/
theorem ne_nil_of_mem_words {text word : List Char} (h : word ∈ words text) : word ≠ [] := by
  have := (List.mem_filter.mp h).2
  rintro rfl
  simp at this

end HackStack.Text
