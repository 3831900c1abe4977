/-!
# Words

The Hack machine computes with words of sixteen bits. Arithmetic wraps around, comparisons read a
word in two's complement, and a word addresses a memory cell when it is not negative.
-/

namespace HackStack

/-- A word of the machine. -/
abbrev Word := BitVec 16

namespace Word

/-- The memory cell that a word addresses: none when the word is negative. -/
def cell? (w : Word) : Option (Fin 32768) :=
  if h : w.toNat < 32768 then some ⟨w.toNat, h⟩ else none

/-- **A word addresses a cell exactly when it is not negative.** -/
theorem cell?_eq_none_iff (w : Word) : w.cell? = none ↔ w.toInt < 0 := by
  rw [cell?, BitVec.toInt_eq_toNat_cond]
  have := w.isLt
  split <;> simp <;> omega

end Word

end HackStack
