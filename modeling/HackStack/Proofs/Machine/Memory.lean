import HackStack.Machine

/-!
# Reading and writing the memory

A word that is not negative addresses a cell (`HackStack.Word.Addresses`), and what is written to
the cell is read back from it and from no other.
-/

namespace HackStack

namespace Word

/-- The word with this number, which is what addresses the cell with this number. -/
abbrev ofNat (n : Nat) : Word := BitVec.ofNat 16 n

/-- Whether a word addresses a cell. -/
def Addresses (w : Word) : Prop := w.toNat < 32768

instance (w : Word) : Decidable w.Addresses := inferInstanceAs (Decidable (_ < _))

theorem cell?_eq_some {w : Word} (h : w.Addresses) : w.cell? = some ⟨w.toNat, h⟩ := dif_pos h

theorem cell?_eq_none {w : Word} (h : ¬w.Addresses) : w.cell? = none := dif_neg h

/-- A word addresses a cell exactly when it is not negative. -/
theorem not_addresses_iff {w : Word} : ¬w.Addresses ↔ w.toInt < 0 := by
  rw [← cell?_eq_none_iff, cell?]
  split
  next h => exact iff_of_false (fun hno => hno h) (by simp)
  next h => exact iff_of_true h rfl

theorem toNat_ofNat {n : Nat} (h : n < 65536) : (ofNat n).toNat = n := by
  rw [BitVec.toNat_ofNat]
  exact Nat.mod_eq_of_lt h

theorem addresses_ofNat {n : Nat} (h : n < 32768) : Addresses (ofNat n) := by
  rw [Addresses, toNat_ofNat (by omega)]
  exact h

/-- Different cells have different words. -/
theorem ofNat_ne {m n : Nat} (h : m < 65536 ∧ n < 65536 ∧ m ≠ n) : ofNat m ≠ ofNat n := by
  obtain ⟨hm, hn, hne⟩ := h
  intro he
  have hnat := congrArg BitVec.toNat he
  rw [toNat_ofNat hm, toNat_ofNat hn] at hnat
  exact hne hnat

/-- Every word is the word with its number. -/
theorem ofNat_toNat (w : Word) : ofNat w.toNat = w :=
  BitVec.eq_of_toNat_eq (toNat_ofNat w.isLt)

/-- The word below. -/
theorem ofNat_succ_sub_one (n : Nat) : ofNat (n + 1) - 1 = ofNat n := by bv_omega

end Word

namespace Memory

variable {memory : Memory} {w w' v : Word}

/-- **What was written is read back.** -/
theorem read_write_self (h : w.Addresses) : (memory.write w v).read w = v := by
  rw [read, write, Word.cell?_eq_some h]
  exact Vector.getElem_set_self ..

/-- The word in a cell. -/
theorem read_ofNat {n : Nat} (hn : n < 32768) : memory.read (Word.ofNat n) = memory[n] := by
  rw [read, Word.cell?_eq_some (Word.addresses_ofNat hn)]
  simp [Word.toNat_ofNat (show n < 65536 by omega)]

/-- **No other cell changes.** -/
theorem read_write_of_ne (h : w ≠ w') : (memory.write w v).read w' = memory.read w' := by
  by_cases hw : w.Addresses
  · by_cases hw' : w'.Addresses
    · rw [read, read, write, Word.cell?_eq_some hw, Word.cell?_eq_some hw']
      exact Vector.getElem_set_ne _ _ fun he => h (BitVec.eq_of_toNat_eq he)
    · rw [read, read, Word.cell?_eq_none hw']
  · rw [write, Word.cell?_eq_none hw]

end Memory

end HackStack
