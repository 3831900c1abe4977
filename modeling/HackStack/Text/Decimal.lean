/-!
# Bounded decimal numbers

Numbers in a source are runs of decimal digits with an upper limit. `HackStack.Text.decimal?`
reads one digit by digit and gives up as soon as the limit is passed, so the size of what it
computes with is bounded by the limit and not by the length of the text. Its law is
`HackStack.Text.decimal?_eq`: it returns the value of the digits exactly when that value is within
the limit, leading zeros included.
-/

namespace HackStack.Text

/-- The value of a run of decimal digits, if it is at most `limit`. -/
def decimal? (limit : Nat) (digits : List Char) : Option Nat :=
  digits.foldlM
    (fun value digit =>
      let value := 10 * value + (digit.toNat - '0'.toNat)
      if value ≤ limit then some value else none) 0

/-- Reading on from a number within the limit. -/
theorem foldlM_decimal?_eq (limit : Nat) (digits : List Char) :
    ∀ start ≤ limit, digits.foldlM
      (fun value digit =>
        let value := 10 * value + (digit.toNat - '0'.toNat)
        if value ≤ limit then some value else none) start =
      if Nat.ofDigitChars 10 digits start ≤ limit then some (Nat.ofDigitChars 10 digits start)
      else none := by
  have grows : ∀ (ds : List Char) (start : Nat), start ≤ Nat.ofDigitChars 10 ds start := by
    intro ds
    induction ds with
    | nil => simp
    | cons d ds ih =>
      intro start
      rw [Nat.ofDigitChars_cons]
      exact Nat.le_trans (by omega) (ih _)
  induction digits with
  | nil => intro start h; simp [h]
  | cons d ds ih =>
    intro start _
    rw [List.foldlM_cons, Nat.ofDigitChars_cons]
    by_cases hd : 10 * start + (d.toNat - '0'.toNat) ≤ limit
    · simp only [hd, if_true]
      exact ih _ hd
    · have := grows ds (10 * start + (d.toNat - '0'.toNat))
      simp only [hd, if_false]
      rw [if_neg (by omega)]
      rfl

/-- **Reading a bounded decimal** gives the value of the digits, and gives it exactly when the
limit allows. -/
theorem decimal?_eq (limit : Nat) (digits : List Char) :
    decimal? limit digits =
      if Nat.ofDigitChars 10 digits 0 ≤ limit then some (Nat.ofDigitChars 10 digits 0)
      else none :=
  foldlM_decimal?_eq limit digits 0 (Nat.zero_le _)

/-- **Every number within the limit is read back** from the digits it is written with. -/
theorem decimal?_toDigits {limit n : Nat} (h : n ≤ limit) :
    decimal? limit (Nat.toDigits 10 n) = some n := by
  rw [decimal?_eq, Nat.ofDigitChars_ten_toDigits, if_pos h]

end HackStack.Text
