import HackStack.Text.Raw
import Mathlib.Data.String.Basic

/-!
# Raw texts and texts

The bytes of a text are decoded to it (`HackStack.RawText.text?_eq_some_iff`) and shown as it
(`HackStack.RawText.display_raw`). A byte below 128 stands for itself wherever it occurs: what is
shown holds none that was not there (`HackStack.RawText.mem_of_mem_display`), and a text can be cut
at such a byte into two texts (`HackStack.RawText.IsText.cut`).
-/

namespace HackStack

namespace Text

/-- The bytes of a text are those of its characters. -/
theorem raw_eq (text : String) : raw text = text.toList.flatMap String.utf8EncodeChar := by
  rw [raw, String.toUTF8, ← String.utf8Encode_toList, List.utf8Encode, List.toList_data_toByteArray]

theorem raw_ofList (chars : List Char) :
    raw (String.ofList chars) = chars.flatMap String.utf8EncodeChar := by
  rw [raw_eq, String.toList_ofList]

theorem raw_append (text other : String) : raw (text ++ other) = raw text ++ raw other := by
  rw [raw_eq, raw_eq, raw_eq, String.toList_append, List.flatMap_append]

theorem toByteArray_raw (text : String) : (raw text).toByteArray = text.toUTF8 := by
  apply ByteArray.ext
  rw [raw, List.data_toByteArray, Array.toArray_toList]

/-- **Texts with the same bytes** are the same. -/
theorem raw_inj {text other : String} : raw text = raw other ↔ text = other := by
  refine ⟨fun h => ?_, fun h => h ▸ rfl⟩
  rw [← String.toByteArray_inj, ← String.toUTF8, ← String.toUTF8, ← toByteArray_raw, h,
    toByteArray_raw]

end Text

namespace RawText

open Text

/-! ### Decoding -/

/-- **The text of some bytes** is the one that has them. -/
theorem text?_eq_some_iff {bytes : RawText} {text : String} :
    text? bytes = some text ↔ bytes = raw text := by
  rw [text?, String.fromUTF8?]
  constructor
  · intro h
    split at h
    next hvalid =>
      obtain rfl := Option.some.inj h
      change bytes = bytes.toByteArray.data.toList
      rw [List.toList_data_toByteArray]
    next => cases h
  · rintro rfl
    have hvalid : (raw text).toByteArray.IsValidUTF8 := toByteArray_raw text ▸ text.isValidUTF8
    rw [dif_pos hvalid, Option.some.injEq, ← String.toByteArray_inj]
    exact toByteArray_raw text

/-- **Bytes that are those of a text.** -/
def IsText (bytes : RawText) : Prop := ∃ text, bytes = raw text

theorem isText_raw (text : String) : IsText (raw text) := ⟨text, rfl⟩

theorem text?_ne_none_iff {bytes : RawText} : text? bytes ≠ none ↔ IsText bytes := by
  rw [Option.ne_none_iff_exists']
  exact exists_congr fun _ => text?_eq_some_iff

/-! ### Characters -/

/-- The bytes of a character are one below 128, or all of them are at least 128. -/
theorem utf8EncodeChar_eq_or (c : Char) :
    (∃ byte < 128, String.utf8EncodeChar c = [byte]) ∨
      ∀ byte ∈ String.utf8EncodeChar c, 128 ≤ byte := by
  have hval : c.val.toNat < 1114112 := by rcases c.valid with hvalid | hvalid <;> omega
  simp only [String.utf8EncodeChar, UInt8.lt_iff_toNat_lt, UInt8.le_iff_toNat_le]
  split_ifs
  · refine Or.inl ⟨_, ?_, rfl⟩
    simp only [UInt8.toNat_ofNat', UInt8.reduceToNat]
    omega
  all_goals
    refine Or.inr fun byte hbyte => ?_
    simp only [List.mem_cons, List.not_mem_nil, or_false] at hbyte
    rcases hbyte with rfl | rfl | rfl | rfl <;>
      simp only [UInt8.toNat_ofNat', UInt8.reduceToNat] <;> omega

/-- The bytes of a character begin with one, and at most three follow. -/
theorem exists_utf8EncodeChar_eq (c : Char) :
    ∃ first rest, String.utf8EncodeChar c = first :: rest ∧ rest.length = c.utf8Size - 1 ∧
      rest.length < 4 := by
  cases hbytes : String.utf8EncodeChar c with
  | nil => exact absurd hbytes String.utf8EncodeChar_ne_nil
  | cons first rest =>
    have hlength : rest.length + 1 = c.utf8Size := by
      rw [← String.length_utf8EncodeChar, hbytes, List.length_cons]
    have hsize := c.utf8Size_le_four
    exact ⟨first, rest, rfl, by omega, by omega⟩

/-! ### Showing bytes -/

/-- What has been shown is skipped. -/
theorem showAll_append (shown rest : RawText) :
    showAll shown.length (shown ++ rest) = showAll 0 rest := by
  induction shown with
  | nil => rfl
  | cons byte shown ih => exact ih

/-- **A character is shown as it is.** -/
theorem showAll_utf8EncodeChar (c : Char) (rest : RawText) :
    showAll 0 (String.utf8EncodeChar c ++ rest) = c :: showAll 0 rest := by
  obtain ⟨first, others, hbytes, hlength, hsize⟩ := exists_utf8EncodeChar_eq c
  have hshow : showFirst (String.utf8EncodeChar c ++ rest) = (c, c.utf8Size - 1) := by
    have htake : (String.utf8EncodeChar c ++ rest).take 4 =
        String.utf8EncodeChar c ++ rest.take (4 - c.utf8Size) := by
      rw [List.take_append, String.length_utf8EncodeChar, List.take_of_length_le]
      rw [String.length_utf8EncodeChar]
      exact c.utf8Size_le_four
    rw [showFirst, htake, List.toByteArray_append, ByteArray.utf8DecodeChar?_utf8EncodeChar_append]
  rw [hbytes, List.cons_append] at hshow ⊢
  rw [showAll, hshow, ← hlength, showAll_append]

/-- **A text is shown as it is.** -/
theorem display_raw (text : String) : display (raw text) = text := by
  have hshow : ∀ chars : List Char,
      showAll 0 (chars.flatMap String.utf8EncodeChar) = chars := by
    intro chars
    induction chars with
    | nil => rfl
    | cons c chars ih => rw [List.flatMap_cons, showAll_utf8EncodeChar, ih]
  rw [display, raw_eq, hshow, String.ofList_toList]

/-- The bytes of what is shown first are those that it is shown for, or those of U+FFFD. -/
theorem mem_of_mem_showFirst {bytes : RawText} {byte : UInt8} (hbyte : byte < 128)
    (h : byte ∈ String.utf8EncodeChar (showFirst bytes).1) : byte ∈ bytes := by
  rw [showFirst] at h
  split at h
  next c hdecode =>
    obtain ⟨back, hback⟩ := ByteArray.exists_of_utf8DecodeChar?_eq_some hdecode
    have hlist : bytes.take 4 = String.utf8EncodeChar c ++ back.data.toList := by
      have hdata := congrArg (fun array : ByteArray => array.data.toList) hback
      simpa using hdata
    exact List.take_subset 4 bytes (hlist ▸ List.mem_append_left _ h)
  next =>
    have hencoded : String.utf8EncodeChar '\uFFFD' = [239, 191, 189] := by decide
    rw [hencoded, List.mem_cons, List.mem_cons, List.mem_singleton] at h
    obtain rfl | rfl | rfl := h <;> exact absurd hbyte (by decide)

theorem mem_of_mem_showAll {bytes : RawText} {byte : UInt8} (hbyte : byte < 128) (shown : Nat)
    (h : byte ∈ (showAll shown bytes).flatMap String.utf8EncodeChar) : byte ∈ bytes := by
  induction bytes generalizing shown with
  | nil => cases shown <;> exact h
  | cons first rest ih =>
    cases shown with
    | succ shown => exact List.mem_cons_of_mem _ (ih shown h)
    | zero =>
      rw [showAll, List.flatMap_cons] at h
      rcases List.mem_append.mp h with h | h
      · exact mem_of_mem_showFirst hbyte h
      · exact List.mem_cons_of_mem _ (ih _ h)

/-- **No byte below 128 is shown** that was not there. -/
theorem mem_of_mem_display {bytes : RawText} {byte : UInt8} (hbyte : byte < 128)
    (h : byte ∈ raw (display bytes)) : byte ∈ bytes := by
  rw [display, raw_ofList] at h
  exact mem_of_mem_showAll hbyte 0 h

/-! ### Parts of texts -/

theorem IsText.append {front back : RawText} (hfront : IsText front) (hback : IsText back) :
    IsText (front ++ back) := by
  obtain ⟨text, rfl⟩ := hfront
  obtain ⟨other, rfl⟩ := hback
  exact ⟨text ++ other, (raw_append text other).symm⟩

/-- A byte below 128 in the bytes of some characters is one of the characters. -/
theorem exists_of_flatMap_eq {chars : List Char} {front back : RawText} {byte : UInt8}
    (hbyte : byte < 128)
    (h : chars.flatMap String.utf8EncodeChar = front ++ byte :: back) :
    ∃ before after : List Char, front = before.flatMap String.utf8EncodeChar ∧
      back = after.flatMap String.utf8EncodeChar := by
  induction chars generalizing front with
  | nil => exact absurd h.symm (by simp)
  | cons c chars ih =>
    rw [List.flatMap_cons] at h
    rcases List.append_eq_append_iff.mp h with ⟨others, rfl, hrest⟩ | ⟨others, hc, hrest⟩
    · -- The byte lies behind the first character.
      obtain ⟨before, after, rfl, rfl⟩ := ih hrest
      exact ⟨c :: before, after, (List.flatMap_cons ..).symm, rfl⟩
    · cases others with
      | nil =>
        obtain ⟨before, after, hbefore, rfl⟩ := @ih [] hrest.symm
        refine ⟨[c], after, ?_, rfl⟩
        rw [List.flatMap_singleton, hc, List.append_nil]
      | cons first others =>
        -- The byte belongs to the first character, so it is all of it.
        obtain ⟨rfl, rfl⟩ := List.cons.inj hrest
        have hmem : byte ∈ String.utf8EncodeChar c :=
          hc ▸ List.mem_append_right _ List.mem_cons_self
        rcases utf8EncodeChar_eq_or c with ⟨other, -, hsingle⟩ | hall
        · rw [hsingle] at hc
          have hnil : front = [] ∧ others = [] := by
            have hlength := congrArg List.length hc
            rw [List.length_singleton, List.length_append, List.length_cons] at hlength
            exact ⟨List.length_eq_zero_iff.mp (by omega), List.length_eq_zero_iff.mp (by omega)⟩
          obtain ⟨rfl, rfl⟩ := hnil
          exact ⟨[], chars, rfl, rfl⟩
        · exact absurd hbyte (UInt8.not_lt.mpr (hall byte hmem))

/-- **A text is cut** at a byte below 128 into texts. -/
theorem IsText.cut {front back : RawText} {byte : UInt8} (h : IsText (front ++ byte :: back))
    (hbyte : byte < 128) : IsText front ∧ IsText back := by
  obtain ⟨text, htext⟩ := h
  rw [raw_eq] at htext
  obtain ⟨before, after, rfl, rfl⟩ := exists_of_flatMap_eq hbyte htext.symm
  exact ⟨⟨String.ofList before, (raw_ofList before).symm⟩,
    ⟨String.ofList after, (raw_ofList after).symm⟩⟩

/-- What a text is cut into at a separator below 128 are texts. -/
theorem IsText.of_mem_splitOn {separator : UInt8} (hseparator : separator < 128)
    {text part : RawText} (h : IsText text) (hpart : part ∈ text.splitOn separator) :
    IsText part := by
  by_cases hmem : separator ∈ text
  · obtain ⟨front, back, rfl⟩ := List.append_of_mem hmem
    obtain ⟨hfront, hback⟩ := h.cut hseparator
    rw [List.splitOn_append_cons_self] at hpart
    rcases List.mem_append.mp hpart with hpart | hpart
    · exact hfront.of_mem_splitOn hseparator hpart
    · exact hback.of_mem_splitOn hseparator hpart
  · rw [List.splitOn_eq_singleton hmem, List.mem_singleton] at hpart
    exact hpart ▸ h
termination_by text.length

end RawText

end HackStack
