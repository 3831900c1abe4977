import Std.Data.String.ToNat
import HackStack.Label
import HackStack.Proofs.Assembly.RoundTrip

/-!
# Labels with the same name

Names of labels are put together from texts that may hold any character of a symbol, the `$` and the
digits among them. So different labels may have the same name, and this file says when they have.

The name of a label is its *head*, and if the label belongs to a scope, a `$` and its *tail*
(`HackStack.Label.head`, `HackStack.Label.tail?`). The tail of a return address is a `ret.` in front
of its ordinal, and a label of the source may be called like that. As long as no head holds a `$`,
names agree exactly where heads and tails do (`HackStack.Label.render_eq_render_iff`).

Within one kind of label the ordinals are told apart by their digits
(`HackStack.Label.returnName_injective`, `HackStack.Label.render_compare_injective`).
-/

namespace HackStack

namespace Label

open Assembly

/-! ### Heads and tails -/

/-- The part of a name that a return address has behind its scope. -/
def returnName (ordinal : Nat) : String := "ret." ++ toString ordinal

/-- What stands before the `$` that is put into the name of a label, or the name as a whole. -/
def head : Label → String
  | entry function => function
  | user scope _ | returnTo scope _ => scope.qualifier
  | compare ordinal branch => (compare ordinal branch).render

/-- What stands behind that `$`. -/
def tail? : Label → Option String
  | user _ name => some name
  | returnTo _ ordinal => some (returnName ordinal)
  | entry _ | compare _ _ => none

/-- A name without a tail is a head. -/
theorem render_of_tail?_eq_none {label : Label} (h : label.tail? = none) :
    label.render = label.head := by
  cases label with
  | entry function => rfl
  | compare ordinal branch => rfl
  | user scope name => exact absurd h (by simp [tail?])
  | returnTo scope ordinal => exact absurd h (by simp [tail?])

/-- A name with a tail is a head, a `$` and the tail. -/
theorem render_of_tail?_eq_some {label : Label} {tail : String} (h : label.tail? = some tail) :
    label.render.toList = label.head.toList ++ '$' :: tail.toList := by
  cases label with
  | entry function => exact absurd h (by simp [tail?])
  | compare ordinal branch => exact absurd h (by simp [tail?])
  | user scope name =>
    obtain rfl := Option.some.inj h
    rw [render, String.toList_append, String.toList_append, List.append_assoc]
    rfl
  | returnTo scope ordinal =>
    obtain rfl := Option.some.inj h
    rw [render, returnName, String.toList_append, String.toList_append, String.toList_append,
      List.append_assoc]
    rfl

/-- **A name is cut at its first `$`** into head and tail, as long as the head holds none. -/
theorem cutAt_render {label : Label} (h : '$' ∉ label.head.toList) :
    cutAt '$' label.render.toList =
      label.tail?.map fun tail => (label.head.toList, tail.toList) := by
  cases ht : label.tail? with
  | none =>
    rw [render_of_tail?_eq_none ht, cutAt_eq_none h]
    rfl
  | some tail =>
    rw [render_of_tail?_eq_some ht, cutAt_append h]
    rfl

/-- **Names agree where heads and tails do**, as long as no head holds a `$`. -/
theorem render_eq_render_iff {label other : Label} (h : '$' ∉ label.head.toList)
    (h' : '$' ∉ other.head.toList) :
    label.render = other.render ↔ label.head = other.head ∧ label.tail? = other.tail? := by
  constructor
  · intro he
    have hcut := cutAt_render h
    rw [he, cutAt_render h'] at hcut
    cases ht : label.tail? with
    | none =>
      rw [ht, Option.map_none, Option.map_eq_none_iff] at hcut
      refine ⟨?_, hcut.symm⟩
      rw [← render_of_tail?_eq_none ht, he, render_of_tail?_eq_none hcut]
    | some tail =>
      rw [ht, Option.map_some] at hcut
      obtain ⟨tail', ht', hpair⟩ := Option.map_eq_some_iff.mp hcut
      obtain ⟨hhead, htail⟩ := Prod.mk.inj hpair
      rw [ht', String.toList_inj.mp htail]
      exact ⟨(String.toList_inj.mp hhead).symm, rfl⟩
  · rintro ⟨hhead, htail⟩
    cases ht : label.tail? with
    | none => rw [render_of_tail?_eq_none ht, hhead, render_of_tail?_eq_none (htail.symm.trans ht)]
    | some tail =>
      rw [← String.toList_inj, render_of_tail?_eq_some ht, hhead,
        render_of_tail?_eq_some (htail.symm.trans ht)]

/-! ### Ordinals -/

/-- **Return addresses of one scope** are told apart by their ordinals. -/
theorem returnName_injective {n m : Nat} (h : returnName n = returnName m) : n = m :=
  Nat.repr_inj.mp ((String.append_right_inj "ret.").mp h)

/-- The characters of a number are digits. -/
theorem isDigit_of_mem_toString {n : Nat} {c : Char} (h : c ∈ (toString n).toList) :
    c.isDigit = true := by
  rw [Nat.toString_eq_repr, Nat.toList_repr] at h
  exact Nat.isDigit_of_mem_toDigits (by decide) (by decide) h

/-- **Labels of comparisons** are told apart by their ordinals and their suffixes. -/
theorem render_compare_injective {n m : Nat} {branch other : Branch}
    (h : (compare n branch).render = (compare m other).render) : n = m ∧ branch = other := by
  have hdot : ∀ k : Nat, '.' ∉ (toString k).toList := fun k hmem =>
    absurd (isDigit_of_mem_toString hmem) (by decide)
  have hlists : (compare n branch).render.toList = (compare m other).render.toList :=
    congrArg String.toList h
  simp only [render, String.toList_append, List.append_assoc] at hlists
  have hrest : (toString n).toList ++ '.' :: branch.suffix.toList =
      (toString m).toList ++ '.' :: other.suffix.toList := List.append_cancel_left hlists
  have hcut := congrArg (cutAt '.') hrest
  rw [cutAt_append (hdot n), cutAt_append (hdot m), Option.some.injEq, Prod.mk.injEq] at hcut
  obtain ⟨hordinal, hsuffix⟩ := hcut
  refine ⟨Nat.repr_inj.mp (String.toList_inj.mp hordinal), ?_⟩
  cases branch <;> cases other <;> first | rfl | exact absurd hsuffix (by decide)

/-- What the translation puts behind the scope of a return address begins with an `r`. -/
theorem ne_returnName {name : String} (h : name.toList.head? ≠ some 'r') (ordinal : Nat) :
    name ≠ returnName ordinal := by
  rintro rfl
  exact h (by simp [returnName])

/-- What it calls the labels of a comparison begins with a `C`. -/
theorem ne_render_compare {name : String} (h : name.toList.head? ≠ some 'C') (ordinal : Nat)
    (branch : Branch) : name ≠ (compare ordinal branch).render := by
  rintro rfl
  exact h (by simp [render])

/-- No label of a comparison holds a `$`. -/
theorem dollar_not_mem_compare (n : Nat) (branch : Branch) :
    '$' ∉ (compare n branch).render.toList := by
  have hdigits : '$' ∉ (toString n).toList := fun hmem =>
    absurd (isDigit_of_mem_toString hmem) (by decide)
  simp only [render, String.toList_append, List.mem_append, not_or]
  exact ⟨⟨⟨by decide, hdigits⟩, by decide⟩, by cases branch <;> decide⟩

end Label

end HackStack
