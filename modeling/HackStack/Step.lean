/-!
# Steps

A step changes a state and may fail. A step that fails has a state too: what it had changed before
it failed stays changed, and nothing is rolled back. So a step is a function from a state to a
result and a state, `HackStack.Step ε σ α`, and steps are put together by `ExceptT` over `StateM`.

The lemmas of this file say what the steps that are put together do to a state, and before them
`HackStack.bind_eq_ok_iff` says it of questions, which have no state.
-/

namespace HackStack

/-- A computation over states `σ` that may fail with `ε`, and leaves a state behind either way. -/
abbrev Step (ε σ : Type) : Type → Type := ExceptT ε (StateM σ)

/-- **Two questions are answered if both are.** -/
theorem bind_eq_ok_iff {ε α β : Type} {x : Except ε α} {f : α → Except ε β} {b : β} :
    (x >>= f) = .ok b ↔ ∃ a, x = .ok a ∧ f a = .ok b := by
  cases x with
  | error why =>
    constructor
    · intro h
      cases h
    · rintro ⟨a, h, -⟩
      cases h
  | ok a =>
    constructor
    · intro h
      exact ⟨a, rfl, h⟩
    · rintro ⟨a', h, hf⟩
      cases h
      exact hf

namespace Step

variable {ε σ α β : Type}

/-- Change the state. -/
def change (f : σ → σ) : Step ε σ Unit := fun state => (.ok (), f state)

/-- Look at the state. -/
def inspect (f : σ → Except ε α) : Step ε σ α := fun state => (f state, state)

/-- Go on in a way that depends on the state. -/
def within (f : σ → Step ε σ α) : Step ε σ α := fun state => f state state

/-- A result that is there leaves the state alone. -/
@[simp]
theorem pure_apply (a : α) (state : σ) : (pure a : Step ε σ α) state = (.ok a, state) := rfl

/-- A failure leaves the state alone. -/
@[simp]
theorem throw_apply (e : ε) (state : σ) : (throw e : Step ε σ α) state = (.error e, state) := rfl

/-- **A second step runs where the first has succeeded**, on the state that the first has left. -/
@[simp]
theorem bind_apply (x : Step ε σ α) (f : α → Step ε σ β) (state : σ) :
    (x >>= f) state =
      match x state with
      | (.ok a, state) => f a state
      | (.error e, state) => (.error e, state) := by
  show (match x state with
    | (result, state) => ExceptT.bindCont f result state : Except ε β × σ) = _
  rcases x state with ⟨_ | _, _⟩ <;> rfl

/-- **Two steps succeed where both succeed.** -/
theorem bind_eq_ok {x : Step ε σ α} {f : α → Step ε σ β} {state state' : σ} {b : β} :
    (x >>= f) state = (.ok b, state') ↔
      ∃ a between, x state = (.ok a, between) ∧ f a between = (.ok b, state') := by
  rw [bind_apply]
  rcases hx : x state with ⟨why | a, between⟩
  · constructor
    · intro h
      cases h
    · rintro ⟨a, between', h, -⟩
      cases h
  · constructor
    · intro h
      exact ⟨a, between, rfl, h⟩
    · rintro ⟨a', between', h, hf⟩
      cases h
      exact hf

/-- Changing the result leaves the state to the step. -/
@[simp]
theorem map_apply (f : α → β) (x : Step ε σ α) (state : σ) :
    (f <$> x) state =
      match x state with
      | (.ok a, state) => (.ok (f a), state)
      | (.error e, state) => (.error e, state) := by
  rw [map_eq_pure_bind, bind_apply]
  rfl

end Step

end HackStack
