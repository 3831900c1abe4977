import HackStack.Proofs.Block.Determined

/-!
# What a fault leaves of the context

A command that faults has changed the context until the check that failed, and nothing is rolled
back. `HackStack.Context.AfterFault` says what is left of the context, for every command and every
check: a comparison has taken its ordinal, and a call has taken its own if only its label was
refused. No name has been declared, but for the first label of a comparison whose second label was
refused.
-/

namespace HackStack

/-- The name of a label is taken. -/
def Fault.isDuplicateLabel : Fault → Bool
  | duplicateLabel _ => true
  | malformed _ | unknownSegment _ | indexOutOfRange _ _ _ | misuse _ => false

namespace Context

/-- **What is left of a context** behind a fault, for the command that has faulted if there was
one. -/
structure AfterFault (context : Context) (c : Option Command) (why : Fault) (context' : Context) :
    Prop where
  /-- The scope is the same, and with it the function whose body it is. -/
  scope : context'.scope = context.scope
  statics : context'.statics = context.statics
  comparisons : context'.registry.comparisons =
    context.registry.comparisons + if c.any Command.isComparison then 1 else 0
  calls : context'.registry.calls =
    context.registry.calls + if c.any Command.isCall && why.isDuplicateLabel then 1 else 0
  /-- A comparison whose second label is refused has declared the first. -/
  declared : ∀ name : String, name ∈ context'.registry.declared ↔
    name ∈ context.registry.declared ∨
      c.any Command.isComparison = true ∧
        why = .duplicateLabel (context.compareLabel .done).render ∧
        name = (context.compareLabel .holds).render

variable {context context' : Context} {c : Command} {why : Fault}

/-- Where no command was found, the context is the same. -/
theorem afterFault_none (context : Context) (why : Fault) :
    context.AfterFault none why context :=
  ⟨rfl, rfl, rfl, rfl, fun _ => (or_iff_left fun h => Bool.noConfusion h.1).symm⟩

/-- A name that is taken is not taken once more. -/
theorem mem_declaring_of_taken {label : Label} (h : context.Taken label) {name : String} :
    name ∈ (context.declaring label.render).registry.declared ↔
      name ∈ context.registry.declared :=
  mem_declaring.trans (or_iff_right_of_imp fun hname => hname ▸ h)

/-- A command that is no comparison is not the exception. -/
theorem declared_iff_of_other (hc : c.isComparison = false) {name : String}
    (h : name ∈ context'.registry.declared ↔ name ∈ context.registry.declared) :
    name ∈ context'.registry.declared ↔
      name ∈ context.registry.declared ∨
        (some c).any Command.isComparison = true ∧
          why = .duplicateLabel (context.compareLabel .done).render ∧
          name = (context.compareLabel .holds).render := by
  refine h.trans (or_iff_left fun hexception => ?_).symm
  exact absurd (hc.symm.trans hexception.1) Bool.false_ne_true

/-- **A fault leaves of a context** what `HackStack.Context.AfterFault` says, whichever check it was
that failed. -/
theorem afterFault_of_faults (h : Block.Faults context c why context') :
    context.AfterFault (some c) why context' := by
  cases h with
  | push h => exact ⟨rfl, rfl, rfl, rfl, fun _ => declared_iff_of_other rfl Iff.rfl⟩
  | pop h => exact ⟨rfl, rfl, rfl, rfl, fun _ => declared_iff_of_other rfl Iff.rfl⟩
  | popTo h hp => exact ⟨rfl, rfl, rfl, rfl, fun _ => declared_iff_of_other rfl Iff.rfl⟩
  | comparisonHolds op h =>
    refine ⟨rfl, rfl, rfl, rfl, fun name => (mem_declaring_of_taken h).trans ?_⟩
    refine (or_iff_left fun hexception => ?_).symm
    exact Block.render_compareLabel_ne context (Fault.duplicateLabel.inj hexception.2.1).symm
  | comparisonDone op hholds h =>
    refine ⟨rfl, rfl, rfl, rfl, fun name => ?_⟩
    have hdone := (Block.taken_done_iff context).mpr h
    rw [mem_declaring_of_taken hdone, mem_declaring, or_comm]
    exact or_congr_right ⟨fun hname => ⟨rfl, rfl, hname⟩, fun hexception => hexception.2.2⟩
  | label h =>
    exact ⟨rfl, rfl, rfl, rfl, fun _ => declared_iff_of_other rfl (mem_declaring_of_taken h)⟩
  | function h =>
    exact ⟨rfl, rfl, rfl, rfl, fun _ => declared_iff_of_other rfl (mem_declaring_of_taken h)⟩
  | arguments h => exact ⟨rfl, rfl, rfl, rfl, fun _ => declared_iff_of_other rfl Iff.rfl⟩
  | call hreach h =>
    exact ⟨rfl, rfl, rfl, rfl, fun _ => declared_iff_of_other rfl (mem_declaring_of_taken h)⟩
  | ret h => exact ⟨rfl, rfl, rfl, rfl, fun _ => declared_iff_of_other rfl Iff.rfl⟩

end Context

end HackStack
