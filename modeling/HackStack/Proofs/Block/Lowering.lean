import Mathlib.Data.List.Nodup
import HackStack.Proofs.Rom.Listing
import HackStack.Proofs.Session.Standing

/-!
# What a command is lowered to

The code of a command depends on the context, and finding it changes the context. This file says
once and for all what can happen:

* `HackStack.Block.Targets` – a segment and an index denote this target;
* `HackStack.Block.Lowers` – the command has this code, and leaves this context behind;
* `HackStack.Block.Faults` – the command cannot be lowered, for this reason.

The first relation holds exactly when the target is found (`HackStack.Block.target_eq_ok_iff`), and
the other two exactly when the lowering succeeds and fails (`HackStack.Block.ofCommand_eq_ok`,
`HackStack.Block.ofCommand_eq_error`). What follows about programs is proved from the relations and
does not look into the lowering again.

The context holds a `HackStack.Standing`, which a lowering changes as its command does
(`HackStack.Block.Lowers.standing_eq`). The labels that a lowering places and declares are those
that the command renders there, and it finds all of them free
(`HackStack.Block.Lowers.labelNames_eq`, `HackStack.Block.Lowers.mem_declared`,
`HackStack.Block.Lowers.free`).
-/

namespace HackStack

open Assembly

namespace Context

/-- What the context says about what stands before. -/
def standing (context : Context) : Standing where
  scope := context.scope
  space := context.statics
  calls := context.registry.calls
  comparisons := context.registry.comparisons

/-! ### Changes of the context -/

/-- The context in which a name is taken. -/
def declaring (context : Context) (name : String) : Context :=
  { context with
    registry := { context.registry with declared := context.registry.declared.insert name } }

/-- The context in which one more comparison has been numbered. -/
def countingComparison (context : Context) : Context :=
  { context with
    registry := { context.registry with comparisons := context.registry.comparisons + 1 } }

/-- The context in which one more call of the scope has been numbered. -/
def countingCall (context : Context) : Context :=
  { context with registry := { context.registry with calls := context.registry.calls + 1 } }

/-- The label that the next call in the scope returns to. -/
def returnLabel (context : Context) : Label :=
  .returnTo context.scope (context.registry.calls + 1)

/-- A label of the next comparison. -/
def compareLabel (context : Context) (branch : Branch) : Label :=
  .compare (context.registry.comparisons + 1) branch

/-- Whether the name of a label is taken. -/
def Taken (context : Context) (label : Label) : Prop :=
  label.render ∈ context.registry.declared

/-- **A declaration** fails when the name is taken, and takes it otherwise. -/
theorem declare_apply (context : Context) (label : Label) [Decidable (context.Taken label)] :
    declare label context =
      (if context.Taken label then .error (.duplicateLabel label.render) else .ok label.render,
        context.declaring label.render) := by
  by_cases h : context.Taken label
  · simp [declare, withRegistry, Registry.declare, declaring, h, Std.HashSet.mem_iff_contains.mp h]
  · simp [declare, withRegistry, Registry.declare, declaring, h,
      Std.HashSet.contains_eq_false_iff_not_mem.mpr h]

theorem declare_free {context : Context} {label : Label} (h : ¬context.Taken label) :
    declare label context = (.ok label.render, context.declaring label.render) := by
  classical rw [declare_apply, if_neg h]

theorem declare_taken {context : Context} {label : Label} (h : context.Taken label) :
    declare label context =
      (.error (.duplicateLabel label.render), context.declaring label.render) := by
  classical rw [declare_apply, if_pos h]

/-- A name is taken once it has been declared. -/
theorem mem_declaring {context : Context} {name other : String} :
    other ∈ (context.declaring name).registry.declared ↔
      other = name ∨ other ∈ context.registry.declared := by
  rw [declaring, Std.HashSet.mem_insert, beq_iff_eq, eq_comm]

/-- A name stays free when another is declared. -/
theorem not_taken_declaring {context : Context} {name : String} {label : Label}
    (hne : label.render ≠ name) (h : ¬context.Taken label) :
    ¬(context.declaring name).Taken label :=
  fun hmem => (mem_declaring.mp hmem).elim hne h

end Context

namespace Block

/-! ### Segments and indices -/

/-- **What a segment and an index denote**: a constant is a number, a pointer has a cell behind it,
and the cells of the other segments have operands of their own. -/
inductive Targets (context : Context) : Segment → Nat → Target → Prop
  | constant {index : Nat} (h : index ≤ MemoryMap.maxAddress) :
      Targets context .constant index (.immediate index)
  | based (p : Pointer) {index : Nat} (h : index ≤ MemoryMap.maxAddress) :
      Targets context (.based p) index (.indirect p index)
  | temp {index : Nat} (h : index < MemoryMap.tempSize) :
      Targets context .temp index (.direct (.number (MemoryMap.tempBase + index)))
  | this : Targets context .pointer 0 (.direct (.symbol Pointer.this.symbol))
  | that : Targets context .pointer 1 (.direct (.symbol Pointer.that.symbol))
  | static {space : String} {index : Nat} (hspace : context.statics = some space)
      (h : index ≤ MemoryMap.maxAddress) :
      Targets context .static index (.direct (.symbol (space ++ "." ++ toString index)))

section

variable {context : Context} {segment : Segment} {index : Nat} {denoted : Target}

theorem Targets.le_maxIndex (h : Targets context segment index denoted) :
    index ≤ segment.maxIndex := by
  cases h with
  | constant h | based p h | static hspace h => exact h
  | temp h => exact Nat.le_pred_of_lt h
  | this => exact Nat.zero_le 1
  | that => exact Nat.le_refl 1

theorem Targets.target_eq (h : Targets context segment index denoted) :
    target context segment index = .ok denoted := by
  rw [target, if_pos h.le_maxIndex]
  cases h with
  | constant | based | temp | this | that => rfl
  | static hspace =>
    rw [targetInBounds, Context.staticSymbol, hspace]
    rfl

theorem target_eq_ok_iff :
    target context segment index = .ok denoted ↔ Targets context segment index denoted := by
  refine ⟨fun h => ?_, Targets.target_eq⟩
  rw [target] at h
  split at h
  next hindex =>
    cases segment with
    | constant =>
      obtain rfl := Except.ok.inj h
      exact .constant hindex
    | based p =>
      obtain rfl := Except.ok.inj h
      exact .based p hindex
    | temp =>
      obtain rfl := Except.ok.inj h
      exact .temp (Nat.lt_succ_of_le hindex)
    | pointer =>
      obtain rfl := Except.ok.inj h
      obtain rfl | rfl : index = 0 ∨ index = 1 := Nat.le_one_iff_eq_zero_or_eq_one.mp hindex
      · exact .this
      · exact .that
    | static =>
      obtain ⟨name, hname, h⟩ := bind_eq_ok_iff.mp h
      obtain rfl := Except.ok.inj h
      rw [Context.staticSymbol] at hname
      split at hname
      next space hspace =>
        obtain rfl := Except.ok.inj hname
        exact .static hspace hindex
      next => cases hname
  next => cases h

/-- **When nothing is denoted**: the index is too large, or there are no static variables. -/
theorem target_eq_error_iff {why : Fault} :
    target context segment index = .error why ↔
      ¬index ≤ segment.maxIndex ∧ why = .indexOutOfRange segment.name index segment.maxIndex ∨
      index ≤ segment.maxIndex ∧ segment = .static ∧ context.statics = none ∧
        why = .misuse .staticWithoutNamespace := by
  constructor
  · intro h
    by_cases hindex : index ≤ segment.maxIndex
    · refine Or.inr ⟨hindex, ?_⟩
      rw [target, if_pos hindex] at h
      cases segment with
      | constant | based | temp | pointer => cases h
      | static =>
        rw [targetInBounds, Context.staticSymbol] at h
        cases hspace : context.statics with
        | none =>
          rw [hspace] at h
          exact ⟨rfl, rfl, (Except.error.inj h).symm⟩
        | some space =>
          rw [hspace] at h
          cases h
    · rw [target, if_neg hindex] at h
      exact Or.inl ⟨hindex, (Except.error.inj h).symm⟩
  · rintro (⟨hindex, rfl⟩ | ⟨hindex, rfl, hspace, rfl⟩)
    · rw [target, if_neg hindex]
    · rw [target, if_pos hindex, targetInBounds, Context.staticSymbol, hspace]
      rfl

/-- Nothing is popped into a constant. -/
theorem ne_constant_of_popTo {block : Block} (h : target context segment index = .ok denoted)
    (hpop : popTo denoted = .ok block) : segment ≠ .constant := by
  rintro rfl
  cases target_eq_ok_iff.mp h
  cases hpop

end

/-! ### The two outcomes -/

/-- **A command is lowered** in a context to a block, and leaves another context behind. -/
inductive Lowers (context : Context) : Command → Block → Context → Prop
  | push {segment : Segment} {index : Nat} {denoted : Target}
      (h : target context segment index = .ok denoted) :
      Lowers context (.push segment index) (fetch denoted ++ pushD) context
  | pop {segment : Segment} {index : Nat} {denoted : Target} {block : Block}
      (h : target context segment index = .ok denoted) (hp : popTo denoted = .ok block) :
      Lowers context (.pop segment index) block context
  | unary (op : Unary) :
      Lowers context (.operate (.unary op)) (top ++ [.assign .m (unaryComp op)]) context
  | binary (op : Binary) :
      Lowers context (.operate (.binary op)) (popThenTop ++ [.assign .m (binaryComp op)]) context
  | comparison (op : Comparison) (hholds : ¬context.Taken (context.compareLabel .holds))
      (hdone : ¬context.Taken (context.compareLabel .done)) :
      Lowers context (.operate (.comparison op))
        (branches (condition op) (context.compareLabel .holds).render
          (context.compareLabel .done).render)
        ((context.countingComparison.declaring (context.compareLabel .holds).render).declaring
          (context.compareLabel .done).render)
  | label {name : String} (h : ¬context.Taken (context.userLabel name)) :
      Lowers context (.label name) [.label (context.userLabel name).render]
        (context.declaring (context.userLabel name).render)
  | goto (target : String) : Lowers context (.goto target) (goto context target) context
  | ifGoto (target : String) : Lowers context (.ifGoto target) (ifGoto context target) context
  | function {name : String} {locals : Nat} (h : ¬context.Taken (.entry name)) :
      Lowers context (.function name locals) (.label name :: zeros locals)
        ((context.declaring name).enterBody name)
  | call {name : String} {arguments : Nat}
      (hreach : arguments + MemoryMap.frameSize ≤ MemoryMap.maxAddress)
      (h : ¬context.Taken context.returnLabel) :
      Lowers context (.call name arguments)
        (callReturningTo context.returnLabel.render name arguments)
        (context.countingCall.declaring context.returnLabel.render)
  | ret {name : String} (h : context.scope.function? = some name) :
      Lowers context .ret leaveFrame context

/-- **A command cannot be lowered** in a context, and leaves another context behind all the same. -/
inductive Faults (context : Context) : Command → Fault → Context → Prop
  | push {segment : Segment} {index : Nat} {why : Fault}
      (h : target context segment index = .error why) :
      Faults context (.push segment index) why context
  | pop {segment : Segment} {index : Nat} {why : Fault}
      (h : target context segment index = .error why) :
      Faults context (.pop segment index) why context
  | popTo {segment : Segment} {index : Nat} {denoted : Target} {why : Fault}
      (h : target context segment index = .ok denoted) (hp : popTo denoted = .error why) :
      Faults context (.pop segment index) why context
  | comparisonHolds (op : Comparison) (h : context.Taken (context.compareLabel .holds)) :
      Faults context (.operate (.comparison op))
        (.duplicateLabel (context.compareLabel .holds).render)
        (context.countingComparison.declaring (context.compareLabel .holds).render)
  | comparisonDone (op : Comparison) (hholds : ¬context.Taken (context.compareLabel .holds))
      (h : context.Taken (context.compareLabel .done)) :
      Faults context (.operate (.comparison op))
        (.duplicateLabel (context.compareLabel .done).render)
        ((context.countingComparison.declaring (context.compareLabel .holds).render).declaring
          (context.compareLabel .done).render)
  | label {name : String} (h : context.Taken (context.userLabel name)) :
      Faults context (.label name) (.duplicateLabel (context.userLabel name).render)
        (context.declaring (context.userLabel name).render)
  | function {name : String} {locals : Nat} (h : context.Taken (.entry name)) :
      Faults context (.function name locals) (.duplicateLabel name) (context.declaring name)
  | arguments {name : String} {arguments : Nat}
      (h : ¬arguments + MemoryMap.frameSize ≤ MemoryMap.maxAddress) :
      Faults context (.call name arguments) (.malformed (.tooManyArguments name arguments)) context
  | call {name : String} {arguments : Nat}
      (hreach : arguments + MemoryMap.frameSize ≤ MemoryMap.maxAddress)
      (h : context.Taken context.returnLabel) :
      Faults context (.call name arguments) (.duplicateLabel context.returnLabel.render)
        (context.countingCall.declaring context.returnLabel.render)
  | ret (h : context.scope.function? = none) :
      Faults context .ret (.misuse .returnOutsideFunction) context

/-! ### The lowering of each command -/

/-- The two labels of a comparison have different names. -/
theorem render_compareLabel_ne (context : Context) :
    (context.compareLabel .done).render ≠ (context.compareLabel .holds).render := by
  intro h
  have hlast := congrArg (fun name : String => name.toList.reverse.head?) h
  simp [Context.compareLabel, Label.render, Branch.suffix] at hlast

/-- The first label of a comparison takes no name from the second. -/
theorem taken_done_iff (context : Context) :
    (context.countingComparison.declaring (context.compareLabel .holds).render).Taken
      (context.compareLabel .done) ↔ context.Taken (context.compareLabel .done) :=
  Context.mem_declaring.trans (or_iff_right (render_compareLabel_ne context))

/-- The steps of a comparison, once its first label has been declared. -/
theorem comparison_apply {context : Context} (op : Comparison)
    (h : ¬context.Taken (context.compareLabel .holds)) :
    comparison op context =
      (Context.declare (context.compareLabel .done) >>= fun done =>
        pure (branches (condition op) (context.compareLabel .holds).render done))
        (context.countingComparison.declaring (context.compareLabel .holds).render) := by
  have hnext : Context.nextComparison context =
      (.ok (context.registry.comparisons + 1), context.countingComparison) := rfl
  have hdeclare : Context.declare (.compare (context.registry.comparisons + 1) .holds)
      context.countingComparison = (.ok _, _) := Context.declare_free h
  simp only [comparison, Step.bind_apply, hnext, hdeclare]
  rfl

/-- The steps of a call whose frame is within reach. -/
theorem call_apply {context : Context} (name : String) {arguments : Nat}
    (h : arguments + MemoryMap.frameSize ≤ MemoryMap.maxAddress) :
    call name arguments context =
      (Context.declare context.returnLabel >>= fun returnLabel =>
        pure (callReturningTo returnLabel name arguments)) context.countingCall := by
  have hnext : Context.nextReturn context = (.ok context.returnLabel, context.countingCall) := rfl
  rw [call, if_pos h, Step.bind_apply, hnext]

/-- **A command that is lowered** is what the lowering succeeds for. -/
theorem Lowers.ofCommand {context context' : Context} {c : Command} {block : Block}
    (h : Lowers context c block context') : ofCommand c context = (.ok block, context') := by
  cases h with
  | push h =>
    rw [Block.ofCommand, Step.inspect, Block.push, h]
    rfl
  | pop h hp =>
    rw [Block.ofCommand, Step.inspect, Block.pop, h]
    exact congrArg (·, context) hp
  | unary op => rfl
  | binary op => rfl
  | comparison op hholds hdone =>
    rw [Block.ofCommand, operate, comparison_apply op hholds, Step.bind_apply,
      Context.declare_free fun hc => hdone ((taken_done_iff context).mp hc)]
    rfl
  | label h =>
    rw [Block.ofCommand, place, Step.bind_apply, Context.declareUser, Step.within,
      Context.declare_free h]
    rfl
  | goto target => rfl
  | ifGoto target => rfl
  | function h =>
    rw [Block.ofCommand, Block.function, Step.bind_apply, Context.enterFunction, Step.bind_apply,
      Context.declare_free h]
    rfl
  | call hreach h =>
    have hfree : ¬context.countingCall.Taken context.returnLabel := h
    rw [Block.ofCommand, call_apply _ hreach, Step.bind_apply, Context.declare_free hfree]
    rfl
  | ret h =>
    rw [Block.ofCommand, Step.inspect, Block.ret, h]

/-- **A command that faults** is what the lowering fails for. -/
theorem Faults.ofCommand {context context' : Context} {c : Command} {why : Fault}
    (h : Faults context c why context') : ofCommand c context = (.error why, context') := by
  cases h with
  | push h =>
    rw [Block.ofCommand, Step.inspect, Block.push, h]
    rfl
  | pop h =>
    rw [Block.ofCommand, Step.inspect, Block.pop, h]
    rfl
  | popTo h hp =>
    rw [Block.ofCommand, Step.inspect, Block.pop, h]
    exact congrArg (·, context) hp
  | comparisonHolds op h =>
    have hnext : Context.nextComparison context =
        (.ok (context.registry.comparisons + 1), context.countingComparison) := rfl
    have hdeclare : Context.declare (.compare (context.registry.comparisons + 1) .holds)
        context.countingComparison = (.error _, _) := Context.declare_taken h
    simp only [Block.ofCommand, operate, comparison, Step.bind_apply, hnext, hdeclare]
    rfl
  | comparisonDone op hholds h =>
    rw [Block.ofCommand, operate, comparison_apply op hholds, Step.bind_apply,
      Context.declare_taken ((taken_done_iff context).mpr h)]
  | label h =>
    rw [Block.ofCommand, place, Step.bind_apply, Context.declareUser, Step.within,
      Context.declare_taken h]
  | function h =>
    rw [Block.ofCommand, Block.function, Step.bind_apply, Context.enterFunction, Step.bind_apply,
      Context.declare_taken h]
    rfl
  | arguments h =>
    rw [Block.ofCommand, Block.call, if_neg h, Step.throw_apply]
  | call hreach h =>
    have htaken : context.countingCall.Taken context.returnLabel := h
    rw [Block.ofCommand, call_apply _ hreach, Step.bind_apply, Context.declare_taken htaken]
  | ret h =>
    rw [Block.ofCommand, Step.inspect, Block.ret, h]

/-- **Every command** is lowered or faults. -/
theorem lowers_or_faults (context : Context) (c : Command) :
    (∃ block context', Lowers context c block context') ∨
      ∃ why context', Faults context c why context' := by
  cases c with
  | push segment index =>
    cases h : target context segment index with
    | ok denoted => exact Or.inl ⟨_, _, .push h⟩
    | error why => exact Or.inr ⟨_, _, .push h⟩
  | pop segment index =>
    cases h : target context segment index with
    | error why => exact Or.inr ⟨_, _, .pop h⟩
    | ok denoted =>
      cases hp : popTo denoted with
      | ok block => exact Or.inl ⟨_, _, .pop h hp⟩
      | error why => exact Or.inr ⟨_, _, .popTo h hp⟩
  | operate op =>
    match op with
    | .unary op => exact Or.inl ⟨_, _, .unary op⟩
    | .binary op => exact Or.inl ⟨_, _, .binary op⟩
    | .comparison op =>
      by_cases hholds : context.Taken (context.compareLabel .holds)
      · exact Or.inr ⟨_, _, .comparisonHolds op hholds⟩
      by_cases hdone : context.Taken (context.compareLabel .done)
      · exact Or.inr ⟨_, _, .comparisonDone op hholds hdone⟩
      · exact Or.inl ⟨_, _, .comparison op hholds hdone⟩
  | label name =>
    by_cases h : context.Taken (context.userLabel name)
    · exact Or.inr ⟨_, _, .label h⟩
    · exact Or.inl ⟨_, _, .label h⟩
  | goto target => exact Or.inl ⟨_, _, .goto target⟩
  | ifGoto target => exact Or.inl ⟨_, _, .ifGoto target⟩
  | function name locals =>
    by_cases h : context.Taken (.entry name)
    · exact Or.inr ⟨_, _, .function h⟩
    · exact Or.inl ⟨_, _, .function h⟩
  | call name arguments =>
    by_cases hreach : arguments + MemoryMap.frameSize ≤ MemoryMap.maxAddress
    · by_cases h : context.Taken context.returnLabel
      · exact Or.inr ⟨_, _, .call hreach h⟩
      · exact Or.inl ⟨_, _, .call hreach h⟩
    · exact Or.inr ⟨_, _, .arguments hreach⟩
  | ret =>
    cases h : context.scope.function? with
    | some name => exact Or.inl ⟨_, _, .ret h⟩
    | none => exact Or.inr ⟨_, _, .ret h⟩

/-- **The lowering succeeds** exactly for the commands that are lowered. -/
theorem ofCommand_eq_ok {context context' : Context} {c : Command} {block : Block} :
    ofCommand c context = (.ok block, context') ↔ Lowers context c block context' := by
  refine ⟨fun h => ?_, Lowers.ofCommand⟩
  rcases lowers_or_faults context c with ⟨block₁, context₁, hl⟩ | ⟨why, context₁, hf⟩
  · rw [hl.ofCommand, Prod.mk.injEq, Except.ok.injEq] at h
    obtain ⟨rfl, rfl⟩ := h
    exact hl
  · rw [hf.ofCommand, Prod.mk.injEq] at h
    exact absurd h.1 (by simp)

/-- **The lowering fails** exactly for the commands that fault. -/
theorem ofCommand_eq_error {context context' : Context} {c : Command} {why : Fault} :
    ofCommand c context = (.error why, context') ↔ Faults context c why context' := by
  refine ⟨fun h => ?_, Faults.ofCommand⟩
  rcases lowers_or_faults context c with ⟨block₁, context₁, hl⟩ | ⟨why₁, context₁, hf⟩
  · rw [hl.ofCommand, Prod.mk.injEq] at h
    exact absurd h.1 (by simp)
  · rw [hf.ofCommand, Prod.mk.injEq, Except.error.injEq] at h
    obtain ⟨rfl, rfl⟩ := h
    exact hf

/-! ### Labels -/

/-- Pushing zeros places no label. -/
theorem labelNames_zeros (locals : Nat) : labelNames (zeros locals) = [] := by
  have hpushes : labelNames (List.replicate locals pushD).flatten = [] := by
    induction locals with
    | zero => rfl
    | succ n ih =>
      rw [List.replicate_succ, List.flatten_cons, labelNames_append, ih]
      rfl
  rw [zeros]
  split
  · rfl
  · exact hpushes

/-- A cell is fetched without a label. -/
theorem labelNames_fetch (denoted : Target) : labelNames (fetch denoted ++ pushD) = [] := by
  cases denoted <;> rfl

/-- A cell is popped into without a label. -/
theorem labelNames_popTo {denoted : Target} {block : Block} (h : popTo denoted = .ok block) :
    labelNames block = [] := by
  cases denoted with
  | immediate value => exact absurd h (by simp [popTo])
  | direct operand =>
    obtain rfl := Except.ok.inj h
    rfl
  | indirect pointer offset =>
    obtain rfl := Except.ok.inj h
    rfl

namespace Lowers

variable {context context' : Context} {c : Command} {block : Block}

/-- **A lowering places the labels of its command.** -/
theorem labelNames_eq (h : Lowers context c block context') :
    labelNames block = context.standing.names c := by
  cases h with
  | push h => exact labelNames_fetch _
  | pop h hp => exact labelNames_popTo hp
  | unary op => rfl
  | binary op => rfl
  | comparison op hholds hdone => rfl
  | label h => rfl
  | goto target => rfl
  | ifGoto target => rfl
  | function h => exact congrArg (_ :: ·) (labelNames_zeros _)
  | call hreach h => rfl
  | ret h => rfl

/-- **The labels of a lowering were free.** -/
theorem free (h : Lowers context c block context') {name : String}
    (hname : name ∈ context.standing.names c) : name ∉ context.registry.declared := by
  cases h with
  | comparison op hholds hdone =>
    rcases List.mem_cons.mp hname with rfl | hname
    · exact hholds
    · exact List.mem_singleton.mp hname ▸ hdone
  | label h => exact List.mem_singleton.mp hname ▸ h
  | function h => exact List.mem_singleton.mp hname ▸ h
  | call hreach h => exact List.mem_singleton.mp hname ▸ h
  | _ => exact absurd hname List.not_mem_nil

/-- **The labels of a lowering are declared by it**, and nothing else is. -/
theorem mem_declared (h : Lowers context c block context') {name : String} :
    name ∈ context'.registry.declared ↔
      name ∈ context.registry.declared ∨ name ∈ context.standing.names c := by
  cases h with
  | comparison op hholds hdone =>
    have hnames : name ∈ context.standing.names (.operate (.comparison op)) ↔
        name = (context.compareLabel .holds).render ∨
          name = (context.compareLabel .done).render :=
      List.mem_cons.trans (or_congr_right List.mem_singleton)
    rw [Context.mem_declaring, Context.mem_declaring, hnames]
    change _ ∨ _ ∨ name ∈ context.registry.declared ↔ _
    rw [or_left_comm, ← or_assoc, or_comm]
  | label h =>
    exact Context.mem_declaring.trans (or_comm.trans (or_congr_right List.mem_singleton.symm))
  | function h =>
    exact Context.mem_declaring.trans (or_comm.trans (or_congr_right List.mem_singleton.symm))
  | call hreach h =>
    exact Context.mem_declaring.trans (or_comm.trans (or_congr_right List.mem_singleton.symm))
  | _ => exact (or_iff_left List.not_mem_nil).symm

/-- The labels of a lowering are all different. -/
theorem nodup (h : Lowers context c block context') : (context.standing.names c).Nodup := by
  cases h with
  | comparison op hholds hdone =>
    exact List.nodup_cons.mpr
      ⟨fun hmem => render_compareLabel_ne context (List.mem_singleton.mp hmem).symm,
        List.nodup_singleton _⟩
  | label h => exact List.nodup_singleton _
  | function h => exact List.nodup_singleton _
  | call hreach h => exact List.nodup_singleton _
  | _ => exact List.nodup_nil

/-- **A lowering changes the standing** as its command does. -/
theorem standing_eq (h : Lowers context c block context') :
    context'.standing = context.standing.behind c := by
  cases h <;> rfl

end Lowers

end Block

end HackStack
