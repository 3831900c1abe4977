import HackStack.Proofs.Session.Reachable
import HackStack.Proofs.Session.Statistics

/-!
# What a command that fails leaves behind

Nothing is rolled back when a command cannot be translated, so what it leaves behind is what was
changed before the check that failed. That is at most something in the context
(`HackStack.Context.AfterFault`): nothing has been written, not even the comment ahead of the code,
and the command is not among those that were translated (`HackStack.Session.AfterFault`). A line
that cannot be read is no command, and leaves the context as it was.

The main result is `HackStack.failing_command_leaves`, for every command, every sink and every state
of a session.
-/

namespace HackStack

open Assembly

namespace Session

variable {σ : Type}

/-- **What is left of a session** behind a fault, for the command that has faulted if there was
one. -/
structure AfterFault (session : Session σ) (c : Option Command) (why : Fault)
    (session' : Session σ) : Prop where
  /-- Nothing has been written, neither code nor a comment. -/
  sink : session'.sink = session.sink
  options : session'.options = session.options
  files : session'.statistics.files = session.statistics.files
  commands : session'.statistics.commands = session.statistics.commands
  instructions : session'.statistics.instructions = session.statistics.instructions
  context : session.context.AfterFault c why session'.context

variable [Sink σ] {session session' : Session σ} {c : Command} {place : Location} {why : Fault}

/-- **A command that fails with a fault** has not come as far as the sink. -/
theorem exists_faults_of_command (h : command c session = (.error (.fault place why), session')) :
    ∃ context, Block.Faults session.context c why context ∧
      session' = { session with context, statistics := session.statistics.countKind c } := by
  rcases Block.lowers_or_faults session.context c with
    ⟨block, context, hlowers⟩ | ⟨why', context, hfaults⟩
  · -- Code that was found can be refused by the sink, but that is no fault.
    have hwrites := lowered_apply (Block.ofCommand c) c.render
      (fun statistics => { statistics with commands := statistics.commands + 1 })
      { session with statistics := session.statistics.countKind c }
    rw [hlowers.ofCommand] at hwrites
    have hboth := h.symm.trans hwrites
    dsimp only at hboth
    split at hboth
    · exact absurd (Prod.mk.inj hboth).1 (by simp)
    · exact absurd (Prod.mk.inj hboth).1 (by simp)
  · obtain ⟨hwhy, rfl⟩ := Prod.mk.inj (h.symm.trans (command_error hfaults))
    obtain ⟨-, rfl⟩ := Failure.fault.inj (Except.error.inj hwhy)
    exact ⟨context, hfaults, rfl⟩

theorem afterFault_of_command (h : command c session = (.error (.fault place why), session')) :
    session.AfterFault (some c) why session' := by
  obtain ⟨context, hfaults, rfl⟩ := exists_faults_of_command h
  have hcontext := Context.afterFault_of_faults hfaults
  rcases c with _ | _ | (_ | _ | _) | _ | _ | _ | _ | _ | _
  all_goals exact ⟨rfl, rfl, rfl, rfl, rfl, hcontext⟩

theorem afterFault_of_line {number : Nat} {text : String}
    (h : line number text session = (.error (.fault place why), session')) :
    session.AfterFault (Command.read text).toOption why session' := by
  rw [line_apply] at h
  cases hread : Command.read text with
  | ok c =>
    rw [hread] at h
    obtain ⟨hsink, hoptions, hfiles, hcommands, hinstructions, hcontext⟩ := afterFault_of_command h
    exact ⟨hsink, hoptions, hfiles, hcommands, hinstructions, hcontext⟩
  | error why' =>
    rw [hread] at h
    obtain ⟨-, rfl⟩ := Prod.mk.inj h
    exact ⟨rfl, rfl, rfl, rfl, rfl, Context.afterFault_none session.context why⟩

end Session

/-- **What a failing command leaves behind.** A command is translated, or read from a line and
translated, in any session and with any sink, and it fails for another reason than that the sink
refuses something. Then nothing was written, and the numbers of files, of commands and of
instructions are the same, as are the scope and the namespace of static variables. One more
comparison is numbered exactly if the command was one, and one more call exactly if the command was
a call whose label was refused. No name is declared that was not declared before, except the first
label of a comparison whose second label was refused.

The sink is any that refuses with a text, and so with an output that cannot be written; a sink with
errors of its own, which could be faults, is no `HackStack.Sink`. The ordinals of the session are
those of counters of 32 bits while they are below `2 ^ 32`. -/
theorem failing_command_leaves {σ : Type} [Sink σ] (session : Session σ) :
    (∀ c session' place why,
      Session.command c session = (.error (.fault place why), session') →
        session.AfterFault (some c) why session') ∧
    ∀ number text session' place why,
      Session.line number text session = (.error (.fault place why), session') →
        session.AfterFault (Command.read text).toOption why session' :=
  ⟨fun _ _ _ _ h => Session.afterFault_of_command h,
    fun _ _ _ _ _ h => Session.afterFault_of_line h⟩

/-- Behind a function that is called like its second label, the first comparison is refused: its
first label is free. -/
theorem Session.exists_clash {session : Session (Array Statement)}
    (hordinal : session.context.registry.comparisons = 0)
    (hholds : "CMP.1.TRUE" ∉ session.context.registry.declared)
    (hdone : "CMP.1.END" ∉ session.context.registry.declared) :
    ∃ between context, command (.function "CMP.1.END" 0) session = (.ok (), between) ∧
      Block.Faults between.context (.operate (.comparison .eq)) (.duplicateLabel "CMP.1.END")
        context ∧
      between.context.registry.comparisons = 0 ∧
      "CMP.1.TRUE" ∉ between.context.registry.declared := by
  obtain ⟨between, hfirst, hcontext⟩ : ∃ between,
      command (.function "CMP.1.END" 0) session = (.ok (), between) ∧
        between.context = (session.context.declaring "CMP.1.END").enterBody "CMP.1.END" :=
    ⟨_, command_ok (Block.Lowers.function hdone).ofCommand, rfl⟩
  have hordinal' : between.context.registry.comparisons = 0 := by
    rw [hcontext]
    exact hordinal
  -- The function takes the name of the second label alone.
  have hfree : "CMP.1.TRUE" ∉ between.context.registry.declared := by
    rw [hcontext]
    exact fun hmem => (Context.mem_declaring.mp hmem).elim (by decide) hholds
  have hlabel : ∀ branch, between.context.compareLabel branch = .compare 1 branch :=
    fun branch => by rw [Context.compareLabel, hordinal']
  obtain ⟨context, hfaults⟩ : ∃ context, Block.Faults between.context
      (.operate (.comparison .eq)) (.duplicateLabel (between.context.compareLabel .done).render)
      context := by
    refine ⟨_, .comparisonDone .eq ?_ ?_⟩
    · rw [hlabel]
      exact hfree
    · rw [hlabel, hcontext]
      exact Context.mem_declaring.mpr (Or.inl (by decide))
  rw [hlabel] at hfaults
  exact ⟨between, context, hfirst, hfaults, hordinal', hfree⟩

/-- The comparison leaves its first label declared and its ordinal taken, and has written
nothing. -/
theorem failing_command_leaves_clashing : ∃ session session' place,
    Session.command (.function "CMP.1.END" 0) (.fresh {}) = (.ok (), session) ∧
    Session.command (.operate (.comparison .eq)) session =
      (.error (.fault place (.duplicateLabel "CMP.1.END")), session') ∧
    session'.sink = session.sink ∧ session'.context.registry.comparisons = 1 ∧
    "CMP.1.TRUE" ∉ session.context.registry.declared ∧
    "CMP.1.TRUE" ∈ session'.context.registry.declared := by
  have hnone : ∀ name : String, name ∉ (Session.fresh {}).context.registry.declared :=
    fun _ => Std.HashSet.not_mem_empty
  obtain ⟨session, context, hfirst, hfaults, hordinal, hfree⟩ :=
    @Session.exists_clash (.fresh {}) rfl (hnone _) (hnone _)
  have hsecond := Session.command_error hfaults
  have hleft := ((failing_command_leaves session).1 _ _ _ _ hsecond).context
  have hholds : (session.context.compareLabel .holds).render = "CMP.1.TRUE" := by
    rw [Context.compareLabel, hordinal]
    decide
  have hdone : (session.context.compareLabel .done).render = "CMP.1.END" := by
    rw [Context.compareLabel, hordinal]
    decide
  refine ⟨session, _, _, hfirst, hsecond, rfl, ?_, hfree, ?_⟩
  · rw [hleft.comparisons, hordinal]
    rfl
  · exact (hleft.declared "CMP.1.TRUE").mpr (Or.inr ⟨rfl, congrArg _ hdone.symm, hholds.symm⟩)

end HackStack
