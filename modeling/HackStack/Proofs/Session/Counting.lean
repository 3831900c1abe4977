import HackStack.Proofs.Session.Failing
import HackStack.Proofs.Session.StartUp

/-!
# What a session counts

A command is counted by its kind before its code is found, and among the commands that were
translated only when its code is written. So the counters of a session tell apart what it was given
and what it has done, and they do so at every moment of it, with failures and all.

* `HackStack.Session.attempts` – the commands that a session is given by several actions, each with
  whether it was translated. A line that cannot be read gives it none, and the lines of a file are
  given to it up to the first that fails.
* `HackStack.Session.Counted` – that the counters of a session are the numbers of these commands by
  kind, with one more call for the start of the program, the number of files, and the number of
  instructions in the sink; and that the ordinals of comparisons have kept up with them.
* `HackStack.Session.ordinals_le` – that the ordinals which a session hands out are no more than
  these commands, so that 32 bits hold them unless there are `2 ^ 32 - 1` commands.

The main result is `HackStack.statistics_are_exact`. Every moment of a session is covered, those
within a file too: a file is entered, and then its lines are translated one by one.
-/

namespace HackStack

open Assembly

/-- A command declares a function. -/
def Command.isFunction : Command → Bool
  | function _ _ => true
  | push _ _ | pop _ _ | operate _ | label _ | goto _ | ifGoto _ | call _ _ | ret => false

/-- What is counted by kind, whatever the command. -/
theorem Statistics.countKind_def (statistics : Statistics) (c : Command) :
    statistics.countKind c = { statistics with
      functions := statistics.functions + if c.isFunction then 1 else 0
      calls := statistics.calls + if c.isCall then 1 else 0
      comparisons := statistics.comparisons + if c.isComparison then 1 else 0 } := by
  rcases c with _ | _ | (_ | _ | _) | _ | _ | _ | _ | _ | _ <;> rfl

/-- A command numbers a call if it is one. -/
theorem Standing.calls_behind_le (s : Standing) (c : Command) :
    (s.behind c).calls ≤ s.calls + if c.isCall then 1 else 0 := by
  rcases c with _ | _ | (_ | _ | _) | _ | _ | _ | _ | _ | _
  all_goals first | exact Nat.le_refl _ | exact Nat.zero_le _

namespace Session

/-! ### What a session is given -/

/-- **A command that a session was given**, and whether it was translated. -/
structure Attempt where
  command : Command
  succeeded : Bool
  deriving DecidableEq, Repr

/-- A file begins with the action. -/
def Action.beginsFile : Action → Bool
  | beginFile _ _ | source _ => true
  | line _ _ | command _ => false

section

variable {σ : Type} [Sink σ]

/-- The command that a session is given by a line, if there is one on it. -/
def attemptsOnLine (number : Nat) (text : String) (session : Session σ) : List Attempt :=
  match Command.read text with
  | .ok c => [⟨c, (line number text session).1.isOk⟩]
  | .error _ => []

/-- The commands that a session is given by numbered lines, up to the first failure. -/
def attemptsOnLines : List (Nat × String) → Session σ → List Attempt
  | [], _ => []
  | (number, text) :: rest, session =>
    attemptsOnLine number text session ++
      match line number text session with
      | (.ok (), session) => attemptsOnLines rest session
      | (.error _, _) => []

/-- The commands that a session is given by an action. -/
def attemptsIn (session : Session σ) : Action → List Attempt
  | .beginFile _ _ => []
  | .source source =>
    attemptsOnLines (Text.codeLines source.text) (beginFile source.file source.space session).2
  | .line number text => attemptsOnLine number text session
  | .command c => [⟨c, (command c session).1.isOk⟩]

/-- **The commands that a session is given** by several actions, of which any may have failed. -/
def attempts (session : Session σ) : List Action → List Attempt
  | [] => []
  | action :: rest => attemptsIn session action ++ attempts (perform action session).2 rest

end

/-! ### The invariant -/

/-- **The counters of a session are exact** for the files that were begun and the commands that the
session was given. -/
structure Counted (options : Options) (files : Nat) (attempts : List Attempt)
    (session : Session (Array Statement)) : Prop where
  files : session.statistics.files = files
  commands : session.statistics.commands = attempts.countP Attempt.succeeded
  instructions :
    session.statistics.instructions = session.sink.toList.countP Statement.isInstruction
  functions :
    session.statistics.functions = attempts.countP fun attempt => attempt.command.isFunction
  /-- The start of the program is a call. -/
  calls : session.statistics.calls =
    (if options.startUp then 1 else 0) + attempts.countP fun attempt => attempt.command.isCall
  comparisons :
    session.statistics.comparisons = attempts.countP fun attempt => attempt.command.isComparison
  /-- The ordinals that were handed out. -/
  ordinals : session.context.registry.comparisons =
    attempts.countP fun attempt => attempt.command.isComparison

namespace Counted

variable {options : Options} {files : Nat} {attempts : List Attempt}
  {session : Session (Array Statement)}

/-- Nothing is counted by where a session stands. -/
theorem withLocation (h : Counted options files attempts session) (location : Location) :
    Counted options files attempts { session with location } :=
  ⟨h.files, h.commands, h.instructions, h.functions, h.calls, h.comparisons, h.ordinals⟩

/-- **A command is counted** by its kind, and among the commands if it was translated. -/
theorem attempt (h : Counted options files attempts session) {c : Command} {succeeded : Bool}
    {session' : Session (Array Statement)}
    (hstatistics : session'.statistics = { session.statistics.countKind c with
      commands := session.statistics.commands + if succeeded then 1 else 0
      instructions := session'.sink.toList.countP Statement.isInstruction })
    (hordinals : session'.context.registry.comparisons =
      session.context.registry.comparisons + if c.isComparison then 1 else 0) :
    Counted options files (attempts ++ [⟨c, succeeded⟩]) session' := by
  rw [Statistics.countKind_def] at hstatistics
  constructor
  · rw [hstatistics]
    exact h.files
  · rw [hstatistics, List.countP_append, List.countP_singleton, ← h.commands]
  · rw [hstatistics]
  · rw [hstatistics, List.countP_append, List.countP_singleton, ← h.functions]
  · rw [hstatistics, List.countP_append, List.countP_singleton, ← Nat.add_assoc, ← h.calls]
  · rw [hstatistics, List.countP_append, List.countP_singleton, ← h.comparisons]
  · rw [hordinals, List.countP_append, List.countP_singleton, ← h.ordinals]

/-- **Every command** is counted, whether it fails or not. -/
theorem command (h : Counted options files attempts session) (c : Command) :
    Counted options files (attempts ++ [⟨c, (Session.command c session).1.isOk⟩])
      (Session.command c session).2 := by
  rcases Block.lowers_or_faults session.context c with
    ⟨block, context, hlowers⟩ | ⟨why, context, hfaults⟩
  · rw [command_ok hlowers.ofCommand]
    refine h.attempt ?_ ?_
    · -- A comment ahead of the code is no instruction.
      have hcode : (session.sink ++ (Site.code session.options.annotate
          ⟨session.context, .written c, block⟩).toArray).toList.countP Statement.isInstruction =
            session.sink.toList.countP Statement.isInstruction + size block := by
        rw [Array.toList_append, List.toList_toArray, List.countP_append]
        exact congrArg _ (Site.size_code _ _)
      rw [wrote, hcode, ← h.instructions, Statistics.countKind_def]
      rfl
    · exact (congrArg Standing.comparisons hlowers.standing_eq).trans
        (Standing.comparisons_behind _ c)
  · rw [command_error hfaults]
    refine h.attempt ?_ (Context.afterFault_of_faults hfaults).comparisons
    rw [← h.instructions, Statistics.countKind_def]
    rfl

/-- A line is counted as the command on it. -/
theorem line (h : Counted options files attempts session) (number : Nat) (text : String) :
    Counted options files (attempts ++ attemptsOnLine number text session)
      (Session.line number text session).2 := by
  rw [attemptsOnLine, line_apply]
  cases Command.read text with
  | ok c => exact (h.withLocation _).command c
  | error why => exact (List.append_nil attempts).symm ▸ h.withLocation _

/-- Lines are counted up to the first that fails. -/
theorem lines (h : Counted options files attempts session) (code : List (Nat × String)) :
    Counted options files (attempts ++ attemptsOnLines code session)
      (Session.lines code session).2 := by
  induction code generalizing attempts session with
  | nil => exact (List.append_nil attempts).symm ▸ h
  | cons first rest ih =>
    obtain ⟨number, text⟩ := first
    have hfirst := h.line number text
    rw [attemptsOnLines, Session.lines, Step.bind_apply, ← List.append_assoc]
    rcases hrun : Session.line number text session with ⟨why | _, between⟩
    · rw [hrun] at hfirst
      exact (List.append_nil _).symm ▸ hfirst
    · rw [hrun] at hfirst
      exact ih hfirst

/-- A file is counted where it begins. -/
theorem beginFile (h : Counted options files attempts session) (file space : String) :
    Counted options (files + 1) attempts (Session.beginFile file space session).2 :=
  ⟨congrArg (· + 1) h.files, h.commands, h.instructions, h.functions, h.calls, h.comparisons,
    h.ordinals⟩

/-- **Every action** is counted. -/
theorem perform (h : Counted options files attempts session) (action : Action) :
    Counted options (files + if action.beginsFile then 1 else 0)
      (attempts ++ attemptsIn session action) (Session.perform action session).2 := by
  cases action with
  | beginFile file space => exact (List.append_nil attempts).symm ▸ h.beginFile file space
  | source source =>
    exact (h.beginFile source.file source.space).lines (Text.codeLines source.text)
  | line number text => exact h.line number text
  | command c => exact h.command c

/-- **Sessions count exactly**, whatever is done with them. -/
theorem performAll (h : Counted options files attempts session) (actions : List Action) :
    Counted options (files + actions.countP Action.beginsFile)
      (attempts ++ session.attempts actions) (session.performAll actions) := by
  induction actions generalizing files attempts session with
  | nil => exact (List.append_nil attempts).symm ▸ h
  | cons action rest ih =>
    have hrest := ih (h.perform action)
    rw [Session.attempts, List.countP_cons, ← List.append_assoc, Nat.add_comm (List.countP _ _),
      ← Nat.add_assoc]
    exact hrest

end Counted

/-- A session that has been started has counted the start. -/
theorem counted_start {options : Options} {session : Session (Array Statement)}
    (h : start #[] options = .ok session) : Counted options 0 [] session := by
  have hrun := start_eq_ok_iff.mp h
  obtain ⟨sites, htranslates, hdone⟩ := translates_of_meetAll hrun
  -- The start is the program without files.
  have hevents : options.events = events [] options := (List.append_nil _).symm
  have hstatistics : session.statistics =
      statisticsOf [] options (size (sites.flatMap Site.block)) := by
    rw [statistics_of_meetAll htranslates hrun, hevents, tally_events]
    exact Statistics.empty_add _
  constructor
  · exact congrArg Statistics.files hstatistics
  · exact congrArg Statistics.commands hstatistics
  · rw [hstatistics, hdone.code_eq]
    exact (size_codeOf options.annotate sites).symm
  · exact congrArg Statistics.functions hstatistics
  · exact congrArg Statistics.calls hstatistics
  · exact congrArg Statistics.comparisons hstatistics
  · refine (congrArg Standing.comparisons htranslates.standing_eq).trans ?_
    rw [Options.events]
    cases options.startUp <;> rfl

/-! ### Ordinals -/

/-- **No more calls are numbered than are counted.** -/
def NumbersCalls (session : Session (Array Statement)) : Prop :=
  session.context.registry.calls ≤ session.statistics.calls

/-- A command numbers a call only if it is counted as one. -/
theorem NumbersCalls.command {session : Session (Array Statement)} (h : session.NumbersCalls)
    (c : Command) : (Session.command c session).2.NumbersCalls := by
  have hcounted : (session.statistics.countKind c).calls =
      session.statistics.calls + if c.isCall then 1 else 0 := by
    rw [Statistics.countKind_def]
  rcases Block.lowers_or_faults session.context c with
    ⟨block, context, hlowers⟩ | ⟨why, context, hfaults⟩
  · have hcalls : context.registry.calls ≤
        session.context.registry.calls + if c.isCall then 1 else 0 :=
      calc context.registry.calls
          = (session.context.standing.behind c).calls :=
            congrArg Standing.calls hlowers.standing_eq
        _ ≤ _ := Standing.calls_behind_le _ c
    rw [command_ok hlowers.ofCommand]
    exact hcalls.trans ((Nat.add_le_add_right h _).trans_eq hcounted.symm)
  · have hcalls : context.registry.calls ≤
        session.context.registry.calls + if c.isCall then 1 else 0 := by
      rw [(Context.afterFault_of_faults hfaults).calls]
      cases hcall : c.isCall <;> cases why.isDuplicateLabel <;> simp [hcall]
    rw [command_error hfaults]
    exact hcalls.trans ((Nat.add_le_add_right h _).trans_eq hcounted.symm)

/-- **Ordinals are small.** However a session is started, and whatever is done with it then, it has
numbered at most as many comparisons as it was given commands, and in a scope at most as many calls
and one for the start. So in a session that is given fewer than `2 ^ 32 - 1` commands, no ordinal is
too large for 32 bits. -/
theorem ordinals_le {options : Options} {session : Session (Array Statement)}
    (h : start #[] options = .ok session) (actions : List Action) :
    (session.performAll actions).context.registry.comparisons ≤ (session.attempts actions).length ∧
      (session.performAll actions).context.registry.calls ≤
        (session.attempts actions).length + 1 := by
  have hcounted := (counted_start h).performAll actions
  rw [List.nil_append] at hcounted
  have hstarted : session.NumbersCalls := by
    obtain ⟨sites, htranslates, -⟩ := translates_of_meetAll (start_eq_ok_iff.mp h)
    rw [NumbersCalls, (counted_start h).calls]
    refine (congrArg Standing.calls htranslates.standing_eq).trans_le ?_
    rw [Options.events]
    cases options.startUp <;> exact Nat.le_refl _
  have hnumbers : (session.performAll actions).NumbersCalls :=
    performAll_induction (fun _ _ h => h) (fun _ _ _ _ => Nat.zero_le _)
      (fun _ c h => h.command c) hstarted actions
  refine ⟨hcounted.ordinals.trans_le List.countP_le_length, hnumbers.trans ?_⟩
  rw [hcounted.calls, Nat.add_comm]
  refine Nat.add_le_add List.countP_le_length ?_
  cases options.startUp <;> decide

end Session

/-- **The statistics are exact in every session.** However a session is started, and whatever is
done with it then, whether its steps fail or not, the instructions that it has counted are those in
its sink, and the commands those that were translated. The comparisons, functions and calls are all
that it was given, with one more call for the start of the program, and there are as many ordinals
of comparisons, which fit in 32 bits if the session is given fewer than `2 ^ 32` of them. The files
are those that were begun. -/
theorem statistics_are_exact {options : Options} {session : Session (Array Statement)}
    (h : Session.start #[] options = .ok session) (actions : List Session.Action) :
    Session.Counted options (actions.countP Session.Action.beginsFile) (session.attempts actions)
      (session.performAll actions) := by
  have hcounted := (Session.counted_start h).performAll actions
  rw [Nat.zero_add, List.nil_append] at hcounted
  exact hcounted

/-- A function in a file behind the start, and a comparison that fails. -/
def clashingBehindStart : List Session.Action := .beginFile "Main.vm" "Main" :: clashing

/-- The comparison is counted as one, but not among the commands. -/
theorem statistics_are_exact_clashing : ∃ session : Session (Array Statement),
    Session.start #[] { startUp := true } = .ok session ∧
    session.attempts clashingBehindStart =
      [⟨.function "CMP.1.END" 0, true⟩, ⟨.operate (.comparison .eq), false⟩] ∧
    (session.performAll clashingBehindStart).statistics.files = 1 ∧
    (session.performAll clashingBehindStart).statistics.commands = 1 ∧
    (session.performAll clashingBehindStart).statistics.functions = 1 ∧
    (session.performAll clashingBehindStart).statistics.calls = 1 ∧
    (session.performAll clashingBehindStart).statistics.comparisons = 1 ∧
    (session.performAll clashingBehindStart).context.registry.comparisons = 1 := by
  -- Only the label of the start is declared where the file begins.
  obtain ⟨session, hrun, hdone⟩ := @Session.meetAll_translates (.fresh { startUp := true })
    [.startUp _ _] _ _ (.task (.startUp _ _) (@startUp_lowers { startUp := true } (by decide))
      (.nil _))
  have hstart : Session.start #[] { startUp := true } = .ok session :=
    Session.start_eq_ok_iff.mpr hrun
  have hfree : ∀ name : String, name ≠ startReturn →
      name ∉ session.context.registry.declared := fun name hne => by
    rw [hdone.context, Context.mem_started]
    exact hne
  let begun : Session (Array Statement) := (Session.beginFile "Main.vm" "Main" session).2
  obtain ⟨between, context, hfirst, hfaults, -⟩ := @Session.exists_clash begun
    (congrArg (fun context => context.registry.comparisons) hdone.context)
    (hfree _ (by decide)) (hfree _ (by decide))
  have hsecond : Session.command (.operate (.comparison .eq)) between = _ :=
    Session.command_error hfaults
  have hattempts : session.attempts clashingBehindStart =
      [⟨.function "CMP.1.END" 0, true⟩, ⟨.operate (.comparison .eq), false⟩] := by
    change Session.attempts begun clashing = _
    rw [clashing, Session.attempts, Session.attempts, Session.attempts, Session.attemptsIn,
      Session.attemptsIn, Session.perform, hfirst, hsecond]
    rfl
  have hcounted := statistics_are_exact hstart clashingBehindStart
  rw [hattempts] at hcounted
  exact ⟨session, hstart, hattempts, hcounted.files, hcounted.commands, hcounted.functions,
    hcounted.calls, hcounted.comparisons, hcounted.ordinals⟩

end HackStack
