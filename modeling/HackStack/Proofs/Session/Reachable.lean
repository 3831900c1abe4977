import HackStack.Proofs.Block.Faulting
import HackStack.Proofs.Session.Run

/-!
# Sessions that go on after failures

A session may be used step by step, with commands that no reader has seen, and a step that fails
leaves it as it is at that moment: an ordinal may have been handed out, and the first label of a
comparison may have been declared when the second is refused. This file says what holds all the
same.

* `HackStack.Session.Action` – what one can do with a session, and `HackStack.Session.performAll`;
* `HackStack.Session.performAll_induction` – what every command keeps is kept by all of these;
* `HackStack.Session.Flawless` – that no step of several fails;
* `HackStack.Session.Sound` – that labels are unique and declared, the invariant of every step.

Names play no role in this: a function may be called like the label of a comparison, and then it is
the comparison that fails. The main result is `HackStack.labels_unique`.
-/

namespace HackStack

open Assembly

namespace Session

/-! ### Actions -/

/-- **What one can do with a session.** -/
inductive Action
  /-- Enter a file, whose static variables live in `space`. -/
  | beginFile (file space : String)
  /-- Translate a file, up to the first line that fails. -/
  | source (source : Source)
  /-- Read a command and translate it. -/
  | line (number : Nat) (text : String)
  /-- Translate a command, whatever it holds. -/
  | command (c : Command)
  deriving DecidableEq, Repr

section

variable {σ : Type} [Sink σ]

/-- The step of a session that an action is. -/
def perform : Action → SessionStep σ Unit
  | .beginFile file space => beginFile file space
  | .source source => Session.source source
  | .line number text => line number text
  | .command c => command c

/-- **The session behind several actions**, of which any may have failed. -/
def performAll (session : Session σ) : List Action → Session σ
  | [] => session
  | action :: rest => performAll (perform action session).2 rest

/-- None of several actions fails. -/
def Flawless (session : Session σ) : List Action → Prop
  | [] => True
  | action :: rest => (perform action session).1 = .ok () ∧ Flawless (perform action session).2 rest

/-- **What every command keeps is kept by every action**, if it depends neither on where the session
stands nor on the file that it has entered. -/
theorem performAll_induction {P : Session σ → Prop} {session : Session σ}
    (hplace : ∀ session location, P session → P { session with location })
    (hfile : ∀ session file space, P session → P (beginFile file space session).2)
    (hcommand : ∀ session c, P session → P (command c session).2) (h : P session)
    (actions : List Action) : P (session.performAll actions) := by
  have hline : ∀ session number text, P session → P (line number text session).2 := by
    intro session number text h
    rw [line_apply]
    cases Command.read text with
    | ok c => exact hcommand _ c (hplace _ _ h)
    | error why => exact hplace _ _ h
  have hlines : ∀ code session, P session → P (lines code session).2 := by
    intro code
    induction code with
    | nil => exact fun _ h => h
    | cons first rest ih =>
      intro session h
      have hfirst := hline session first.1 first.2 h
      rw [lines, Step.bind_apply]
      rcases hrun : line first.1 first.2 session with ⟨why | _, between⟩
      · rwa [hrun] at hfirst
      · rw [hrun] at hfirst
        exact ih between hfirst
  induction actions generalizing session with
  | nil => exact h
  | cons action rest ih =>
    refine ih ?_
    cases action with
    | beginFile file space => exact hfile session file space h
    | source source =>
      exact hlines (Text.codeLines source.text) _ (hfile session source.file source.space h)
    | line number text => exact hline session number text h
    | command c => exact hcommand session c h

end

/-! ### The invariant -/

/-- **The labels of a session are sound**: they are different, they are declared, and if all has
gone well until now, nothing else is declared. -/
structure Sound (session : Session (Array Statement)) (flawless : Prop) : Prop where
  nodup : (labelNames session.sink.toList).Nodup
  declared : ∀ name ∈ labelNames session.sink.toList, name ∈ session.context.registry.declared
  exact : flawless → ∀ name : String, name ∈ session.context.registry.declared →
    name ∈ labelNames session.sink.toList

/-- **A step preserves soundness**, and if it fails, then all has not gone well. -/
def Preserves (step : SessionStep (Array Statement) Unit) : Prop :=
  ∀ (session : Session (Array Statement)) (flawless : Prop), session.Sound flawless →
    (step session).2.Sound (flawless ∧ (step session).1 = .ok ())

theorem Sound.mono {session : Session (Array Statement)} {flawless flawless' : Prop}
    (h : session.Sound flawless) (himp : flawless' → flawless) : session.Sound flawless' :=
  ⟨h.nodup, h.declared, fun hok => h.exact (himp hok)⟩

/-- A failure that writes nothing is sound, as long as no name is given back. -/
theorem Sound.of_error {session : Session (Array Statement)} {flawless : Prop}
    (h : session.Sound flawless) {left : Except Failure Unit × Session (Array Statement)}
    (herror : left.1 ≠ .ok ()) (hsink : left.2.sink = session.sink)
    (hdeclared : ∀ name : String, name ∈ session.context.registry.declared →
      name ∈ left.2.context.registry.declared) :
    left.2.Sound (flawless ∧ left.1 = .ok ()) where
  nodup := hsink ▸ h.nodup
  declared name hname := hdeclared name (h.declared name (hsink ▸ hname))
  exact hok := absurd hok.2 herror

/-- Steps that preserve soundness do so one after the other. -/
theorem Preserves.bind {first second : SessionStep (Array Statement) Unit} (h : Preserves first)
    (h' : Preserves second) : Preserves (first >>= fun _ => second) := by
  intro session flawless hsound
  have hfirst := h session flawless hsound
  rw [Step.bind_apply]
  rcases hrun : first session with ⟨why | _, between⟩
  · rw [hrun] at hfirst
    exact hfirst.mono fun hok => ⟨hok.1, absurd hok.2 (by simp)⟩
  · rw [hrun] at hfirst
    exact (h' between _ hfirst).mono fun hok => ⟨⟨hok.1, rfl⟩, hok.2⟩

/-! ### Each step -/

/-- A command that faults changes the context and what was counted. -/
theorem command_error {σ : Type} [Sink σ] {session : Session σ} {c : Command} {why : Fault}
    {context : Context} (h : Block.Faults session.context c why context) :
    command c session = (.error (.fault session.location why),
      { session with context, statistics := session.statistics.countKind c }) := by
  have hlower : lower (Block.ofCommand c)
      { session with statistics := session.statistics.countKind c } =
        (.error (.fault session.location why), _) := lower_error h.ofCommand
  rw [command, count, Step.change_bind, Step.bind_apply, hlower]

/-- **A command** places labels that were free, and declares them. -/
theorem preserves_command (c : Command) : Preserves (command c) := by
  intro session flawless hsound
  rcases Block.lowers_or_faults session.context c with
    ⟨block, context, hlowers⟩ | ⟨why, context, hfaults⟩
  · -- What is declared and what is written are the same labels.
    rw [command_ok hlowers.ofCommand]
    have hlabels : labelNames (session.sink ++ (Site.code session.options.annotate
        ⟨session.context, .written c, block⟩).toArray).toList =
          labelNames session.sink.toList ++ session.context.standing.names c := by
      rw [Array.toList_append, labelNames_append, List.toList_toArray, Site.labelNames_code,
        hlowers.labelNames_eq]
    refine ⟨?_, fun name hname => ?_, fun hok name hname => ?_⟩
    · rw [wrote, hlabels]
      refine List.nodup_append.mpr ⟨hsound.nodup, hlowers.nodup, ?_⟩
      rintro name hold _ hnew rfl
      exact hlowers.free hnew (hsound.declared name hold)
    · rw [wrote, hlabels] at hname
      exact hlowers.mem_declared.mpr
        ((List.mem_append.mp hname).imp_left (hsound.declared name))
    · rw [wrote, hlabels]
      exact List.mem_append.mpr
        ((hlowers.mem_declared.mp hname).imp_left (hsound.exact hok.1 name))
  · -- A name may be left declared, but nothing is written.
    rw [command_error hfaults]
    have hleft := Context.afterFault_of_faults hfaults
    refine hsound.of_error ?_ rfl fun name hname => (hleft.declared name).mpr (Or.inl hname)
    simp

/-- A line is a command, or it cannot be read. -/
theorem preserves_line (number : Nat) (text : String) : Preserves (line number text) := by
  intro session flawless hsound
  rw [line_apply]
  cases Command.read text with
  | ok c => exact preserves_command c _ _ ⟨hsound.nodup, hsound.declared, hsound.exact⟩
  | error why =>
    refine hsound.of_error ?_ rfl fun name hname => hname
    simp

theorem preserves_lines (code : List (Nat × String)) : Preserves (lines code) := by
  induction code with
  | nil => exact fun session flawless hsound => hsound.mono And.left
  | cons first rest ih => exact (preserves_line first.1 first.2).bind ih

/-- A file is entered without any label. -/
theorem preserves_beginFile (file space : String) : Preserves (beginFile file space) :=
  fun _ _ hsound => ⟨hsound.nodup, hsound.declared, fun hok => hsound.exact hok.1⟩

/-- **Every action** preserves soundness. -/
theorem preserves_perform (action : Action) : Preserves (perform action) := by
  cases action with
  | beginFile file space => exact preserves_beginFile file space
  | source source =>
    exact (preserves_beginFile source.file source.space).bind
      (preserves_lines (Text.codeLines source.text))
  | line number text => exact preserves_line number text
  | command c => exact preserves_command c

/-- **Sessions stay sound**, whatever is done with them. -/
theorem Sound.performAll {session : Session (Array Statement)} {flawless : Prop}
    (h : session.Sound flawless) (actions : List Action) :
    (session.performAll actions).Sound (flawless ∧ session.Flawless actions) := by
  induction actions generalizing session flawless with
  | nil => exact h.mono And.left
  | cons action rest ih =>
    exact (ih (preserves_perform action session flawless h)).mono fun hok =>
      ⟨⟨hok.1, hok.2.1⟩, hok.2.2⟩

/-- A session has been started if it has met the events of the start. -/
theorem start_eq_ok_iff {options : Options} {session : Session (Array Statement)} :
    start #[] options = .ok session ↔
      meetAll options.events (.fresh options) = (.ok (), session) := by
  have hfresh : ({ sink := #[], options } : Session (Array Statement)) = .fresh options := rfl
  rw [start, prologue_eq, hfresh]
  rcases meetAll options.events (.fresh options) with ⟨why | _, session'⟩
  · exact ⟨fun h => absurd h (by simp), fun h => absurd (Prod.mk.inj h).1 (by simp)⟩
  · exact ⟨fun h => Except.ok.inj h ▸ rfl, fun h => (Prod.mk.inj h).2 ▸ rfl⟩

/-- A session that has been started is sound. -/
theorem sound_start {options : Options} {session : Session (Array Statement)}
    (h : start #[] options = .ok session) : session.Sound True := by
  obtain ⟨sites, htranslates, hdone⟩ := translates_of_meetAll (start_eq_ok_iff.mp h)
  have hlabels : labelNames session.sink.toList = Standing.rendered {} options.events := by
    rw [hdone.code_eq, labelNames_codeOf, htranslates.labelNames_eq]
    rfl
  have hdeclared : ∀ name : String, name ∈ session.context.registry.declared ↔
      name ∈ labelNames session.sink.toList := by
    intro name
    rw [hlabels]
    exact htranslates.mem_declared.trans (or_iff_right Std.HashSet.not_mem_empty)
  refine ⟨?_, fun name => (hdeclared name).mpr, fun _ name => (hdeclared name).mp⟩
  rw [hdone.code_eq]
  exact labelNames_codeOf options.annotate sites ▸ htranslates.nodup.1

end Session

/-- **Labels are unique in every session.** However a session is started, and whatever is done with
it then, the labels that it has written are all different, and their names are declared. If no step
has failed until now, then nothing else is declared. -/
theorem labels_unique {options : Options} {session : Session (Array Statement)}
    (h : Session.start #[] options = .ok session) (actions : List Session.Action) :
    (labelNames (session.performAll actions).sink.toList).Nodup ∧
      (∀ name ∈ labelNames (session.performAll actions).sink.toList,
        name ∈ (session.performAll actions).context.registry.declared) ∧
      (session.Flawless actions → ∀ name : String,
        name ∈ (session.performAll actions).context.registry.declared ↔
          name ∈ labelNames (session.performAll actions).sink.toList) := by
  have hsound := (Session.sound_start h).performAll actions
  refine ⟨hsound.nodup, hsound.declared, fun hflawless name => ?_⟩
  exact ⟨hsound.exact ⟨trivial, hflawless⟩ name, hsound.declared name⟩

/-- A function that is called like a label of the comparison behind it. -/
def clashing : List Session.Action :=
  [.command (.function "CMP.1.END" 0), .command (.operate (.comparison .eq))]

/-- The comparison fails with one of its labels declared. The labels that were written are unique,
but they are not all that is declared. -/
theorem labels_unique_clashing :
    ∃ session, Session.start #[] {} = .ok session ∧ ¬session.Flawless clashing ∧
      (labelNames (session.performAll clashing).sink.toList).Nodup ∧
      "CMP.1.TRUE" ∈ (session.performAll clashing).context.registry.declared ∧
      "CMP.1.TRUE" ∉ labelNames (session.performAll clashing).sink.toList := by
  have hnone : ∀ label : Label, ¬Context.Taken {} label := fun _ => Std.HashSet.not_mem_empty
  have hstart : Session.start #[] {} = .ok (.fresh {}) := rfl
  obtain ⟨between, hfirst, hcontext, hlabels⟩ : ∃ between,
      Session.perform (.command (.function "CMP.1.END" 0)) (.fresh {}) = (.ok (), between) ∧
        between.context = (Context.declaring {} "CMP.1.END").enterBody "CMP.1.END" ∧
        labelNames between.sink.toList = ["CMP.1.END"] :=
    ⟨_, Session.command_ok (Block.Lowers.function (hnone _)).ofCommand, rfl, rfl⟩
  -- The first label of the comparison is free, and the second is not.
  obtain ⟨why, context, hfaults, hdeclared⟩ : ∃ why context,
      Block.Faults between.context (.operate (.comparison .eq)) why context ∧
        "CMP.1.TRUE" ∈ context.registry.declared := by
    rw [hcontext]
    exact ⟨_, _, .comparisonDone .eq (Context.not_taken_declaring (by decide) (hnone _))
      (Context.mem_declaring.mpr (Or.inl rfl)),
      Context.mem_declaring.mpr (Or.inr (Context.mem_declaring.mpr (Or.inl rfl)))⟩
  have hsecond : Session.perform (.command (.operate (.comparison .eq))) between = _ :=
    Session.command_error hfaults
  have hbehind : Session.performAll (.fresh {}) clashing =
      { between with
        context, statistics := between.statistics.countKind (.operate (.comparison .eq)) } := by
    rw [clashing, Session.performAll, hfirst, Session.performAll, hsecond, Session.performAll]
  refine ⟨_, hstart, fun hflawless => ?_, (labels_unique hstart clashing).1, ?_, ?_⟩
  · rw [clashing, Session.Flawless, hfirst, Session.Flawless, hsecond] at hflawless
    exact absurd hflawless.2.1 (by simp)
  · rw [hbehind]
    exact hdeclared
  · rw [hbehind, hlabels]
    decide

end HackStack
