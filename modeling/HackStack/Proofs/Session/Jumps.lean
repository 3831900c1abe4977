import HackStack.Proofs.Session.Run
import HackStack.Proofs.Session.Scopes

/-!
# Where jumps lead

A jump names its target as a label of the scope that it stands in, and does not ask whether there is
such a label. It is the assembler that finds out, and all that it has is the name. So a jump leads
to whatever label is called like that.

* `HackStack.Block.JumpsTo` – the operand of the jump that a block ends with;
* `HackStack.LabelledIn` – that the labels with a name all come from one scope.

A jump stays in its scope as long as scopes are told apart by their names and its target is not
called like a return address (`HackStack.jump_stays`). A `$` in the name of a function is enough for
a jump to leave it (`HackStack.exists_escaping_jump`).
-/

namespace HackStack

open Assembly Statement

/-- The label that a command jumps to. -/
def Command.jumpTarget? : Command → Option String
  | goto target | ifGoto target => some target
  | push _ _ | pop _ _ | operate _ | label _ | function _ _ | call _ _ | ret => none

/-- **A block ends with a jump** to an operand. -/
def Block.JumpsTo (block : Block) (operand : String) : Prop :=
  ∃ front value jump, block = front ++ [symbol operand, branch value jump]

/-- A block ends with one jump at most. -/
theorem Block.JumpsTo.unique {block : Block} {operand other : String} (h : block.JumpsTo operand)
    (h' : block.JumpsTo other) : operand = other := by
  obtain ⟨front, value, jump, rfl⟩ := h
  obtain ⟨front', value', jump', he⟩ := h'
  obtain ⟨-, hends⟩ := List.append_inj' he rfl
  obtain ⟨hsymbol, -⟩ := List.cons.inj hends
  cases hsymbol
  rfl

/-- **The labels of a program with a name** are all written by `label target` in a scope. -/
def LabelledIn (sources : List Source) (options : Options) (scope : Scope)
    (target name : String) : Prop :=
  ∀ (k : Nat) (site : Site), (sitesOf {} (events sources options))[k]? = some site →
    name ∈ labelNames site.block →
    ∃ s : Standing, s.scope = scope ∧
      (Standing.tasks {} (events sources options))[k]? = some (s, .written (.label target))

section

variable {sources : List Source} {options : Options}

/-- **A site belongs to a task**, and was found in a context with what stands before the task. -/
theorem Translates.getElem?_sites {sites : List Site} {context : Context}
    (h : Translates {} (events sources options) sites context) (k : Nat) :
    (Standing.tasks {} (events sources options))[k]? =
      sites[k]?.map fun site => (site.context.standing, site.task) := by
  have htasks : _ = Standing.tasks {} (events sources options) := h.tasks_eq
  rw [← htasks, List.getElem?_map]

/-- **What a jump is translated to**: a branch to the label of its scope. -/
theorem Block.Lowers.jumpsTo {context context' : Context} {c : Command} {block : Block}
    {target : String} (h : Lowers context c block context') (hc : c.jumpTarget? = some target) :
    block.JumpsTo (context.userLabel target).render := by
  cases h with
  | goto other =>
    obtain rfl := Option.some.inj hc
    exact ⟨[], .zero, .always, rfl⟩
  | ifGoto other =>
    obtain rfl := Option.some.inj hc
    exact ⟨popD, .d, .ne, rfl⟩
  | _ => cases hc

/-- **Labels of one scope are called like no others**, as long as scopes are told apart by their
names, and but for return addresses. -/
theorem ScopesApart.labelledIn (h : ScopesApart sources) {sites : List Site} {context : Context}
    (htranslates : Translates {} (events sources options) sites context) {scope : Scope}
    (hscope : scope.OccursIn sources) (hne : scope ≠ .startUp) {target : String}
    (htarget : ∀ ordinal, target ≠ Label.returnName ordinal) :
    LabelledIn sources options scope target (Label.user scope target).render := by
  intro k site hsite hname
  rw [htranslates.sitesOf_eq] at hsite
  obtain ⟨between, hlowers⟩ := htranslates.lowers site (List.mem_of_getElem? hsite)
  have hentry := htranslates.getElem?_sites k
  rw [hsite, Option.map_some] at hentry
  have hmem := List.mem_of_getElem? hentry
  rw [hlowers.labelNames_eq] at hname
  obtain ⟨label, hlabel, he⟩ := List.mem_map.mp hname
  have hoccurs : label.OccursIn sources :=
    occursIn_of_mem_placed (Standing.mem_placed.mpr ⟨_, hmem, hlabel⟩)
  have hdollar : '$' ∉ (Label.user scope target).head.toList := h.dollar_not_mem_qualifier hscope
  obtain ⟨hhead, htail⟩ :=
    (Label.render_eq_render_iff (h.dollar_not_mem_head hoccurs) hdollar).mp he
  -- Only a label of the source has the right tail.
  cases label with
  | entry name => cases htail
  | compare ordinal branch => cases htail
  | returnTo other ordinal => exact absurd (Option.some.inj htail).symm (htarget ordinal)
  | user other name =>
    obtain rfl : name = target := Option.some.inj htail
    obtain ⟨hc, rfl⟩ := Standing.user_mem_labels.mp hlabel
    cases htask : site.task with
    | startUp stackBase entry =>
      rw [htask] at hc
      cases hc
    | written c =>
      rw [htask] at hc hentry hmem
      obtain rfl : c = .label name := hc
      refine ⟨_, ?_, hentry⟩
      exact h.eq_of_qualifier_eq (scope_occursIn hmem) hscope (scope_ne_startUp hmem) hne hhead

/-- **Jumps stay in their scope.** In a program whose scopes are told apart by their names, let a
jump have a target that is not called like a return address. Then the operand of the jump is the
name of no label but the target, declared in the scope of the jump. -/
theorem jump_stays {t : Translation} (ht : translate sources options = .ok t)
    (h : ScopesApart sources) {k : Nat} {s : Standing} {c : Command} {target : String}
    (hjump : (Standing.tasks {} (events sources options))[k]? = some (s, .written c))
    (hc : c.jumpTarget? = some target) (htarget : ∀ ordinal, target ≠ Label.returnName ordinal) :
    t.code.toList = codeOf options.annotate (sitesOf {} (events sources options)) ∧
    ∃ site operand, (sitesOf {} (events sources options))[k]? = some site ∧
      site.block.JumpsTo operand ∧ LabelledIn sources options s.scope target operand := by
  obtain ⟨sites, context, -, htranslates, -⟩ := translates_of_translate ht
  have hmem := List.mem_of_getElem? hjump
  rw [htranslates.sitesOf_eq]
  refine ⟨htranslates.code_eq ht, ?_⟩
  rw [htranslates.getElem?_sites] at hjump
  obtain ⟨site, hsite, hentry⟩ := Option.map_eq_some_iff.mp hjump
  obtain ⟨rfl, htask⟩ := Prod.mk.inj hentry
  obtain ⟨between, hlowers⟩ := htranslates.lowers site (List.mem_of_getElem? hsite)
  rw [htask] at hlowers
  cases hlowers with
  | written hlowers =>
    refine ⟨site, _, hsite, hlowers.jumpsTo hc, ?_⟩
    exact h.labelledIn htranslates (scope_occursIn hmem) (scope_ne_startUp hmem) htarget

end

/-! ### Two programs -/

/-- A function that loops. -/
def looping : List Source :=
  [⟨"Main.vm", "Main", "function Main.main 0\nlabel LOOP\ngoto LOOP"⟩]

/-- The jump leads to the label above it. -/
theorem jump_stays_looping :
    ∃ t site label, translate looping {} = .ok t ∧
      (sitesOf {} (events looping {}))[2]? = some site ∧
      site.block.JumpsTo "Main.main$LOOP" ∧
      LabelledIn looping {} (.function "Main.main") "LOOP" "Main.main$LOOP" ∧
      (sitesOf {} (events looping {}))[1]? = some label ∧
      "Main.main$LOOP" ∈ labelNames label.block := by
  have hnone : ∀ label : Label, ¬Context.Taken {} label := fun _ => Std.HashSet.not_mem_empty
  obtain ⟨sites, context, htranslates, hblocks⟩ : ∃ sites context,
      Translates {} (events looping {}) sites context ∧ sites.map Site.block =
        [[label "Main.main"], [label "Main.main$LOOP"],
          [symbol "Main.main$LOOP", branch .zero .always]] := by
    refine ⟨_, _, .file (.task (.line 1 (c := .function "Main.main" 0) rfl)
        (.written (.function (hnone _)))
      (.task (.line 2 (c := .label "LOOP") rfl) (.written (.label ?_))
      (.task (.line 3 (c := .goto "LOOP") rfl) (.written (.goto "LOOP")) (.nil _)))), rfl⟩
    exact Context.not_taken_declaring (by decide) (hnone _)
  obtain ⟨session, -, ht, -⟩ := translate_of_translates htranslates
  obtain ⟨-, site, operand, hsite, hjumps, hlabelled⟩ := jump_stays ht
    ⟨by decide, by decide, by decide, by decide⟩ (k := 2) (c := .goto "LOOP") (s := _) rfl rfl
    (Label.ne_returnName (by decide))
  rw [htranslates.sitesOf_eq] at hsite ⊢
  obtain ⟨_, hjump, hblock⟩ := exists_site hblocks (k := 2) rfl
  obtain rfl := Option.some.inj (hsite.symm.trans hjump)
  obtain rfl : operand = "Main.main$LOOP" := hjumps.unique (hblock ▸ ⟨[], .zero, .always, rfl⟩)
  obtain ⟨label, hlabel, hname⟩ := exists_site hblocks (k := 1) rfl
  refine ⟨_, site, label, ht, hsite, hjumps, hlabelled, hlabel, ?_⟩
  rw [hname]
  decide

/-- A function whose name holds a `$`, and a label whose name does. -/
def escaping : List Source :=
  [⟨"Main.vm", "Main", "function A$B 0\ngoto C\nfunction A 0\nlabel B$C\npush constant 7"⟩]

/-- **A jump may leave its function.** The operand of the jump is the name of a label that stands in
another function, and that is called differently there. -/
theorem exists_escaping_jump :
    ∃ t s site operand, translate escaping {} = .ok t ∧
      (Standing.tasks {} (events escaping {}))[1]? = some (s, .written (.goto "C")) ∧
      (sitesOf {} (events escaping {}))[1]? = some site ∧ site.block.JumpsTo operand ∧
      ¬LabelledIn escaping {} s.scope "C" operand := by
  have hnone : ∀ label : Label, ¬Context.Taken {} label := fun _ => Std.HashSet.not_mem_empty
  obtain ⟨sites, context, htranslates, hsites⟩ : ∃ sites context,
      Translates {} (events escaping {}) sites context ∧
        (sites.take 4).map (fun site => (site.task, site.block)) =
          [(.written (.function "A$B" 0), [label "A$B"]),
            (.written (.goto "C"), [symbol "A$B$C", branch .zero .always]),
            (.written (.function "A" 0), [label "A"]),
            (.written (.label "B$C"), [label "A$B$C"])] := by
    refine ⟨_, _, .file (.task (.line 1 (c := .function "A$B" 0) rfl)
        (.written (.function (hnone _)))
      (.task (.line 2 (c := .goto "C") rfl) (.written (.goto "C"))
      (.task (.line 3 (c := .function "A" 0) rfl) (.written (.function ?_))
      (.task (.line 4 (c := .label "B$C") rfl) (.written (.label ?_))
      (.task (.line 5 (c := .push .constant 7) rfl) (.written (.push rfl)) (.nil _)))))), rfl⟩
    · exact Context.not_taken_declaring (by decide) (hnone _)
    · exact Context.not_taken_declaring (by decide)
        (Context.not_taken_declaring (by decide) (hnone _))
  obtain ⟨session, -, ht, -⟩ := translate_of_translates htranslates
  obtain ⟨site, hsite, hpair⟩ := exists_site hsites (k := 1) rfl
  obtain ⟨htask, hblock⟩ := Prod.mk.inj hpair
  obtain ⟨label, hlabel, hpair'⟩ := exists_site hsites (k := 3) rfl
  obtain ⟨htask', hblock'⟩ := Prod.mk.inj hpair'
  rw [List.getElem?_take_of_lt (by decide)] at hsite hlabel
  have hjumps : site.block.JumpsTo "A$B$C" := hblock ▸ ⟨[], .zero, .always, rfl⟩
  rw [htranslates.sitesOf_eq, htranslates.getElem?_sites, hsite, Option.map_some, htask]
  refine ⟨_, _, site, _, ht, rfl, rfl, hjumps, fun h => ?_⟩
  -- The label with this name is written by a `label` with another.
  obtain ⟨s, -, hwritten⟩ := h 3 label (htranslates.sitesOf_eq ▸ hlabel) (by rw [hblock']; decide)
  rw [htranslates.getElem?_sites, hlabel, Option.map_some, htask'] at hwritten
  exact absurd hwritten (by simp)

end HackStack
