import HackStack.Proofs.Session.Reachable
import HackStack.Proofs.Text.Edits

/-!
# Sources with another layout

Of a line of code a session sees its number and its words. The number goes nowhere but into the
location, and the location nowhere but into an error. So a session that translates a text after
edits of its layout does what it would have done before, with other numbers
(`HackStack.Session.source_renumber`): numbering the lines in another way commutes with every step.

The main result is `HackStack.layout_does_not_matter`, for every text, any edits, and every state of
a session.
-/

namespace HackStack

open Assembly

/-! ### Other numbers -/

/-- The location with the number that its line has been moved to. -/
def Location.renumber (moved : Nat → Nat) (place : Location) : Location :=
  place.withLine (moved place.line)

/-- The failure at the line that has been moved. -/
def Failure.renumber (moved : Nat → Nat) : Failure → Failure
  | fault place why => fault (place.renumber moved) why
  | output detail => output detail

namespace Session

variable {σ : Type}

/-- The session at the line that has been moved. -/
def renumber (moved : Nat → Nat) (session : Session σ) : Session σ :=
  { session with location := session.location.renumber moved }

/-- What a step has come to, with other numbers. -/
def renumbered (moved : Nat → Nat) (done : Except Failure Unit × Session σ) :
    Except Failure Unit × Session σ :=
  (done.1.mapError (Failure.renumber moved), done.2.renumber moved)

variable [Sink σ] {moved : Nat → Nat}

/-- **A command commutes with numbering**: it sees no number of a line, and fails where the session
stands. -/
theorem command_renumber (moved : Nat → Nat) (c : Command) (session : Session σ) :
    command c (session.renumber moved) = renumbered moved (command c session) := by
  have happly := fun session : Session σ => lowered_apply (Block.ofCommand c) c.render
    (fun statistics => { statistics with commands := statistics.commands + 1 })
    { session with statistics := session.statistics.countKind c }
  refine (happly (session.renumber moved)).trans
    (Eq.trans ?_ (congrArg (renumbered moved) (happly session)).symm)
  have hsame : (session.renumber moved).context = session.context ∧
      (session.renumber moved).sink = session.sink ∧
      (session.renumber moved).options = session.options := ⟨rfl, rfl, rfl⟩
  obtain ⟨hcontext, hsink, hoptions⟩ := hsame
  dsimp only
  rw [hcontext, hsink, hoptions]
  rcases Block.ofCommand c session.context with ⟨why | block, context⟩
  · rfl
  · dsimp only
    generalize (if session.options.annotate then [Statement.comment c.render] else []) ++ block =
      statements
    rcases Sink.writeAll statements session.sink with ⟨detail | _, sink⟩ <;> rfl

/-- **A line commutes with numbering**, if it is numbered as it was moved and has the same words. -/
theorem line_renumber {number : Nat} {text text' : String}
    (h : Text.words text'.toList = Text.words text.toList) (session : Session σ) :
    line (moved number) text' (session.renumber moved) =
      renumbered moved (line number text session) := by
  have hread : Command.read text' = Command.read text := by
    rw [Command.read, Command.read, h]
  rw [line_apply, line_apply, hread]
  cases Command.read text with
  | error why => rfl
  | ok c =>
    exact command_renumber moved c
      { session with location := session.location.withLine number }

/-- **Lines commute with numbering**, up to the first failure. -/
theorem lines_renumber {code code' : List (Nat × String)}
    (h : code'.map (fun line => (line.1, Text.words line.2.toList)) =
      (code.map fun line => (line.1, Text.words line.2.toList)).map (Prod.map moved id))
    (session : Session σ) :
    lines code' (session.renumber moved) = renumbered moved (lines code session) := by
  induction code generalizing code' session with
  | nil =>
    obtain rfl : code' = [] := List.map_eq_nil_iff.mp h
    rfl
  | cons first rest ih =>
    obtain ⟨⟨number', text'⟩, rest', rfl, hfirst, hrest⟩ := List.map_eq_cons_iff.mp h
    obtain ⟨number, text⟩ := first
    obtain ⟨rfl, hwords⟩ := Prod.mk.inj hfirst
    rw [lines, lines, Step.bind_apply, Step.bind_apply, line_renumber hwords]
    rcases line number text session with ⟨why | _, between⟩
    · rfl
    · exact ih hrest between

/-- **A source commutes with numbering**: a session that translates a text whose lines of code have
the same words does the same, and only the numbers of the lines are others. -/
theorem source_renumber {text text' : String} (hzero : moved 0 = 0)
    (h : Text.wordsFrom 1 (Text.lines text') =
      (Text.wordsFrom 1 (Text.lines text)).map (Prod.map moved id))
    (file space : String) (session : Session σ) :
    source ⟨file, space, text'⟩ session =
      renumbered moved (source ⟨file, space, text⟩ session) := by
  -- A file begins at its line 0, which stays where it is.
  let begun := (beginFile file space session).2
  have hbegun : begun.renumber moved = begun :=
    congrArg (fun number => { begun with location := ⟨file, number⟩ }) hzero
  rw [← Text.map_codeFrom, ← Text.map_codeFrom] at h
  have hlines := lines_renumber h begun
  rw [hbegun] at hlines
  exact hlines

/-! ### Where a source fails -/

/-- A line that fails does so with a fault at its number, and one that does not stays in its
file. -/
theorem line_cases (number : Nat) (text : String) (session : Session (Array Statement)) :
    (∃ session', line number text session = (.ok (), session') ∧
      session'.location = session.location.withLine number) ∨
    ∃ why session', line number text session =
      (.error (.fault (session.location.withLine number) why), session') := by
  rw [line_apply]
  cases Command.read text with
  | error why => exact Or.inr ⟨why, _, rfl⟩
  | ok c =>
    rcases Block.lowers_or_faults session.context c with
      ⟨block, context, hlowers⟩ | ⟨why, context, hfaults⟩
    · refine Or.inl ⟨_, command_ok hlowers.ofCommand, rfl⟩
    · exact Or.inr ⟨why, _, command_error hfaults⟩

/-- **Lines fail with a fault** on one of them. -/
theorem exists_line_of_lines {code : List (Nat × String)} {session : Session (Array Statement)}
    {e : Failure} (h : (lines code session).1 = .error e) :
    ∃ line ∈ code, ∃ why, e = .fault (session.location.withLine line.1) why := by
  induction code generalizing session with
  | nil => exact absurd h (by simp [lines])
  | cons first rest ih =>
    obtain ⟨number, text⟩ := first
    rw [lines, Step.bind_apply] at h
    rcases line_cases number text session with
      ⟨between, hline, hplace⟩ | ⟨why, between, hline⟩
    · rw [hline] at h
      obtain ⟨line, hmem, why, rfl⟩ := ih h
      rw [hplace]
      exact ⟨line, List.mem_cons_of_mem _ hmem, why, rfl⟩
    · rw [hline] at h
      exact ⟨_, List.mem_cons_self, why, (Except.error.inj h).symm⟩

/-- **A source fails with a fault** on one of its lines of code. -/
theorem exists_line_of_source {file space text : String} {session : Session (Array Statement)}
    {e : Failure} (h : (source ⟨file, space, text⟩ session).1 = .error e) :
    ∃ i line why, (Text.lines text)[i]? = some line ∧ Text.lineWords line ≠ [] ∧
      e = .fault ⟨file, i + 1⟩ why := by
  have hlines : (lines (Text.codeLines text) (beginFile file space session).2).1 = .error e := h
  obtain ⟨⟨number, code⟩, hmem, why, he⟩ := exists_line_of_lines hlines
  have hwords : (number, Text.words code.toList) ∈ Text.wordsFrom 1 (Text.lines text) := by
    rw [← Text.map_codeFrom]
    exact List.mem_map.mpr ⟨_, hmem, rfl⟩
  obtain ⟨i, line, hline, hne, hnumbered⟩ := Text.exists_line_of_mem_wordsFrom hwords
  refine ⟨i, line, why, hline, hne, ?_⟩
  rw [he, (Prod.mk.inj hnumbered).1, Nat.add_comm 1]
  rfl

/-! ### The main result -/

/-- **A text with another layout has been translated as the text**: what each of the two has come to
differs in the number of a line that has failed, and that is the same line. -/
structure Relaid (file : String) (lines lines' : List (List Char)) (moved : Nat → Nat)
    (done done' : Except Failure Unit × Session (Array Statement)) : Prop where
  sink : done'.2.sink = done.2.sink
  statistics : done'.2.statistics = done.2.statistics
  context : done'.2.context = done.2.context
  options : done'.2.options = done.2.options
  succeeds : done.1 = .ok () → done'.1 = .ok ()
  /-- A failure is a fault on a line of the first text, and the same fault on that line, edited,
  where it stands in the second. -/
  fails : ∀ e, done.1 = .error e → ∃ i j line line' why,
    lines[i]? = some line ∧ e = .fault ⟨file, i + 1⟩ why ∧
    lines'[j]? = some line' ∧ done'.1 = .error (.fault ⟨file, j + 1⟩ why) ∧
    moved (i + 1) = j + 1 ∧ Relation.ReflTransGen Text.LineEdit line line'

end Session

/-- **The layout of a text does not matter.** Let a text come from another by edits of its layout.
Then a session, in whatever state it is, translates both in the same way: it writes the same
statements, counts the same, and comes to the same context, and it fails with one exactly if it
fails with the other. The faults are the same, on the same line of the source, each at the number
that the line has in its text, which fits in 32 bits if the text has fewer than `2 ^ 32` lines
(`HackStack.Text.le_length_of_mem_codeLines`). -/
theorem layout_does_not_matter {text text' : String} {moved : Nat → Nat}
    (h : Text.Edits (Text.lines text) moved (Text.lines text'))
    (session : Session (Array Statement)) (file space : String) :
    Session.Relaid file (Text.lines text) (Text.lines text') moved
      (Session.source ⟨file, space, text⟩ session)
      (Session.source ⟨file, space, text'⟩ session) := by
  have hsource := Session.source_renumber h.moved_zero h.wordsFrom_eq file space session
  rw [hsource]
  refine ⟨rfl, rfl, rfl, rfl, fun hok => ?_, fun e herror => ?_⟩
  · rw [Session.renumbered, hok]
    rfl
  · obtain ⟨i, line, why, hline, hwords, rfl⟩ := Session.exists_line_of_source herror
    obtain ⟨j, line', hmoved, hline', hedited⟩ := h.exists_line hline hwords
    refine ⟨i, j, line, line', why, hline, rfl, hline', ?_, hmoved, hedited⟩
    rw [Session.renumbered, herror, ← hmoved]
    rfl

/-- A text of one line, which cannot be translated. -/
def tidy : String := "pop temp 9\n"

/-- The text with a comment and an empty line above, with two spaces, a tab and a comment on the
line, and with a carriage return behind it. -/
def scattered : String := "// end\n\n\tpop  temp 9 // no\r\n"

theorem edits_scattered : Text.Edits (Text.lines tidy)
    (Text.numberBehind 0 ∘ Text.numberBehind 0) (Text.lines scattered) := by
  let spaced := "pop".toList ++ ([' ', ' '] ++ "temp 9".toList)
  let commented := ['\t'] ++ spaced ++ ' ' :: '/' :: '/' :: " no".toList
  have hlines : Text.lines tidy = ["pop".toList ++ ([' '] ++ "temp 9".toList), []] := by decide
  have hlines' : Text.lines scattered =
      ['/' :: '/' :: " end".toList, [], commented ++ ['\r'], []] := by decide
  have hnone : Text.Blanks [] := ⟨nofun, nofun⟩
  have hspace : Text.Blanks [' '] := Text.blanks_singleton rfl (by decide)
  have hspaces : Text.Blanks [' ', ' '] :=
    ⟨List.forall_mem_cons.mpr ⟨rfl, hspace.isBlank⟩, by decide⟩
  have htab : Text.Blanks ['\t'] := Text.blanks_singleton rfl (by decide)
  rw [hlines, hlines']
  have hspaced : Text.Edits ["pop".toList ++ ([' '] ++ "temp 9".toList), []] id [spaced, []] :=
    .next .none (.line [] [[]] (.respace _ _ hspace hspaces nofun nofun))
  have hended : Text.Edits ["pop".toList ++ ([' '] ++ "temp 9".toList), []] id
      [commented ++ ['\r'], []] :=
    ((hspaced.next (.line [] [[]] (.indent spaced htab))).next
      (.line [] [[]] (.comment _ (by decide)))).next (.lineEnd [] commented [] [])
  exact (hended.next (.insert [] _ (.blank hnone))).next
    (.insert [] _ (.comment hnone (by decide)))

/-- The same fault, on line 1 of the one text and on line 3 of the other. -/
theorem layout_does_not_matter_scattered : ∃ why,
    Text.Edits (Text.lines tidy) (Text.numberBehind 0 ∘ Text.numberBehind 0)
      (Text.lines scattered) ∧
    (Session.source ⟨"Main.vm", "Main", tidy⟩ (.fresh {})).1 =
      .error (.fault ⟨"Main.vm", 1⟩ why) ∧
    (Session.source ⟨"Main.vm", "Main", scattered⟩ (.fresh {})).1 =
      .error (.fault ⟨"Main.vm", 3⟩ why) := by
  have hcode : Text.codeLines tidy = [(1, "pop temp 9")] := by decide
  have hread : Command.read "pop temp 9" = .ok (.pop .temp 9) := by decide
  have hfails : (Session.source ⟨"Main.vm", "Main", tidy⟩ (.fresh {})).1 =
      .error (.fault ⟨"Main.vm", 1⟩ (.indexOutOfRange "temp" 9 7)) := by
    obtain ⟨begun, hbegun, hplace⟩ : ∃ begun : Session (Array Statement),
        Session.source ⟨"Main.vm", "Main", tidy⟩ (.fresh {}) =
          Session.lines (Text.codeLines tidy) begun ∧ begun.location = ⟨"Main.vm", 0⟩ :=
      ⟨_, rfl, rfl⟩
    have hline := Session.line_apply 1 "pop temp 9" begun
    rw [hread] at hline
    dsimp only at hline
    rw [Session.command_error (.pop rfl), hplace] at hline
    rw [hbegun, hcode, Session.lines, Step.bind_apply, hline]
    rfl
  have hrelaid := layout_does_not_matter edits_scattered (.fresh {}) "Main.vm" "Main"
  obtain ⟨i, j, -, -, why, -, hwhy, -, hfails', hmoved, -⟩ := hrelaid.fails _ hfails
  obtain ⟨hplace, rfl⟩ := Failure.fault.inj hwhy
  obtain ⟨-, hi⟩ := Location.mk.inj hplace
  rw [← hi] at hmoved
  rw [← hmoved] at hfails'
  exact ⟨_, edits_scattered, hfails, hfails'⟩

end HackStack
