import HackStack.Proofs.Session.Reachable

/-!
# Sessions that write into a bounded store

Two sessions are started alike and then used alike, one with an array for a sink and one with a
store of bytes that may run full. The store always holds the beginning of the text of the array: as
much of it as there is room for, cut wherever the room ends.

* `HackStack.ByteStore.Holds` – what a store holds of the text of statements, said of the statements
  alone. It is kept by every write, also by those behind the first that did not fit.
* `HackStack.Session.Mirrors` – that the session with the store stands where the session with the
  array stands. It is kept by every step, since the context of a session is changed before anything
  is written, and nothing that is written is ever looked at.

Only the action that translates a whole file is left out: it ends with the first line that fails, so
that a full store keeps it from going on. The main result is `HackStack.store_follows_array`.
-/

namespace HackStack

open Assembly

/-- The text of statements is put together from its parts. -/
theorem Assembly.listing_append (code more : List Statement) :
    listing (code ++ more) = listing code ++ listing more := by
  rw [listing, List.map_append, String.join_append]
  rfl

/-- Statements at the front have a text that is no longer. -/
theorem Assembly.utf8ByteSize_listing_take_le (code : List Statement) (k : Nat) :
    (listing (code.take k)).utf8ByteSize ≤ (listing code).utf8ByteSize := by
  have hsplit := listing_append (code.take k) (code.drop k)
  rw [List.take_append_drop] at hsplit
  rw [hsplit, String.utf8ByteSize_append]
  exact Nat.le_add_right _ _

namespace ByteStore

/-! ### What a store holds -/

/-- Whether so many bytes fit. -/
def Fits (capacity : Option Nat) (wanted : Nat) : Prop := ∀ limit ∈ capacity, wanted ≤ limit

instance (capacity : Option Nat) (wanted : Nat) : Decidable (Fits capacity wanted) :=
  inferInstanceAs (Decidable (∀ limit ∈ capacity, wanted ≤ limit))

/-- The part of `bytes` that fits. -/
def fitting : Option Nat → ByteArray → ByteArray
  | none, bytes => bytes
  | some limit, bytes => bytes.extract 0 (min limit bytes.size)

/-- **What a store holds of the text of statements**: the bytes that fit, and the number of the
lines that lie within them whole. -/
structure Holds (store : ByteStore) (capacity : Option Nat) (code : List Statement) : Prop where
  capacity_eq : store.capacity = capacity
  bytes_eq : store.bytes = fitting capacity (listing code).toUTF8
  lines_iff : ∀ k, k < store.lines ↔
    k < code.length ∧ (listing (code.take (k + 1))).utf8ByteSize ≤ store.bytes.size

variable {capacity : Option Nat} {store : ByteStore} {code : List Statement}

/-- Less fits where more does. -/
theorem Fits.mono {fewer wanted : Nat} (h : Fits capacity wanted) (hle : fewer ≤ wanted) :
    Fits capacity fewer := fun limit hlimit => hle.trans (h limit hlimit)

/-- All that fits is kept. -/
theorem fitting_of_fits {bytes : ByteArray} (h : Fits capacity bytes.size) :
    fitting capacity bytes = bytes := by
  cases capacity with
  | none => rfl
  | some limit => rw [fitting, Nat.min_eq_right (h limit rfl), ByteArray.extract_zero_size]

/-- A store that is cut off cuts its last line. -/
theorem fitting_append {limit : Nat} {bytes line : ByteArray}
    (h : limit < bytes.size + line.size) (more : ByteArray) :
    fitting (some limit) (bytes ++ line ++ more) =
      fitting (some limit) bytes ++ line.extract 0 (limit - bytes.size) := by
  have hbytes : bytes.extract 0 limit = fitting (some limit) bytes := by
    rw [fitting]
    rcases Nat.le_total limit bytes.size with hle | hle
    · rw [Nat.min_eq_left hle]
    · rw [Nat.min_eq_right hle, ByteArray.extract_zero_size]
      nth_rewrite 1 [← Nat.max_eq_left hle]
      exact ByteArray.extract_zero_max_size
  have hmore : more.extract (0 - (bytes.size + line.size)) (limit - (bytes.size + line.size)) =
      .empty := by
    rw [ByteArray.extract_eq_empty_iff]
    omega
  rw [fitting, Nat.min_eq_left, ByteArray.extract_append, ByteArray.extract_append,
    ByteArray.size_append, hmore, hbytes, ByteArray.append_empty, Nat.zero_sub]
  rw [ByteArray.size_append, ByteArray.size_append]
  exact h.le.trans (Nat.le_add_right _ _)

/-- Of a text that does not fit as much is kept as fits. -/
theorem le_size_fitting {bytes : ByteArray} {n : Nat} (h : n ≤ bytes.size) :
    n ≤ (fitting capacity bytes).size ↔ Fits capacity n := by
  cases capacity with
  | none => exact iff_of_true h fun limit hlimit => by cases hlimit
  | some limit =>
    rw [fitting, ByteArray.size_extract, Fits]
    simp only [Option.mem_some_iff, forall_eq']
    omega

/-- Lines that begin behind the end of the room are not stored whole. -/
theorem fits_take_append {s : Statement} (h : ¬Fits capacity (listing (code ++ [s])).utf8ByteSize)
    (more : List Statement) (k : Nat) :
    (k < (code ++ s :: more).length ∧
        Fits capacity (listing ((code ++ s :: more).take (k + 1))).utf8ByteSize) ↔
      k < code.length ∧ Fits capacity (listing (code.take (k + 1))).utf8ByteSize := by
  rcases Nat.lt_or_ge k code.length with hk | hk
  · rw [List.take_append_of_le_length hk, List.length_append]
    exact and_congr_left' (iff_of_true (Nat.lt_add_right _ hk) hk)
  · -- What is taken goes on at least to the statement that does not fit.
    refine iff_of_false (fun ⟨_, hfits⟩ => h (hfits.mono ?_)) fun ⟨hlt, _⟩ => absurd hlt hk.not_gt
    have hfront : code ++ [s] =
        ((code ++ s :: more).take (k + 1)).take (code.length + 1) := by
      rw [List.take_take, Nat.min_eq_left (Nat.succ_le_succ hk), List.append_cons code s more]
      exact (List.take_left' List.length_append).symm
    rw [hfront]
    exact utf8ByteSize_listing_take_le _ _

/-! ### Writing -/

/-- The line that ends a statement's text is never empty. -/
theorem utf8ByteSize_line_pos (s : Statement) : 0 < s.line.utf8ByteSize := by
  rw [Statement.line, String.utf8ByteSize_append]
  exact Nat.add_pos_right _ (by decide)

theorem listing_concat (code : List Statement) (s : Statement) :
    listing (code ++ [s]) = listing code ++ s.line := by
  rw [listing_append]
  exact congrArg (listing code ++ ·) (String.join_cons.trans String.append_empty)

/-- Lines that fit are stored whole. -/
theorem Holds.lines_fit (h : store.Holds capacity code) (k : Nat) :
    k < store.lines ↔
      k < code.length ∧ Fits capacity (listing (code.take (k + 1))).utf8ByteSize := by
  rw [h.lines_iff, h.bytes_eq, le_size_fitting]
  exact (utf8ByteSize_listing_take_le _ _).trans_eq String.size_toByteArray.symm

/-- A store holds what it is said to hold if it has stored the lines that fit. -/
theorem Holds.of_lines_fit (hcapacity : store.capacity = capacity)
    (hbytes : store.bytes = fitting capacity (listing code).toUTF8)
    (hlines : ∀ k, k < store.lines ↔
      k < code.length ∧ Fits capacity (listing (code.take (k + 1))).utf8ByteSize) :
    store.Holds capacity code where
  capacity_eq := hcapacity
  bytes_eq := hbytes
  lines_iff k := by
    rw [hlines, hbytes, le_size_fitting]
    exact (utf8ByteSize_listing_take_le _ _).trans_eq String.size_toByteArray.symm

/-- There is room for what fits behind the text. -/
theorem Holds.room_eq_self (h : store.Holds capacity code) {wanted : Nat}
    (hfits : Fits capacity ((listing code).utf8ByteSize + wanted)) :
    store.room wanted = wanted := by
  cases capacity with
  | none => rw [room, h.capacity_eq]
  | some limit =>
    have hlimit := hfits limit rfl
    rw [room, h.capacity_eq, h.bytes_eq]
    simp only [fitting, ByteArray.size_extract, String.toUTF8_eq_toByteArray,
      String.size_toByteArray]
    omega

/-- The room that is left ends where the capacity does. -/
theorem Holds.room_eq_sub {limit wanted : Nat} (h : store.Holds (some limit) code)
    (hfull : limit < (listing code).utf8ByteSize + wanted) :
    store.room wanted = limit - (listing code).utf8ByteSize := by
  rw [room, h.capacity_eq, h.bytes_eq]
  simp only [fitting, ByteArray.size_extract, String.toUTF8_eq_toByteArray, String.size_toByteArray]
  omega

/-- **A line that fits is stored.** -/
theorem Holds.write_fits (h : store.Holds capacity code) {s : Statement}
    (hfits : Fits capacity (listing (code ++ [s])).utf8ByteSize) :
    ∃ store', Sink.write s store = (.ok (), store') ∧ store'.Holds capacity (code ++ [s]) := by
  have htake : ∀ front rest, front ++ rest = code ++ [s] →
      Fits capacity (listing front).utf8ByteSize := by
    rintro front rest heq
    refine hfits.mono ?_
    rw [← heq, listing_append, String.utf8ByteSize_append]
    exact Nat.le_add_right _ _
  have hlines : store.lines = code.length := eq_of_forall_lt_iff fun k =>
    (h.lines_fit k).trans (and_iff_left (htake _ (code.drop (k + 1) ++ [s]) (by
      rw [← List.append_assoc, List.take_append_drop])))
  have hbytes : store.bytes = (listing code).toUTF8 := by
    rw [h.bytes_eq]
    exact fitting_of_fits (htake code [s] rfl)
  have hroom : store.room s.line.toUTF8.size = s.line.toUTF8.size := by
    rw [listing_concat, String.utf8ByteSize_append] at hfits
    exact h.room_eq_self hfits
  refine ⟨⟨store.capacity, store.flushFails, store.bytes ++ s.line.toUTF8, store.lines + 1⟩,
    if_pos hroom, .of_lines_fit h.capacity_eq ?_ fun k => ?_⟩
  · rw [fitting_of_fits (by exact hfits), hbytes, listing_concat]
    exact String.toByteArray_append.symm
  · rw [hlines, List.length_append]
    exact (and_iff_left (htake _ _ (List.take_append_drop _ _))).symm

/-- **What does not fit is cut**, and then nothing changes the store. -/
theorem Holds.write_full (h : store.Holds capacity code) {s : Statement}
    (hfull : ¬Fits capacity (listing (code ++ [s])).utf8ByteSize) :
    ∃ store', Sink.write s store = (.error "disk full", store') ∧
      ∀ more, store'.Holds capacity (code ++ s :: more) := by
  cases capacity with
  | none => exact absurd (fun limit hlimit => by cases hlimit) hfull
  | some limit =>
    have hlimit : limit < (listing code).utf8ByteSize + s.line.utf8ByteSize := by
      rw [listing_concat, String.utf8ByteSize_append] at hfull
      simpa [Fits] using hfull
    have hroom : store.room s.line.toUTF8.size = limit - (listing code).utf8ByteSize :=
      h.room_eq_sub hlimit
    refine ⟨⟨store.capacity, store.flushFails,
      store.bytes ++ s.line.toUTF8.extract 0 (limit - (listing code).utf8ByteSize), store.lines⟩,
      ?_, fun more => .of_lines_fit h.capacity_eq ?_ fun k => ?_⟩
    · change (if store.room s.line.toUTF8.size = s.line.toUTF8.size then _ else _) = _
      rw [if_neg, hroom]
      rw [hroom, String.toUTF8_eq_toByteArray, String.size_toByteArray]
      have hpos := utf8ByteSize_line_pos s
      omega
    · rw [List.append_cons, listing_append, listing_concat, h.bytes_eq]
      simp only [String.toUTF8_eq_toByteArray, String.toByteArray_append]
      rw [fitting_append, String.size_toByteArray]
      rwa [String.size_toByteArray, String.size_toByteArray]
    · rw [fits_take_append hfull]
      exact h.lines_fit k

/-- **Writing keeps what a store holds**, whether all fits or not. -/
theorem Holds.writeAll (h : store.Holds capacity code) (more : List Statement) :
    ∃ store', store'.Holds capacity (code ++ more) ∧
      Sink.writeAll more store =
        (if more = [] ∨ Fits capacity (listing (code ++ more)).utf8ByteSize then .ok ()
          else .error "disk full", store') := by
  -- The store must be general, since each statement leaves another one to those behind it.
  induction more generalizing code store with
  | nil =>
    rw [List.append_nil]
    exact ⟨store, h, by rw [if_pos (Or.inl rfl)]; rfl⟩
  | cons s rest ih =>
    rw [Sink.writeAll, Step.bind_apply]
    by_cases hfits : Fits capacity (listing (code ++ [s])).utf8ByteSize
    · obtain ⟨between, hwrite, hholds⟩ := h.write_fits hfits
      obtain ⟨store', hholds', hrest⟩ := ih hholds
      rw [List.append_assoc, List.singleton_append] at hholds' hrest
      refine ⟨store', hholds', ?_⟩
      rw [hwrite]
      refine hrest.trans (congrArg (Prod.mk · store') (if_congr ?_ rfl rfl))
      constructor
      · rintro (rfl | hrest)
        · exact Or.inr hfits
        · exact Or.inr hrest
      · rintro (hnil | hrest)
        · exact absurd hnil (List.cons_ne_nil _ _)
        · exact Or.inr hrest
    · -- The first line that does not fit ends the writing.
      obtain ⟨store', hwrite, hholds⟩ := h.write_full hfits
      refine ⟨store', hholds rest, ?_⟩
      rw [hwrite, if_neg]
      rintro (hnil | hrest)
      · exact absurd hnil (List.cons_ne_nil _ _)
      · rw [List.append_cons, listing_append, String.utf8ByteSize_append] at hrest
        exact hfits (hrest.mono (Nat.le_add_right _ _))

end ByteStore

namespace Session

/-! ### Two sessions -/

/-- **One session mirrors another**: it stands in the same place, and its store holds what there is
room for of what the other has written. What was counted need not be the same, since a command is
counted when it has been written whole. -/
structure Mirrors (capacity : Option Nat) (array : Session (Array Statement))
    (store : Session ByteStore) : Prop where
  context_eq : store.context = array.context
  options_eq : store.options = array.options
  location_eq : store.location = array.location
  holds : store.sink.Holds capacity array.sink.toList

/-- What a session with a store answers at a step by which a session with an array has come to a
result, when there was `written` in the array before: the step fails if it has succeeded there and
what it has written does not fit. -/
def answer (capacity : Option Nat) (written : Array Statement) :
    Except Failure Unit × Session (Array Statement) → Except Failure Unit
  | (.ok (), array) =>
    if array.sink = written ∨ ByteStore.Fits capacity (listing array.sink.toList).utf8ByteSize
    then .ok ()
    else .error (.output "disk full")
  | (.error e, _) => .error e

/-- **A step of a session with a store follows the step of a session with an array.** -/
structure Follows (capacity : Option Nat) (written : Array Statement)
    (done : Except Failure Unit × Session (Array Statement))
    (stored : Except Failure Unit × Session ByteStore) : Prop where
  answer_eq : stored.1 = answer capacity written done
  mirrors : Mirrors capacity done.2 stored.2

variable {capacity : Option Nat} {array : Session (Array Statement)} {store : Session ByteStore}

/-- What is counted plays no role. -/
theorem Mirrors.counted (h : Mirrors capacity array store) (s s' : Statistics) :
    Mirrors capacity { array with statistics := s } { store with statistics := s' } :=
  ⟨h.context_eq, h.options_eq, h.location_eq, h.holds⟩

/-- Where nothing is written, everything fits. -/
theorem answer_unchanged : answer capacity array.sink (.ok (), array) = .ok () :=
  if_pos (Or.inl rfl)

/-- Whether all fits is said of what is new. -/
theorem answer_ok {written code : List Statement} (h : array.sink = (written ++ code).toArray) :
    answer capacity written.toArray (.ok (), array) =
      if code = [] ∨ ByteStore.Fits capacity (listing (written ++ code)).utf8ByteSize then .ok ()
      else .error (.output "disk full") := by
  rw [answer, h]
  refine if_congr (or_congr_left ?_) rfl rfl
  simp

/-- **Code is written into the store as into the array**, as far as there is room. -/
theorem Mirrors.lowered (h : Mirrors capacity array store) (lowering : Lowering Block)
    (note : String) (counted : Statistics → Statistics) :
    Follows capacity array.sink
      ((do
        let block ← lower lowering
        annotate note
        emit block
        count counted : SessionStep (Array Statement) Unit) array)
      ((do
        let block ← lower lowering
        annotate note
        emit block
        count counted : SessionStep ByteStore Unit) store) := by
  rw [lowered_apply, lowered_apply, h.context_eq, h.options_eq, h.location_eq]
  rcases lowering array.context with ⟨why | block, context⟩
  · exact ⟨rfl, rfl, rfl, rfl, h.holds⟩
  · -- The array takes everything, and the store what fits.
    dsimp only
    generalize (if array.options.annotate then [Statement.comment note] else []) ++ block = code
    obtain ⟨sink, hholds, hwrite⟩ := h.holds.writeAll code
    have hsink : array.sink ++ code.toArray = (array.sink.toList ++ code).toArray := by simp
    rw [writeAll_array, hwrite]
    by_cases hfits : code = [] ∨
        ByteStore.Fits capacity (listing (array.sink.toList ++ code)).utf8ByteSize
    · rw [if_pos hfits]
      exact ⟨((answer_ok hsink).trans (if_pos hfits)).symm, rfl, rfl, rfl, hsink ▸ hholds⟩
    · rw [if_neg hfits]
      exact ⟨((answer_ok hsink).trans (if_neg hfits)).symm, rfl, rfl, rfl, hsink ▸ hholds⟩

theorem Mirrors.command (h : Mirrors capacity array store) (c : Command) :
    Follows capacity array.sink (command c array) (command c store) :=
  (h.counted (array.statistics.countKind c) (store.statistics.countKind c)).lowered
    (Block.ofCommand c) c.render fun statistics =>
      { statistics with commands := statistics.commands + 1 }

theorem Mirrors.line (h : Mirrors capacity array store) (number : Nat) (text : String) :
    Follows capacity array.sink (line number text array) (line number text store) := by
  have hmoved : Mirrors capacity { array with location := array.location.withLine number }
      { store with location := store.location.withLine number } :=
    ⟨h.context_eq, h.options_eq, congrArg (Location.withLine · number) h.location_eq, h.holds⟩
  rw [line_apply, line_apply]
  cases Command.read text with
  | ok c => exact hmoved.command c
  | error why => exact ⟨by rw [h.location_eq]; rfl, hmoved⟩

/-- **Every action** but the translation of a whole file keeps the two sessions together. -/
theorem Mirrors.perform (h : Mirrors capacity array store) {action : Action}
    (haction : ∀ source, action ≠ .source source) :
    Follows capacity array.sink (perform action array) (perform action store) := by
  cases action with
  | beginFile file space =>
    have hcontext := congrArg (Context.beginFile space) h.context_eq
    exact ⟨(if_pos (Or.inl rfl)).symm, hcontext, h.options_eq, rfl, h.holds⟩
  | source source => exact absurd rfl (haction source)
  | line number text => exact h.line number text
  | command c => exact h.command c

/-- **The sessions stay together**, whether actions fail or not. -/
theorem Mirrors.performAll (h : Mirrors capacity array store) {actions : List Action}
    (hactions : ∀ source, .source source ∉ actions) :
    Mirrors capacity (array.performAll actions) (store.performAll actions) := by
  induction actions generalizing array store with
  | nil => exact h
  | cons action rest ih =>
    have hfirst := h.perform fun source (hsource : action = _) =>
      hactions source (hsource ▸ List.mem_cons_self)
    exact ih hfirst.mirrors fun source hsource => hactions source (List.mem_cons_of_mem _ hsource)

/-- **Two sessions that have been started alike** stand together. -/
theorem mirrors_start {options : Options} {flushFails : Bool}
    (harray : start #[] options = .ok array)
    (hstore : start ({ capacity, flushFails } : ByteStore) options = .ok store) :
    Mirrors capacity array store := by
  have hnothing : ByteStore.Fits capacity ByteArray.empty.size := fun limit _ => Nat.zero_le limit
  have hempty : ({ capacity, flushFails } : ByteStore).Holds capacity [] :=
    .of_lines_fit rfl (ByteStore.fitting_of_fits hnothing).symm fun k =>
      iff_of_false (Nat.not_lt_zero k) fun h => Nat.not_lt_zero k h.1
  have hfresh : Mirrors capacity { sink := #[], options }
      { sink := { capacity, flushFails }, options } := ⟨rfl, rfl, rfl, hempty⟩
  -- Starting up is the first thing that both of them write.
  have hrun : Follows capacity #[] (prologue { sink := #[], options })
      (prologue { sink := { capacity, flushFails }, options }) := by
    rw [prologue_eq, prologue_eq, Options.events]
    by_cases hstart : options.startUp
    · rw [if_pos hstart, meetAll_singleton, meetAll_singleton]
      exact hfresh.lowered (Block.startUp options.stackBase options.entry) "bootstrap"
        fun statistics => { statistics with calls := statistics.calls + 1 }
    · rw [if_neg hstart]
      exact ⟨answer_unchanged.symm, hfresh⟩
  rw [start] at harray hstore
  split at harray
  next array' heq =>
    split at hstore
    next store' heq' =>
      obtain rfl := Except.ok.inj harray
      obtain rfl := Except.ok.inj hstore
      rw [heq, heq'] at hrun
      exact hrun.mirrors
    next => exact absurd hstore (by simp)
  next => exact absurd harray (by simp)

end Session

/-- **A bounded store of text is a faithful prefix of an array of statements.** Two sessions are
started alike, one with an array for a sink and one with a store of bytes, and both starts succeed.
The same actions are performed with both, of which any may fail: files are begun, lines are read,
and commands are translated. Then both stand in the same context, and the store holds the bytes of
the array's text that fit and has counted the lines that lie within them whole. What the sessions
answer next is the same too, unless the action succeeds with the array and what it has written does
not fit: then the store is full. -/
theorem store_follows_array {options : Options} {capacity : Option Nat} {flushFails : Bool}
    {array : Session (Array Statement)} {store : Session ByteStore}
    (harray : Session.start #[] options = .ok array)
    (hstore : Session.start ({ capacity, flushFails } : ByteStore) options = .ok store)
    {actions : List Session.Action} (hactions : ∀ source, .source source ∉ actions) :
    (store.performAll actions).context = (array.performAll actions).context ∧
      (store.performAll actions).sink.Holds capacity (array.performAll actions).sink.toList ∧
      ∀ action, (∀ source, action ≠ .source source) →
        (Session.perform action (store.performAll actions)).1 =
          Session.answer capacity (array.performAll actions).sink
            (Session.perform action (array.performAll actions)) := by
  have hmirrors := (Session.mirrors_start harray hstore).performAll hactions
  refine ⟨hmirrors.context_eq, hmirrors.holds, fun action haction => ?_⟩
  exact (hmirrors.perform haction).answer_eq

/-- A command whose text does not fit in nine bytes. -/
def filling : List Session.Action := [.command (.push .constant 7)]

/-- The nine bytes end within the third line, and the next command does not fit at all. -/
theorem store_follows_array_filling :
    ∃ (array : Session (Array Statement)) (store : Session ByteStore),
      Session.start #[] {} = .ok array ∧
      Session.start ({ capacity := some 9 } : ByteStore) {} = .ok store ∧
      (store.performAll filling).context = (array.performAll filling).context ∧
      (store.performAll filling).sink.bytes = "@7\nD=A\n@S".toUTF8 ∧
      (store.performAll filling).sink.lines = 2 ∧
      (Session.perform (.line 1 "goto END") (store.performAll filling)).1 =
        .error (.output "disk full") := by
  have hactions : ∀ source, Session.Action.source source ∉ filling := by simp [filling]
  obtain ⟨hcontext, hholds, hanswer⟩ :=
    @store_follows_array {} (some 9) false _ _ rfl rfl _ hactions
  refine ⟨_, _, rfl, rfl, hcontext, ?_, ?_, ?_⟩
  · rw [hholds.bytes_eq]
    decide +kernel
  · have htwo := (hholds.lines_fit 1).mpr (by decide +kernel)
    have hthree := mt (hholds.lines_fit 2).mp (by decide +kernel)
    exact Nat.le_antisymm (Nat.le_of_not_lt hthree) htwo
  · rw [hanswer _ (by simp)]
    decide +kernel

end HackStack
