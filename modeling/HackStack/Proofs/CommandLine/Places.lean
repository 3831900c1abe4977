import Mathlib.Data.List.Nodup
import HackStack.CommandLine.FileTree
import HackStack.Proofs.CommandLine.Paths
import HackStack.Step

/-!
# The places that paths lead to

A path is followed piece by piece, so what it leads to is read off its last pieces. A name that is
joined to a directory leads to the place of that name in the directory
(`HackStack.FileTree.resolve_join`), and the name of a path is the last name of the place that it
leads to (`HackStack.FileTree.exists_of_fileName?`). A path that can be written to ends with the
name of the file that is written (`HackStack.FileTree.exists_of_resolveTarget`), and leads to this
file when it has been written (`HackStack.FileTree.read_put`). So the output of a run lies next to
the file of commands or in the directory that it is named after
(`HackStack.FileTree.resolveTarget_withExtension`, `HackStack.FileTree.resolveTarget_join`).

A file tree is `HackStack.FileTree.Proper` if it looks like the disk of a computer: no place holds
two entries, and all names are names of files.
-/

namespace HackStack.FileTree

open HackStack.Path

variable {tree : FileTree} {here there place : Place} {path piece name : RawText} {entry : Entry}

/-! ### One piece -/

theorem find?_of_enter (h : tree.enter here piece = .ok place) :
    tree.find? here = some .directory := by
  rw [enter] at h
  split at h
  next => exact absurd h (by simp)
  next => exact absurd h (by simp)
  next hfind => exact hfind

/-- A piece that stays where it is does so in a directory. -/
theorem enter_staysPut (hpiece : staysPut piece = true) :
    tree.enter here piece = .ok place ↔ tree.find? here = some .directory ∧ place = here := by
  constructor
  · intro h
    have hfind := find?_of_enter h
    rw [enter, hfind] at h
    dsimp only at h
    rw [if_pos hpiece, Except.ok.injEq] at h
    exact ⟨hfind, h.symm⟩
  · rintro ⟨hfind, rfl⟩
    rw [enter, hfind]
    dsimp only
    rw [if_pos hpiece]

/-- **A name leads from a directory** to the place of the name in it. -/
theorem enter_name (hname : IsFileName name) :
    tree.enter here name = .ok place ↔
      tree.find? here = some .directory ∧ name.length ≤ maxName ∧ place = here ++ [name] := by
  have henter : tree.find? here = some .directory → tree.enter here name =
      if name.length > maxName then .error .nameTooLong else .ok (here ++ [name]) := by
    intro hfind
    rw [enter, hfind]
    dsimp only
    rw [if_neg (by simp [hname.staysPut_eq]), if_neg hname.ne_parent]
  constructor
  · intro h
    have hfind := find?_of_enter h
    rw [henter hfind] at h
    split at h
    next => exact absurd h (by simp)
    next hsize => exact ⟨hfind, Nat.le_of_not_gt hsize, (Except.ok.inj h).symm⟩
  · rintro ⟨hfind, hsize, rfl⟩
    rw [henter hfind, if_neg (Nat.not_lt_of_le hsize)]

/-! ### All pieces -/

/-- Where a path starts. -/
def start (tree : FileTree) (path : RawText) : Place :=
  if isAbsolute path then [] else tree.workingDirectory

/-- **Following pieces** from a place. -/
def walk (tree : FileTree) (here : Place) (pieces : List RawText) : Except DiskError Place :=
  pieces.foldlM tree.enter here

theorem walk_nil : tree.walk here [] = .ok place ↔ place = here := by
  rw [walk, List.foldlM_nil]
  exact ⟨fun h => (Except.ok.inj h).symm, fun h => h ▸ rfl⟩

theorem walk_singleton : tree.walk here [piece] = tree.enter here piece := by
  rw [walk, List.foldlM_cons]
  cases tree.enter here piece <;> rfl

/-- Pieces are followed one part after the other. -/
theorem walk_append {front back : List RawText} :
    tree.walk here (front ++ back) = .ok place ↔
      ∃ between, tree.walk here front = .ok between ∧ tree.walk between back = .ok place := by
  rw [walk, List.foldlM_append, bind_eq_ok_iff]
  rfl

/-- A piece is followed before those behind it. -/
theorem walk_cons {rest : List RawText} :
    tree.walk here (piece :: rest) = .ok place ↔
      ∃ between, tree.enter here piece = .ok between ∧ tree.walk between rest = .ok place := by
  rw [walk, List.foldlM_cons, bind_eq_ok_iff]
  rfl

/-- Pieces that stay where they are lead nowhere else. -/
theorem walk_staysPut {pieces : List RawText} (hpieces : ∀ piece ∈ pieces, staysPut piece = true)
    (h : tree.walk here pieces = .ok place) :
    place = here ∧ (pieces ≠ [] → tree.find? here = some .directory) := by
  induction pieces with
  | nil => exact ⟨walk_nil.mp h, fun hne => absurd rfl hne⟩
  | cons piece rest ih =>
    obtain ⟨hpiece, hrest⟩ := List.forall_mem_cons.mp hpieces
    obtain ⟨between, hfirst, hrun⟩ := walk_cons.mp h
    obtain ⟨hfind, rfl⟩ := (enter_staysPut hpiece).mp hfirst
    exact ⟨(ih hrest hrun).1, fun _ => hfind⟩

/-- A path is followed from where it starts, unless it is too long. -/
theorem follow_eq_ok {pieces : List RawText} :
    tree.follow path pieces = .ok place ↔
      path ≠ [] ∧ path.length ≤ maxPath ∧ tree.walk (tree.start path) pieces = .ok place := by
  rw [follow]
  split
  next hempty => exact ⟨fun h => absurd h (by simp), fun h => absurd hempty h.1⟩
  next hne =>
    split
    next hlong =>
      exact ⟨fun h => absurd h (by simp), fun h => absurd hlong (Nat.not_lt_of_le h.2.1)⟩
    next hshort => exact ⟨fun h => ⟨hne, Nat.le_of_not_gt hshort, h⟩, fun h => h.2.2⟩

theorem resolve_eq_ok :
    tree.resolve path = .ok (place, entry) ↔
      tree.follow path (pieces path) = .ok place ∧ tree.find? place = some entry := by
  rw [resolve, bind_eq_ok_iff]
  constructor
  · rintro ⟨found, hfollow, h⟩
    split at h
    next lies hfind =>
      obtain ⟨rfl, rfl⟩ := Prod.mk.inj (Except.ok.inj h)
      exact ⟨hfollow, hfind⟩
    next => exact absurd h (by simp [throw, throwThe, MonadExceptOf.throw])
  · rintro ⟨hfollow, hfind⟩
    exact ⟨place, hfollow, by rw [hfind]; rfl⟩

/-! ### Names in a directory -/

/-- **A joined path is followed** by one more piece than its directory. -/
theorem follow_join {inner : Place} (h : tree.resolve path = .ok (place, .directory))
    (hname : separator ∉ name) :
    tree.follow (join path name) (pieces (join path name)) = .ok inner ↔
      (join path name).length ≤ maxPath ∧ tree.enter place name = .ok inner := by
  obtain ⟨hfollow, hfind⟩ := resolve_eq_ok.mp h
  obtain ⟨hne, -, hwalk⟩ := follow_eq_ok.mp hfollow
  obtain ⟨front, hpieces, hdirectory⟩ := exists_pieces_join hne hname
  have hstart : tree.start (join path name) = tree.start path := by
    rw [start, start, isAbsolute_join hne]
  have hfront : tree.walk (tree.start path) front = .ok place := by
    rcases hdirectory with heq | heq
    · exact heq ▸ hwalk
    · rw [heq] at hwalk
      obtain ⟨between, hwalk, hstays⟩ := walk_append.mp hwalk
      rw [walk_singleton, enter_staysPut rfl] at hstays
      exact hstays.2 ▸ hwalk
  rw [follow_eq_ok, hpieces, hstart, walk_append]
  constructor
  · rintro ⟨-, hshort, between, hbetween, hlast⟩
    obtain rfl := Except.ok.inj (hfront.symm.trans hbetween)
    exact ⟨hshort, walk_singleton ▸ hlast⟩
  · rintro ⟨hshort, hlast⟩
    exact ⟨join_ne_nil hne name, hshort, place, hfront, walk_singleton.trans hlast⟩

/-- **A joined path leads to the name in the directory**, unless the path or the name is too
long. -/
theorem resolve_join {inner : Place} (h : tree.resolve path = .ok (place, .directory))
    (hname : IsFileName name) :
    tree.resolve (join path name) = .ok (inner, entry) ↔
      (join path name).length ≤ maxPath ∧ name.length ≤ maxName ∧
        inner = place ++ [name] ∧ tree.find? inner = some entry := by
  rw [resolve_eq_ok, follow_join h hname.separator_not_mem, enter_name hname]
  simp only [(resolve_eq_ok.mp h).2, true_and, and_assoc]

/-- **The name of a path** is the last name of the place that it leads to. -/
theorem exists_of_fileName? (hname : fileName? path = some name)
    (h : tree.resolve path = .ok (place, entry)) :
    ∃ front rest above, pieces path = front ++ name :: rest ∧ IsFileName name ∧
      tree.walk (tree.start path) front = .ok above ∧ place = above ++ [name] ∧
      (rest ≠ [] → entry = .directory) := by
  obtain ⟨hfollow, hfind⟩ := resolve_eq_ok.mp h
  obtain ⟨-, -, hwalk⟩ := follow_eq_ok.mp hfollow
  obtain ⟨front, rest, hpieces, -, hstays, hfile⟩ := exists_pieces_of_fileName? hname
  rw [hpieces] at hwalk
  obtain ⟨above, hfront, hback⟩ := walk_append.mp hwalk
  obtain ⟨between, hlast, hrest⟩ := walk_cons.mp hback
  rw [enter_name hfile] at hlast
  obtain ⟨-, -, rfl⟩ := hlast
  obtain ⟨rfl, hdirectory⟩ := walk_staysPut hstays hrest
  exact ⟨front, rest, above, hpieces, hfile, hfront, rfl,
    fun hne => Option.some.inj (hfind.symm.trans (hdirectory hne))⟩

/-! ### Targets -/

/-- **Where a file can be written**: in a directory, under a name of its own, unless there is a
directory of that name. -/
theorem exists_of_resolveTarget (h : tree.resolveTarget path = .ok place) :
    ∃ front name above, pieces path = front ++ [name] ∧ IsFileName name ∧
      tree.follow path front = .ok above ∧ tree.find? above = some .directory ∧
      name.length ≤ maxName ∧ place = above ++ [name] ∧
      tree.find? place ≠ some .directory := by
  rw [resolveTarget] at h
  obtain ⟨above, hfollow, h⟩ := bind_eq_ok_iff.mp h
  obtain ⟨found, henter, h⟩ := bind_eq_ok_iff.mp h
  have hthrow : ∀ next : Except DiskError Place,
      (do throw DiskError.isADirectory; next : Except DiskError Place) ≠ .ok place :=
    fun _ h => nomatch h
  dsimp only at hfollow henter h
  cases hopen : endsOpen path with
  | true =>
    rw [if_pos hopen, if_pos (Or.inl (by decide))] at h
    exact absurd h (hthrow _)
  | false =>
    simp only [hopen, Bool.false_eq_true, if_false] at henter h
    -- No empty piece is cut off, so the last piece names the file.
    obtain ⟨front, name, hpieces, hkept⟩ :=
      exists_pieces_of_not_endsOpen (follow_eq_ok.mp hfollow).1 hopen
    rw [hkept, List.dropLast_concat] at hfollow
    rw [hkept, List.getLast?_concat, Option.getD_some] at henter h
    split at h
    next => exact absurd h (hthrow _)
    next hnamed =>
      rw [not_or, Bool.not_eq_true] at hnamed
      have hname : IsFileName name := ⟨hnamed.1, hnamed.2, separator_not_mem_piece
        (hpieces ▸ List.mem_append_right _ List.mem_cons_self)⟩
      obtain ⟨rfl, hfree⟩ : found = place ∧ tree.find? found ≠ some .directory := by
        split at h
        next => exact absurd h (by simp [throw, throwThe, MonadExceptOf.throw])
        next hfind => exact ⟨Except.ok.inj h, by simp [hfind]⟩
        next hfind => exact ⟨Except.ok.inj h, by simp [hfind]⟩
      obtain ⟨hdirectory, hsize, rfl⟩ := (enter_name hname).mp henter
      exact ⟨front, name, above, hpieces, hname, hfollow, hdirectory, hsize, rfl, hfree⟩

/-- A path that can be written to leads to where the file is written. -/
theorem follow_of_resolveTarget (h : tree.resolveTarget path = .ok place) :
    tree.follow path (pieces path) = .ok place := by
  obtain ⟨front, name, above, hpieces, hname, hfollow, hdirectory, hsize, rfl, -⟩ :=
    exists_of_resolveTarget h
  obtain ⟨hne, hshort, hwalk⟩ := follow_eq_ok.mp hfollow
  refine follow_eq_ok.mpr ⟨hne, hshort, ?_⟩
  rw [hpieces]
  exact walk_append.mpr
    ⟨above, hwalk, walk_singleton.trans ((enter_name hname).mpr ⟨hdirectory, hsize, rfl⟩)⟩

/-- **A name that is joined to a directory** is written in the directory. -/
theorem resolveTarget_join {inner : Place} (h : tree.resolve path = .ok (place, .directory))
    (hname : separator ∉ name) (htarget : tree.resolveTarget (join path name) = .ok inner) :
    inner = place ++ [name] := by
  obtain ⟨hne, -, -⟩ := follow_eq_ok.mp (resolve_eq_ok.mp h).1
  obtain ⟨front, hjoin, -⟩ := exists_pieces_join hne hname
  obtain ⟨front', name', -, hpieces, hfile, -⟩ := exists_of_resolveTarget htarget
  obtain ⟨-, hlast⟩ := List.append_inj' (hjoin.symm.trans hpieces) rfl
  obtain ⟨-, henter⟩ := (follow_join h hname).mp (follow_of_resolveTarget htarget)
  exact ((enter_name (List.singleton_inj.mp hlast ▸ hfile)).mp henter).2.2

/-- **A file with another extension** is written next to the file. -/
theorem resolveTarget_withExtension {stem extension new : RawText} {inner : Place}
    {bytes : ByteArray} (hstem : stem ≠ []) (hextension : dot ∉ extension)
    (hnew : separator ∉ new)
    (hpath : tree.resolve path = .ok (place ++ [extended stem extension], .file bytes))
    (hname : fileName? path = some (extended stem extension))
    (htarget : tree.resolveTarget (withExtension path new) = .ok inner) :
    inner = place ++ [extended stem new] := by
  -- Behind the name of a file nothing follows, so the name is the last piece.
  obtain ⟨front, rest, above, hpieces, hfile, hwalk, hplace, hrest⟩ :=
    exists_of_fileName? hname hpath
  obtain rfl : rest = [] := by
    by_contra hne
    exact nomatch hrest hne
  obtain ⟨rfl, -⟩ := List.append_inj' hplace rfl
  obtain ⟨last, hlast⟩ : ∃ last, (if stem = [dot] then parent else extended stem new) = last :=
    ⟨_, rfl⟩
  have hstemname : separator ∉ stem := fun hmem =>
    hfile.separator_not_mem (List.mem_append_left _ hmem)
  have hlastname : separator ∉ last := by
    rw [← hlast]
    split
    next => decide
    next => exact separator_not_mem_extended hstemname hnew
  rw [withExtension_eq hpieces hfile hstem hextension, hlast] at htarget
  have houtput : pieces ([separator].intercalate (front ++ [last])) = front ++ [last] := by
    refine pieces_intercalate (fun part hpart => ?_) (by simp)
    rcases List.mem_append.mp hpart with hpart | hpart
    · exact separator_not_mem_piece (hpieces ▸ List.mem_append_left _ hpart)
    · exact List.mem_singleton.mp hpart ▸ hlastname
  have hstart : tree.start ([separator].intercalate (front ++ [last])) = tree.start path := by
    rw [start, start, isAbsolute_intercalate hlastname hfile.separator_not_mem, ← hpieces,
      intercalate_pieces]
  obtain ⟨front', name', above', hpieces', hfile', hfollow, -, -, rfl, -⟩ :=
    exists_of_resolveTarget htarget
  obtain ⟨rfl, hsame⟩ := List.append_inj' (houtput.symm.trans hpieces') rfl
  obtain rfl := List.singleton_inj.mp hsame
  obtain ⟨-, -, hwalk'⟩ := follow_eq_ok.mp hfollow
  rw [hstart] at hwalk'
  obtain rfl := Except.ok.inj (hwalk.symm.trans hwalk')
  split at hlast
  next => exact absurd hlast.symm hfile'.ne_parent
  next => rw [← hlast]

/-! ### Writing -/

theorem find?_put_self (hne : place ≠ []) : (tree.put place entry).find? place = some entry := by
  rw [find?, if_neg hne]
  exact List.lookup_cons_self

/-- An entry hides no other. -/
theorem find?_put_of_ne {other : Place} (h : other ≠ place) :
    (tree.put place entry).find? other = tree.find? other := by
  have hfilter : ∀ entries : List (Place × Entry),
      (entries.filter (·.1 ≠ place)).lookup other = entries.lookup other := by
    intro entries
    induction entries with
    | nil => rfl
    | cons first rest ih =>
      rw [List.filter_cons, List.lookup_cons]
      split
      next => rw [List.lookup_cons, ih]
      next hsame =>
        have hother : (other == first.1) = false := by
          rw [beq_eq_false_iff_ne, (by simpa using hsame : first.1 = place)]
          exact h
        rw [ih, hother]
  have hput : (tree.put place entry).entries.lookup other = tree.entries.lookup other := by
    rw [put, List.lookup_cons, beq_eq_false_iff_ne.mpr h, hfilter]
  rw [find?, find?, hput]

/-- Paths through directories lead where they led. -/
theorem walk_put {pieces : List RawText} (hfree : tree.find? place ≠ some .directory)
    (h : tree.walk here pieces = .ok there) :
    (tree.put place entry).walk here pieces = .ok there := by
  induction pieces generalizing here with
  | nil => exact h
  | cons piece rest ih =>
    obtain ⟨between, hfirst, hrest⟩ := walk_cons.mp h
    have hne : here ≠ place := fun he => hfree (he ▸ find?_of_enter hfirst)
    refine walk_cons.mpr ⟨between, ?_, ih hrest⟩
    rw [← hfirst, enter, enter, find?_put_of_ne hne]

/-- **A file that has been written is read.** -/
theorem read_put {bytes : ByteArray} (h : tree.resolveTarget path = .ok place) :
    (tree.put place (.file bytes)).read path = .ok bytes := by
  obtain ⟨front, name, above, hpieces, hname, hfollow, hdirectory, hsize, rfl, hfree⟩ :=
    exists_of_resolveTarget h
  obtain ⟨hne, hshort, hwalk⟩ := follow_eq_ok.mp hfollow
  have habove : above ≠ above ++ [name] := by simp
  have henter : (tree.put (above ++ [name]) (.file bytes)).enter above name =
      .ok (above ++ [name]) :=
    (enter_name hname).mpr ⟨(find?_put_of_ne habove).trans hdirectory, hsize, rfl⟩
  have hresolve : (tree.put (above ++ [name]) (.file bytes)).resolve path =
      .ok (above ++ [name], .file bytes) := by
    refine resolve_eq_ok.mpr ⟨follow_eq_ok.mpr ⟨hne, hshort, ?_⟩, find?_put_self (by simp)⟩
    rw [hpieces]
    exact walk_append.mpr ⟨above, walk_put hfree hwalk, walk_singleton.trans henter⟩
  rw [read, hresolve]
  rfl

/-! ### Disks -/

/-- **A tree that looks like a disk**: no place holds two entries, and all names are names of files
that are not too long. -/
structure Proper (tree : FileTree) : Prop where
  nodup : (tree.entries.map Prod.fst).Nodup
  isFileName : ∀ place ∈ tree.entries.map Prod.fst, ∀ name ∈ place, IsFileName name
  size_le : ∀ place ∈ tree.entries.map Prod.fst, ∀ name ∈ place, name.length ≤ maxName
  workingDirectory : ∀ name ∈ tree.workingDirectory, IsFileName name

/-- What lies at a place is the entry of the place. -/
theorem Proper.find?_eq_some_iff (h : tree.Proper) (hne : place ≠ []) :
    tree.find? place = some entry ↔ (place, entry) ∈ tree.entries := by
  rw [find?, if_neg hne, List.lookup_eq_some_iff]
  constructor
  · rintro ⟨front, back, hentries, -⟩
    exact hentries ▸ List.mem_append_right _ List.mem_cons_self
  · intro hmem
    obtain ⟨front, back, hentries⟩ := List.append_of_mem hmem
    have hnodup := h.nodup
    rw [hentries, List.map_append, List.map_cons, List.nodup_middle, List.nodup_cons] at hnodup
    refine ⟨front, back, hentries, fun first hfirst => bne_iff_ne.mpr fun he => ?_⟩
    exact hnodup.1 (List.mem_append_left _ (List.mem_map.mpr ⟨first, hfirst, he.symm⟩))

/-- A place that is listed in a directory is the directory and a name. -/
theorem nameIn_eq_some_iff {inner : Place} :
    (if inner.dropLast = place then inner.getLast? else none) = some name ↔
      inner = place ++ [name] := by
  constructor
  · intro h
    by_cases habove : inner.dropLast = place
    · rw [if_pos habove] at h
      obtain ⟨front, rfl⟩ := List.getLast?_eq_some_iff.mp h
      rw [← habove, List.dropLast_concat]
    · rw [if_neg habove] at h
      exact nomatch h
  · rintro rfl
    rw [List.dropLast_concat, if_pos rfl, List.getLast?_concat]

theorem mem_namesAt :
    name ∈ tree.namesAt place ↔ ∃ entry, (place ++ [name], entry) ∈ tree.entries := by
  rw [namesAt, List.mem_filterMap]
  constructor
  · rintro ⟨⟨inner, entry⟩, hmem, hname⟩
    obtain rfl := nameIn_eq_some_iff.mp hname
    exact ⟨entry, hmem⟩
  · rintro ⟨entry, hmem⟩
    exact ⟨_, hmem, nameIn_eq_some_iff.mpr rfl⟩

/-- A directory lists no name twice. -/
theorem Proper.nodup_namesAt (h : tree.Proper) (place : Place) : (tree.namesAt place).Nodup := by
  have hnames : tree.namesAt place = (tree.entries.map Prod.fst).filterMap fun inner =>
      if inner.dropLast = place then inner.getLast? else none := by
    rw [namesAt, List.filterMap_map]
    rfl
  rw [hnames]
  refine List.Nodup.filterMap (fun inner inner' name hinner hinner' => ?_) h.nodup
  exact (nameIn_eq_some_iff.mp hinner).trans (nameIn_eq_some_iff.mp hinner').symm

/-- The names in a directory are names of files. -/
theorem Proper.isFileName_of_mem_namesAt (h : tree.Proper) (hname : name ∈ tree.namesAt place) :
    IsFileName name ∧ name.length ≤ maxName := by
  obtain ⟨entry, hmem⟩ := mem_namesAt.mp hname
  have hplace := List.mem_map_of_mem (f := Prod.fst) hmem
  have hlast : name ∈ place ++ [name] := List.mem_append_right _ List.mem_cons_self
  exact ⟨h.isFileName _ hplace name hlast, h.size_le _ hplace name hlast⟩

/-- **Paths lead to places of names.** -/
theorem isFileName_of_walk {pieces : List RawText} (hhere : ∀ name ∈ here, IsFileName name)
    (hpieces : ∀ piece ∈ pieces, separator ∉ piece) (h : tree.walk here pieces = .ok place) :
    ∀ name ∈ place, IsFileName name := by
  induction pieces generalizing here with
  | nil => exact walk_nil.mp h ▸ hhere
  | cons piece rest ih =>
    obtain ⟨hseparator, hrest⟩ := List.forall_mem_cons.mp hpieces
    obtain ⟨between, hfirst, hwalk⟩ := walk_cons.mp h
    refine ih (fun name hname => ?_) hrest hwalk
    have hfind := find?_of_enter hfirst
    rw [enter, hfind] at hfirst
    dsimp only at hfirst
    split at hfirst
    next => exact hhere name (Except.ok.inj hfirst ▸ hname)
    next hmoves =>
      split at hfirst
      next => exact hhere name ((List.dropLast_sublist _).subset (Except.ok.inj hfirst ▸ hname))
      next hparent =>
        split at hfirst
        next => exact nomatch hfirst
        next =>
          rcases List.mem_append.mp (Except.ok.inj hfirst ▸ hname) with hname | hname
          · exact hhere name hname
          · exact List.mem_singleton.mp hname ▸ ⟨by simpa using hmoves, hparent, hseparator⟩

theorem Proper.isFileName_of_resolve (h : tree.Proper)
    (hpath : tree.resolve path = .ok (place, entry)) : ∀ name ∈ place, IsFileName name := by
  obtain ⟨-, -, hwalk⟩ := follow_eq_ok.mp (resolve_eq_ok.mp hpath).1
  refine isFileName_of_walk (fun name hname => ?_) (fun _ => separator_not_mem_piece) hwalk
  rw [start] at hname
  split at hname
  next => exact nomatch hname
  next => exact h.workingDirectory name hname

/-- **A file that is written where it can be written** leaves a tree that looks like a disk. -/
theorem Proper.put (h : tree.Proper) (htarget : tree.resolveTarget path = .ok place) :
    (tree.put place entry).Proper := by
  obtain ⟨front, name, above, -, hname, -, hdirectory, hsize, rfl, -⟩ :=
    exists_of_resolveTarget htarget
  have hplaces : ((tree.put (above ++ [name]) entry).entries).map Prod.fst =
      (above ++ [name]) :: (tree.entries.filter (·.1 ≠ above ++ [name])).map Prod.fst := rfl
  have hsublist := (List.filter_sublist (p := (·.1 ≠ above ++ [name])) (l := tree.entries)).map
    Prod.fst
  -- The names above the new one are those of a directory, and the tree holds it unless it is the
  -- root.
  have habove : ∀ other ∈ above, IsFileName other ∧ other.length ≤ maxName := by
    intro other hother
    have hentry := (h.find?_eq_some_iff (List.ne_nil_of_mem hother)).mp hdirectory
    have hmem : above ∈ tree.entries.map Prod.fst := List.mem_map.mpr ⟨_, hentry, rfl⟩
    exact ⟨h.isFileName above hmem other hother, h.size_le above hmem other hother⟩
  have hnames : ∀ other ∈ above ++ [name], IsFileName other ∧ other.length ≤ maxName := by
    intro other hother
    rcases List.mem_append.mp hother with hother | hother
    · exact habove other hother
    · exact List.mem_singleton.mp hother ▸ ⟨hname, hsize⟩
  constructor
  case nodup =>
    rw [hplaces, List.nodup_cons]
    refine ⟨fun hmem => ?_, h.nodup.sublist hsublist⟩
    obtain ⟨other, hother, heq⟩ := List.mem_map.mp hmem
    simpa [heq] using (List.mem_filter.mp hother).2
  case isFileName =>
    intro other hother
    rcases List.mem_cons.mp (hplaces ▸ hother) with rfl | hother
    · exact fun name hname => (hnames name hname).1
    · exact h.isFileName other (hsublist.subset hother)
  case size_le =>
    intro other hother
    rcases List.mem_cons.mp (hplaces ▸ hother) with rfl | hother
    · exact fun name hname => (hnames name hname).2
    · exact h.size_le other (hsublist.subset hother)
  case workingDirectory => exact h.workingDirectory

end HackStack.FileTree
