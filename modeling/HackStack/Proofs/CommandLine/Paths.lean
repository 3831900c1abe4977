import Mathlib.Data.List.TakeWhile
import HackStack.CommandLine.Path
import HackStack.Proofs.Text.Raw

/-!
# The bytes of a path

A path is the same as its pieces: it is cut at its separators, and put together from the pieces
again (`HackStack.Path.pieces_intercalate`, `HackStack.Path.intercalate_pieces`). What the command
line does to the bytes of a path is then a matter of the last piece alone. Joining a name to a
directory puts it behind the pieces (`HackStack.Path.exists_pieces_join`), and another extension
changes the last of them (`HackStack.Path.withExtension_eq`).

A name is split at its last dot, and that is how it is put together again
(`HackStack.Path.splitName_eq_some_iff`). None of this makes a text of what is none, or the other
way round (`HackStack.Path.isText_join_iff`, `HackStack.Path.isText_withExtension`).
-/

namespace HackStack

open RawText

/-- No part of a text that was cut at a separator holds the separator. -/
theorem separator_not_mem_of_mem_splitOn {separator : UInt8} {text part : RawText}
    (h : part ∈ text.splitOn separator) : separator ∉ part := by
  induction text generalizing part with
  | nil =>
    rw [List.splitOn_nil, List.mem_singleton] at h
    exact h ▸ List.not_mem_nil
  | cons byte text ih =>
    rw [List.splitOn_cons_eq_if_modifyHead] at h
    split at h
    next =>
      rcases List.mem_cons.mp h with rfl | h
      · exact List.not_mem_nil
      · exact ih h
    next hbyte =>
      cases hparts : text.splitOn separator with
      | nil => exact absurd hparts (List.splitOn_ne_nil _ _)
      | cons first rest =>
        rw [hparts] at h ih
        rcases List.mem_cons.mp h with rfl | h
        · exact List.not_mem_cons_of_ne_of_not_mem (fun he => hbyte (by simp [he]))
            (ih List.mem_cons_self)
        · exact ih (List.mem_cons_of_mem _ h)

/-- The last of several parts stands behind a separator. -/
theorem intercalate_concat {separator last : RawText} {front : List RawText} (hne : front ≠ []) :
    separator.intercalate (front ++ [last]) = separator.intercalate front ++ separator ++ last := by
  induction front with
  | nil => exact absurd rfl hne
  | cons first rest ih =>
    rw [List.cons_append, List.intercalate_cons_of_ne_nil (by simp)]
    cases rest with
    | nil => simp
    | cons second rest =>
      rw [ih (List.cons_ne_nil _ _), List.intercalate_cons_of_ne_nil (List.cons_ne_nil _ _)]
      simp

namespace Path

/-! ### Pieces -/

/-- A piece holds no separator. -/
theorem separator_not_mem_piece {path piece : RawText} (h : piece ∈ pieces path) :
    separator ∉ piece :=
  separator_not_mem_of_mem_splitOn h

theorem pieces_ne_nil (path : RawText) : pieces path ≠ [] := List.splitOn_ne_nil _ _

/-- **A path is put together** from its pieces. -/
theorem intercalate_pieces (path : RawText) : [separator].intercalate (pieces path) = path :=
  List.intercalate_splitOn separator

/-- **Pieces are what a path is cut into.** -/
theorem pieces_intercalate {parts : List RawText} (h : ∀ part ∈ parts, separator ∉ part)
    (hne : parts ≠ []) : pieces ([separator].intercalate parts) = parts :=
  List.splitOn_intercalate separator h hne

/-- A path with a separator is cut there. -/
theorem pieces_append_separator (front back : RawText) :
    pieces (front ++ separator :: back) = pieces front ++ pieces back :=
  List.splitOn_append_cons_self front back

/-- A name is one piece. -/
theorem pieces_name {name : RawText} (h : separator ∉ name) : pieces name = [name] :=
  List.splitOn_eq_singleton h

/-- A path that ends with a separator ends with an empty piece. -/
theorem pieces_of_endsOpen {path : RawText} (h : endsOpen path = true) :
    ∃ front, path = front ++ [separator] ∧ pieces path = pieces front ++ [[]] := by
  rw [endsOpen, decide_eq_true_eq] at h
  obtain ⟨front, rfl⟩ := List.getLast?_eq_some_iff.mp h
  exact ⟨front, rfl, pieces_append_separator front []⟩

/-- The last piece of any other path is not empty. -/
theorem getLast?_pieces_ne_empty {path : RawText} (hne : path ≠ []) (h : endsOpen path = false) :
    (pieces path).getLast? ≠ some [] := by
  intro hlast
  obtain ⟨front, hfront⟩ := List.getLast?_eq_some_iff.mp hlast
  have hpath := intercalate_pieces path
  rw [hfront] at hpath
  cases front with
  | nil => exact hne (by rw [← hpath]; rfl)
  | cons first rest =>
    rw [intercalate_concat (List.cons_ne_nil _ _), List.append_nil] at hpath
    rw [endsOpen, decide_eq_false_iff_not, ← hpath] at h
    exact h List.getLast?_concat

/-- **A path that does not end with a separator** ends with a piece that is not empty. -/
theorem exists_pieces_of_not_endsOpen {path : RawText} (hne : path ≠ [])
    (h : endsOpen path = false) :
    ∃ front name, pieces path = front ++ [name] ∧
      ((pieces path).reverse.dropWhile (· = [])).reverse = front ++ [name] := by
  obtain ⟨front, name, hpieces⟩ : ∃ front name, pieces path = front ++ [name] :=
    ⟨_, _, (List.dropLast_concat_getLast (pieces_ne_nil path)).symm⟩
  have hname : name ≠ [] := by
    rintro rfl
    exact getLast?_pieces_ne_empty hne h (by rw [hpieces, List.getLast?_concat])
  refine ⟨front, name, hpieces, ?_⟩
  rw [hpieces, List.reverse_append, List.reverse_singleton, List.singleton_append,
    List.dropWhile_cons_of_neg (by simpa using hname), List.reverse_cons, List.reverse_reverse]

/-- **A name that is joined to a directory** is its last piece. An empty piece at the end of the
directory makes room for it. -/
theorem exists_pieces_join {directory name : RawText} (hne : directory ≠ [])
    (hname : separator ∉ name) :
    ∃ front, pieces (join directory name) = front ++ [name] ∧
      (pieces directory = front ∨ pieces directory = front ++ [[]]) := by
  rw [join]
  cases hopen : endsOpen directory with
  | true =>
    obtain ⟨front, rfl, hpieces⟩ := pieces_of_endsOpen hopen
    refine ⟨pieces front, ?_, Or.inr hpieces⟩
    rw [if_pos (Or.inr rfl), List.append_assoc, List.singleton_append, pieces_append_separator,
      pieces_name hname]
  | false =>
    refine ⟨pieces directory, ?_, Or.inl rfl⟩
    rw [if_neg (by simp [hne]), pieces_append_separator, pieces_name hname]

/-! ### File names -/

/-- **A name that a directory can hold.** -/
structure IsFileName (name : RawText) : Prop where
  staysPut_eq : staysPut name = false
  ne_parent : name ≠ parent
  separator_not_mem : separator ∉ name

instance (name : RawText) : Decidable (IsFileName name) :=
  decidable_of_iff (staysPut name = false ∧ name ≠ parent ∧ separator ∉ name)
    ⟨fun h => ⟨h.1, h.2.1, h.2.2⟩, fun h => ⟨h.staysPut_eq, h.ne_parent, h.separator_not_mem⟩⟩

/-- **The name of a file** is the last piece that does not stay where it is. -/
theorem exists_pieces_of_fileName? {path name : RawText} (h : fileName? path = some name) :
    ∃ front rest, pieces path = front ++ name :: rest ∧ namingPieces path = front ++ [name] ∧
      (∀ piece ∈ rest, staysPut piece = true) ∧ IsFileName name := by
  obtain ⟨hlast, hparent⟩ := Option.filter_eq_some_iff.mp h
  rw [namingPieces, List.getLast?_reverse] at hlast
  obtain ⟨back, hback⟩ := List.head?_eq_some_iff.mp hlast
  have hpieces : pieces path =
      back.reverse ++ name :: ((pieces path).reverse.takeWhile staysPut).reverse := by
    have hsplit := List.takeWhile_append_dropWhile (p := staysPut) (l := (pieces path).reverse)
    rw [hback] at hsplit
    simpa using congrArg List.reverse hsplit.symm
  refine ⟨_, _, hpieces, by rw [namingPieces, hback, List.reverse_cons], fun piece hpiece => ?_,
    ?_, by simpa using hparent, ?_⟩
  · exact List.mem_takeWhile_imp (List.mem_reverse.mp hpiece)
  · have hhead := List.head?_dropWhile_not staysPut (pieces path).reverse
    rw [hback] at hhead
    simpa using hhead
  · exact separator_not_mem_piece (hpieces ▸ List.mem_append_right _ List.mem_cons_self)

/-- A path whose last piece is a file name has this name. -/
theorem namingPieces_eq {path name : RawText} {front : List RawText}
    (h : pieces path = front ++ [name]) (hname : IsFileName name) :
    namingPieces path = front ++ [name] := by
  rw [namingPieces, h, List.reverse_append, List.reverse_singleton, List.singleton_append,
    List.dropWhile_cons_of_neg (by simp [hname.staysPut_eq]), List.reverse_cons,
    List.reverse_reverse]

theorem fileName?_eq {path name : RawText} {front : List RawText}
    (h : pieces path = front ++ [name]) (hname : IsFileName name) : fileName? path = some name := by
  rw [fileName?, namingPieces_eq h hname, List.getLast?_concat, Option.filter_some,
    if_pos (by simpa using hname.ne_parent)]

/-- A path that a name was joined to has this name. -/
theorem fileName?_join {directory name : RawText} (hne : directory ≠ []) (hname : IsFileName name) :
    fileName? (join directory name) = some name := by
  obtain ⟨front, hpieces, -⟩ := exists_pieces_join hne hname.separator_not_mem
  exact fileName?_eq hpieces hname

/-! ### Stems and extensions -/

/-- The stem of a file name is a part of it. -/
theorem mem_of_mem_splitName {name : RawText} {byte : UInt8} (h : byte ∈ (splitName name).1) :
    byte ∈ name := by
  have hsublist := List.dropWhile_sublist (· ≠ dot) (l := name.reverse)
  rw [splitName] at h
  split at h
  next => exact h
  next => exact h
  next hdrop =>
    rw [hdrop] at hsublist
    exact List.mem_reverse.mp
      (hsublist.subset (List.mem_cons_of_mem _ (List.mem_reverse.mp h)))

/-- **A stem holds no separator.** -/
theorem separator_not_mem_stem {path stem : RawText} (h : stem? path = some stem) :
    separator ∉ stem := by
  obtain ⟨name, hname, rfl⟩ := Option.map_eq_some_iff.mp h
  obtain ⟨-, -, -, -, -, hfile⟩ := exists_pieces_of_fileName? hname
  exact fun hmem => hfile.separator_not_mem (mem_of_mem_splitName hmem)

/-- What a name is split into makes it up. -/
theorem eq_of_splitName {name stem extension : RawText}
    (h : splitName name = (stem, some extension)) :
    name = extended stem extension ∧ stem ≠ [] ∧ dot ∉ extension := by
  have hsplit := List.takeWhile_append_dropWhile (p := (· ≠ dot)) (l := name.reverse)
  have hdot := List.head?_dropWhile_not (· ≠ dot) name.reverse
  rw [splitName] at h
  split at h
  next => exact absurd (congrArg Prod.snd h) (by simp)
  next => exact absurd (congrArg Prod.snd h) (by simp)
  next byte back hback hdrop =>
    obtain ⟨rfl, hextension⟩ := Prod.mk.inj h
    obtain rfl := Option.some.inj hextension
    rw [hdrop] at hsplit hdot
    obtain rfl : byte = dot := by simpa using hdot
    refine ⟨?_, ?_, ?_⟩
    · rw [extended]
      simpa using congrArg List.reverse hsplit.symm
    · exact fun hempty => hback (List.reverse_eq_nil_iff.mp hempty)
    · rw [List.mem_reverse]
      exact fun hmem => by simpa using List.mem_takeWhile_imp hmem

/-- A name is split into what it is made up of. -/
theorem splitName_extended {stem extension : RawText} (hstem : stem ≠ [])
    (hextension : dot ∉ extension) :
    splitName (extended stem extension) = (stem, some extension) := by
  have hreverse : (extended stem extension).reverse =
      extension.reverse ++ dot :: stem.reverse := by
    rw [extended, List.reverse_append, List.reverse_cons, List.append_assoc]
    rfl
  have hall : ∀ byte ∈ extension.reverse, decide (byte ≠ dot) = true := fun byte hbyte => by
    simpa using fun he : byte = dot => hextension (he ▸ List.mem_reverse.mp hbyte)
  have hdrop : (extension.reverse ++ dot :: stem.reverse).dropWhile (· ≠ dot) =
      dot :: stem.reverse := by
    rw [List.dropWhile_append_of_pos hall]
    rfl
  have htake : (extension.reverse ++ dot :: stem.reverse).takeWhile (· ≠ dot) =
      extension.reverse := by
    rw [List.takeWhile_append_of_pos hall]
    simp
  rw [splitName, hreverse]
  simp only [hdrop, htake]
  cases hbytes : stem.reverse with
  | nil => exact absurd (List.reverse_eq_nil_iff.mp hbytes) hstem
  | cons last rest =>
    simp only [← hbytes, List.reverse_reverse]

/-- **A name is split at its last dot**, unless nothing stands before it. -/
theorem splitName_eq_some_iff {name stem extension : RawText} :
    splitName name = (stem, some extension) ↔
      name = extended stem extension ∧ stem ≠ [] ∧ dot ∉ extension := by
  refine ⟨eq_of_splitName, ?_⟩
  rintro ⟨rfl, hstem, hextension⟩
  exact splitName_extended hstem hextension

/-- **A path with an extension** has a name that ends with it. -/
theorem extension?_eq_some_iff {path extension : RawText} :
    extension? path = some extension ↔
      ∃ stem, fileName? path = some (extended stem extension) ∧ stem ≠ [] ∧ dot ∉ extension := by
  rw [extension?, Option.bind_eq_some_iff]
  constructor
  · rintro ⟨name, hname, hsplit⟩
    obtain ⟨heq, hstem, hextension⟩ := splitName_eq_some_iff.mp (Prod.ext rfl hsplit)
    exact ⟨_, hname.trans (congrArg some heq), hstem, hextension⟩
  · rintro ⟨stem, hname, hstem, hextension⟩
    exact ⟨_, hname, congrArg Prod.snd (splitName_extended hstem hextension)⟩

theorem stem?_eq {path stem extension : RawText}
    (h : fileName? path = some (extended stem extension)) (hstem : stem ≠ [])
    (hextension : dot ∉ extension) : stem? path = some stem := by
  rw [stem?, h, Option.map_some, splitName_extended hstem hextension]

theorem extended_inj {stem stem' extension : RawText} :
    extended stem extension = extended stem' extension ↔ stem = stem' :=
  List.append_left_inj _

theorem separator_not_mem_extended {stem extension : RawText} (hstem : separator ∉ stem)
    (hextension : separator ∉ extension) : separator ∉ extended stem extension := by
  intro hmem
  rcases List.mem_append.mp hmem with hmem | hmem
  · exact hstem hmem
  · rcases List.mem_cons.mp hmem with he | hmem
    · exact absurd he (by decide)
    · exact hextension hmem

/-- What is put into the place of a name with an extension. -/
theorem withNameExtension_eq {stem extension : RawText} (hstem : stem ≠ [])
    (hextension : dot ∉ extension) (new : RawText) :
    withNameExtension (extended stem extension) new =
      if stem = [dot] then parent else extended stem new := by
  rw [withNameExtension, splitName_extended hstem hextension]
  simp only [Option.isSome_some, and_true]

/-- **Another extension** changes the last piece of a path. -/
theorem withExtension_eq {path stem extension : RawText} {front : List RawText}
    (h : pieces path = front ++ [extended stem extension])
    (hname : IsFileName (extended stem extension)) (hstem : stem ≠ [])
    (hextension : dot ∉ extension) (new : RawText) :
    withExtension path new = [separator].intercalate
      (front ++ [if stem = [dot] then parent else extended stem new]) := by
  rw [withExtension, fileName?_eq h hname]
  dsimp only
  rw [namingPieces_eq h hname, List.dropLast_concat, withNameExtension_eq hstem hextension]

/-! ### Absolute paths -/

/-- **Where a path starts** is decided by the pieces before the last. -/
theorem isAbsolute_intercalate {front : List RawText} {name other : RawText}
    (hname : separator ∉ name) (hother : separator ∉ other) :
    isAbsolute ([separator].intercalate (front ++ [name])) =
      isAbsolute ([separator].intercalate (front ++ [other])) := by
  have hsingle : ∀ {name : RawText}, separator ∉ name → isAbsolute name = false := by
    intro name hname
    rw [isAbsolute, decide_eq_false_iff_not]
    exact fun hhead => hname (List.mem_of_head? hhead)
  cases front with
  | nil =>
    rw [List.nil_append, List.nil_append, List.intercalate_singleton, List.intercalate_singleton,
      hsingle hname, hsingle hother]
  | cons first rest =>
    rw [List.cons_append, List.cons_append, List.intercalate_cons_of_ne_nil (by simp),
      List.intercalate_cons_of_ne_nil (by simp)]
    simp [isAbsolute, List.head?_append]

theorem join_ne_nil {directory : RawText} (hne : directory ≠ []) (name : RawText) :
    join directory name ≠ [] := by
  rw [join]
  split <;> simp [hne]

/-- A joined path starts where its directory does. -/
theorem isAbsolute_join {directory : RawText} (hne : directory ≠ []) (name : RawText) :
    isAbsolute (join directory name) = isAbsolute directory := by
  have hhead : ∀ rest : RawText, (directory ++ rest).head? = directory.head? := by
    intro rest
    cases directory with
    | nil => exact absurd rfl hne
    | cons byte bytes => rfl
  rw [isAbsolute, isAbsolute, join]
  split <;> rw [hhead]

/-- The path from the root to a place is cut into an empty piece and the place. -/
theorem pieces_canonical {place : List RawText} (h : ∀ name ∈ place, separator ∉ name)
    (hne : place ≠ []) : pieces (separator :: [separator].intercalate place) = [] :: place := by
  have hcanonical : separator :: [separator].intercalate place =
      [separator].intercalate ([] :: place) := by
    rw [List.intercalate_cons_of_ne_nil hne]
    rfl
  rw [hcanonical]
  refine pieces_intercalate (fun part hpart => ?_) (List.cons_ne_nil _ _)
  rcases List.mem_cons.mp hpart with rfl | hpart
  · exact List.not_mem_nil
  · exact h part hpart

/-! ### Paths that are texts -/

theorem isText_separator : IsText [separator] := ⟨"/", rfl⟩

theorem isText_dot : IsText [dot] := ⟨".", rfl⟩

/-- The pieces of a text are texts. -/
theorem isText_piece {path piece : RawText} (h : IsText path) (hpiece : piece ∈ pieces path) :
    IsText piece :=
  h.of_mem_splitOn (by decide) hpiece

/-- Texts are put together to a text. -/
theorem isText_intercalate {parts : List RawText} (h : ∀ part ∈ parts, IsText part) :
    IsText ([separator].intercalate parts) := by
  induction parts with
  | nil => exact ⟨"", rfl⟩
  | cons part rest ih =>
    obtain ⟨hpart, hrest⟩ := List.forall_mem_cons.mp h
    cases rest with
    | nil => rwa [List.intercalate_singleton]
    | cons second rest =>
      rw [List.intercalate_cons_of_ne_nil (List.cons_ne_nil _ _)]
      exact (hpart.append isText_separator).append (ih hrest)

/-- **A name with an extension** is a text if its stem is. -/
theorem isText_extended_iff {stem extension : RawText} (hextension : IsText extension) :
    IsText (extended stem extension) ↔ IsText stem :=
  ⟨fun h => (h.cut (by decide)).1,
    fun h => h.append (isText_dot.append hextension)⟩

/-- **A joined path** is a text if its directory is. -/
theorem isText_join_iff {directory name : RawText} (hname : IsText name) :
    IsText (join directory name) ↔ IsText directory := by
  rw [join]
  split
  next hopen =>
    refine ⟨fun h => ?_, fun h => h.append hname⟩
    rcases hopen with rfl | hopen
    · exact ⟨"", rfl⟩
    · obtain ⟨front, rfl, -⟩ := pieces_of_endsOpen hopen
      rw [List.append_assoc, List.singleton_append] at h
      exact (h.cut (by decide)).1.append isText_separator
  next => exact ⟨fun h => (h.cut (by decide)).1, fun h => h.append (isText_separator.append hname)⟩

/-- The stem of a text is a text. -/
theorem isText_stem {name : RawText} (h : IsText name) : IsText (splitName name).1 := by
  cases hextension : (splitName name).2 with
  | some extension =>
    obtain ⟨hname, -, -⟩ := eq_of_splitName (Prod.ext rfl hextension)
    rw [hname] at h
    exact (h.cut (by decide)).1
  | none =>
    rw [splitName] at hextension ⊢
    split at hextension
    next => exact h
    next => exact h
    next => cases hextension

/-- **A text with another extension** is a text. -/
theorem isText_withExtension {path extension : RawText} (h : IsText path)
    (hextension : IsText extension) : IsText (withExtension path extension) := by
  rw [withExtension]
  split
  next name hname =>
    obtain ⟨front, rest, hpieces, hnaming, -, -⟩ := exists_pieces_of_fileName? hname
    rw [hnaming, List.dropLast_concat]
    refine isText_intercalate fun part hpart => ?_
    rcases List.mem_append.mp hpart with hpart | hpart
    · exact isText_piece h (hpieces ▸ List.mem_append_left _ hpart)
    · obtain rfl := List.mem_singleton.mp hpart
      have htext : IsText name :=
        isText_piece h (hpieces ▸ List.mem_append_right _ List.mem_cons_self)
      rw [withNameExtension]
      dsimp only
      split
      · exact ⟨"..", rfl⟩
      · exact (isText_extended_iff hextension).mpr (isText_stem htext)
  next => exact h

end Path

end HackStack
