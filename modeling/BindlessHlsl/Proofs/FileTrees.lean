import BindlessHlsl.Proofs.Gathering
import BindlessHlsl.SearchPath
import Mathlib.Data.List.Nodup

/-!
Trees as file systems have them (`FileTree.Proper`), and what happens to them when files are written
into one directory (`FileTree.Extends`). A path that led somewhere leads there still, and a path
that names no file of that directory leads to the same thing as before (`Extends.node?_eq`), so that
a search path finds the same files.
-/

namespace BindlessHlsl

/-! ## Paths below a directory -/

namespace Path

theorem segments_ne_nil (chars : List Char) : segments chars ≠ [] := by
  cases chars with
  | nil => simp [segments]
  | cons c rest =>
    rw [segments]
    split
    · simp
    · split <;> simp

theorem segments_of_not_mem {chars : List Char} (h : separator ∉ chars) :
    segments chars = [chars] := by
  induction chars with
  | nil => rfl
  | cons c rest ih =>
    obtain ⟨hc, hrest⟩ := not_or.1 (mt List.mem_cons.2 h)
    rw [segments, if_neg (Ne.symm hc), ih hrest]

theorem not_mem_of_mem_segments {chars segment : List Char} (h : segment ∈ segments chars) :
    separator ∉ segment := by
  induction chars generalizing segment with
  | nil =>
    rw [List.mem_singleton.1 h]
    exact List.not_mem_nil
  | cons c rest ih =>
    rw [segments] at h
    split at h
    next =>
      rcases List.mem_cons.1 h with rfl | h
      · exact List.not_mem_nil
      · exact ih h
    next hc =>
      obtain ⟨first, others, hf⟩ := List.exists_cons_of_ne_nil (segments_ne_nil rest)
      rw [hf] at h ih
      rcases List.mem_cons.1 h with rfl | h
      · exact List.not_mem_cons_of_ne_of_not_mem (Ne.symm hc) (ih List.mem_cons_self)
      · exact ih (List.mem_cons_of_mem _ h)

/-- A separator ends a segment. -/
theorem segments_append_separator (front back : List Char) :
    segments (front ++ separator :: back) = segments front ++ segments back := by
  induction front with
  | nil => rfl
  | cons c front ih =>
    rw [List.cons_append, segments, segments]
    split
    · rw [ih]
      rfl
    · obtain ⟨first, others, hf⟩ := List.exists_cons_of_ne_nil (segments_ne_nil front)
      rw [ih, hf]
      rfl

/-- A name is put behind a directory, with a separator between them unless there is one or no
directory. -/
theorem toList_join {directory name : String} (h : separator ∉ name.toList) :
    ((directory.toList = [] ∨ ∃ front, directory.toList = front ++ [separator]) ∧
      (join directory name).toList = directory.toList ++ name.toList) ∨
    (directory.toList ≠ [] ∧
      (join directory name).toList = directory.toList ++ separator :: name.toList) := by
  have hjoin : join directory name =
      if directory.toList.isEmpty || directory.toList.getLast? == some separator then
        directory ++ name
      else directory ++ "/" ++ name := by
    unfold join
    split
    next hn =>
      rw [hn] at h
      exact absurd List.mem_cons_self h
    next => rfl
  rw [hjoin]
  split
  next hc =>
    refine .inl ⟨?_, String.toList_append ..⟩
    rcases Bool.or_eq_true_iff.1 hc with he | hl
    · exact .inl (List.isEmpty_iff.1 he)
    · exact .inr (List.getLast?_eq_some_iff.1 (eq_of_beq hl))
  next hc =>
    refine .inr ⟨fun he => hc (by simp [he]), ?_⟩
    rw [String.toList_append, String.toList_append, List.append_assoc]
    rfl

/-- The segments of a directory come in front of a name below it, but for the empty one behind a
last separator. -/
theorem exists_segments_join (directory : String) {name : String}
    (h : separator ∉ name.toList) :
    ∃ front, segments (join directory name).toList = front ++ [name.toList] ∧
      (segments directory.toList = front ∨ segments directory.toList = front ++ [[]]) := by
  rcases toList_join h with ⟨hd | ⟨front, hd⟩, hj⟩ | ⟨-, hj⟩
  · refine ⟨[], ?_, .inr ?_⟩
    · rw [hj, hd, List.nil_append, segments_of_not_mem h]
      rfl
    · rw [hd]
      rfl
  · refine ⟨segments front, ?_, .inr ?_⟩
    · rw [hj, hd, List.append_assoc, List.singleton_append, segments_append_separator,
        segments_of_not_mem h]
    · rw [hd, segments_append_separator]
      rfl
  · refine ⟨segments directory.toList, ?_, .inl rfl⟩
    rw [hj, segments_append_separator, segments_of_not_mem h]

theorem head?_join (directory : String) {name : String} (h : separator ∉ name.toList) :
    (join directory name).toList.head? = some separator ↔
      directory.toList.head? = some separator := by
  have hfront : ∀ back : List Char, directory.toList ≠ [] →
      (directory.toList ++ back).head? = directory.toList.head? := by
    intro back hne
    obtain ⟨c, rest, hd⟩ := List.exists_cons_of_ne_nil hne
    rw [hd]
    rfl
  rcases toList_join h with ⟨hd | ⟨front, hd⟩, hj⟩ | ⟨hd, hj⟩
  · rw [hj, hd, List.nil_append]
    exact iff_of_false (fun hs => h (List.mem_of_head? hs)) nofun
  · rw [hj, hfront _ (by simp [hd])]
  · rw [hj, hfront _ hd]

end Path

namespace FileTree

/-! ## Walks -/

/-- A name that something in a directory can have. -/
structure IsName (name : String) : Prop where
  not_idle : isIdle name = false
  ne_parent : name ≠ ".."
  no_separator : Path.separator ∉ name.toList

instance (name : String) : Decidable (IsName name) :=
  decidable_of_iff (isIdle name = false ∧ name ≠ ".." ∧ Path.separator ∉ name.toList)
    ⟨fun h => ⟨h.1, h.2.1, h.2.2⟩, fun h => ⟨h.not_idle, h.ne_parent, h.no_separator⟩⟩

/-- The place that a path leads to if it may be empty, as the path of a directory. -/
def placeOf (t : FileTree) (path : String) : Except FileError (List String) :=
  t.walk (t.origin path) (steps path)

/-- The place of the directory in which the last name of a path is looked up. -/
def directoryOf (t : FileTree) (path : String) : Except FileError (List String) :=
  t.walk (t.origin path) (steps path).dropLast

variable {t t' : FileTree} {place out : List String} {path directory name : String}

theorem walk_append (front back : List String) :
    t.walk place (front ++ back) = (t.walk place front).bind fun q => t.walk q back := by
  induction front generalizing place with
  | nil => rfl
  | cons name rest ih =>
    rw [List.cons_append, walk, walk]
    split
    · split
      · exact ih
      · split
        · exact ih
        · split
          · exact ih
          · rfl
    · rfl

/-- Where one name of a walk leads. -/
inductive Step (t : FileTree) (place : List String) (name : String) : List String → Prop
  | idle (hd : t.isDirectoryAt place = true) (hi : isIdle name = true) : Step t place name place
  | parent (hd : t.isDirectoryAt place = true) (hn : name = "..") : Step t place name place.dropLast
  | enter (hd : t.isDirectoryAt place = true) (hi : isIdle name = false) (hn : name ≠ "..")
      (hs : (t.get? (place ++ [name])).isSome = true) : Step t place name (place ++ [name])

theorem Step.isDirectoryAt {next : List String} (h : t.Step place name next) :
    t.isDirectoryAt place = true := by
  cases h <;> assumption

theorem Step.mono {next : List String} (h : t.Step place name next)
    (hd : ∀ place, t.isDirectoryAt place = true → t'.isDirectoryAt place = true)
    (hs : ∀ place, (t.get? place).isSome = true → (t'.get? place).isSome = true) :
    t'.Step place name next := by
  cases h with
  | idle hp hi => exact .idle (hd _ hp) hi
  | parent hp hn => exact .parent (hd _ hp) hn
  | enter hp hi hn hg => exact .enter (hd _ hp) hi hn (hs _ hg)

theorem walk_cons_eq_ok {rest q : List String} :
    t.walk place (name :: rest) = .ok q ↔
      ∃ next, t.Step place name next ∧ t.walk next rest = .ok q := by
  constructor
  · intro h
    rw [walk] at h
    split at h
    case isFalse => cases h
    next hd =>
    split at h
    next hi => exact ⟨_, .idle hd hi, h⟩
    next hi =>
    split at h
    next hn => exact ⟨_, .parent hd hn, h⟩
    next hn =>
    split at h
    next hs => exact ⟨_, .enter hd (by simpa using hi) hn hs, h⟩
    next => cases h
  · rintro ⟨next, hstep, h⟩
    cases hstep with
    | idle hd hi => rwa [walk, if_pos hd, if_pos hi]
    | parent hd hn => rwa [walk, if_pos hd, if_neg (by rw [hn]; decide), if_pos hn]
    | enter hd hi hn hs => rwa [walk, if_pos hd, if_neg (by simp [hi]), if_neg hn, if_pos hs]

/-- What leads somewhere leads there after more was put into the tree. -/
theorem walk_mono {names q : List String}
    (hd : ∀ place, t.isDirectoryAt place = true → t'.isDirectoryAt place = true)
    (hs : ∀ place, (t.get? place).isSome = true → (t'.get? place).isSome = true)
    (h : t.walk place names = .ok q) : t'.walk place names = .ok q := by
  induction names generalizing place with
  | nil => exact h
  | cons name rest ih =>
    obtain ⟨next, hstep, h⟩ := walk_cons_eq_ok.1 h
    exact walk_cons_eq_ok.2 ⟨next, hstep.mono hd hs, ih h⟩

theorem walk_name (h : IsName name) (hd : t.isDirectoryAt place = true) :
    t.walk place [name] =
      if (t.get? (place ++ [name])).isSome then .ok (place ++ [name]) else .error .notFound := by
  rw [walk, if_pos hd, if_neg (by simp [h.not_idle]), if_neg h.ne_parent]
  rfl

/-- A path into a directory: the names in front of the last one lead to the directory. -/
theorem exists_steps_join (directory : String) (h : Path.separator ∉ name.toList) :
    ∃ front, steps (Path.join directory name) = front ++ [name] ∧
      (steps directory = front ∨ steps directory = front ++ [""]) := by
  obtain ⟨front, hj, hd⟩ := Path.exists_segments_join directory h
  refine ⟨front.map String.ofList, ?_, hd.imp ?_ ?_⟩
  · rw [steps, hj, List.map_append, List.map_singleton, String.ofList_toList]
  · intro hd
    rw [steps, hd]
  · intro hd
    rw [steps, hd, List.map_append]
    rfl

theorem origin_join (directory : String) (h : Path.separator ∉ name.toList) :
    t.origin (Path.join directory name) = t.origin directory := by
  simp only [origin, Path.head?_join directory h]

theorem directoryOf_join (h : Path.separator ∉ name.toList) (hd : t.isDirectoryAt place = true) :
    t.directoryOf (Path.join directory name) = .ok place ↔ t.placeOf directory = .ok place := by
  obtain ⟨front, hj, hs⟩ := exists_steps_join directory h
  rw [directoryOf, hj, List.dropLast_concat, origin_join directory h, placeOf]
  rcases hs with hs | hs
  · rw [hs]
  · rw [hs, walk_append]
    have hidle : ∀ q, t.walk q [""] = if t.isDirectoryAt q then .ok q else .error .notDirectory :=
      fun q => rfl
    cases hw : t.walk (t.origin directory) front with
    | error e => exact iff_of_false nofun nofun
    | ok q =>
      rw [Except.bind, hidle]
      constructor
      · intro he
        cases he
        rw [if_pos hd]
      · intro he
        split at he
        · exact he
        · cases he

theorem write_join {bytes : List UInt8} (hn : IsName name)
    (hp : t.placeOf directory = .ok place) (hd : t.isDirectoryAt place = true) :
    t.write (Path.join directory name) bytes =
      if t.isDirectoryAt (place ++ [name]) then .error .isDirectory
      else .ok (t.set (place ++ [name]) (.file bytes)) := by
  have hwalk := (directoryOf_join hn.no_separator hd).2 hp
  obtain ⟨front, hj, -⟩ := exists_steps_join directory hn.no_separator
  have hlast : (steps (Path.join directory name)).getLastD "" = name := by
    rw [hj, List.getLastD_concat]
  have hparent : (name == "..") = false := by simpa using hn.ne_parent
  rw [directoryOf] at hwalk
  simp only [write, hwalk, hlast, bind, Except.bind, hd, hn.not_idle, hparent, Bool.false_or,
    if_true]
  rfl

/-- The parent of a directory is no place for a file. -/
theorem write_join_parent {bytes : List UInt8} :
    t.write (Path.join directory "..") bytes ≠ .ok t' := by
  obtain ⟨front, hj, -⟩ : ∃ front, steps (Path.join directory "..") = front ++ [".."] ∧ _ :=
    exists_steps_join directory (by decide)
  have hlast : (steps (Path.join directory "..")).getLastD "" = ".." := by
    rw [hj, List.getLastD_concat]
  intro h
  simp only [write, hlast, bind, Except.bind] at h
  split at h
  · cases h
  · split at h
    · simp at h
    · cases h

theorem walk_steps (t : FileTree) (path : String) :
    t.walk (t.origin path) (steps path) =
      (t.directoryOf path).bind fun q => t.walk q [(steps path).getLastD ""] := by
  have hne : steps path ≠ [] := by
    rw [steps, Ne, List.map_eq_nil_iff]
    exact Path.segments_ne_nil _
  have hsteps : steps path = (steps path).dropLast ++ [(steps path).getLastD ""] := by
    rw [List.getLastD_eq_getLast?, List.getLast?_eq_some_getLast hne]
    exact (List.dropLast_concat_getLast hne).symm
  rw [directoryOf, ← walk_append, ← hsteps]

/-- What a path leads to is a step away from its directory. -/
theorem node?_eq_some_iff {node : FileNode} :
    t.node? path = some node ↔ path ≠ "" ∧ ∃ q next, t.directoryOf path = .ok q ∧
      t.Step q ((steps path).getLastD "") next ∧ t.get? next = some node := by
  have hsingle : ∀ q next, t.walk q [(steps path).getLastD ""] = .ok next ↔
      t.Step q ((steps path).getLastD "") next := by
    intro q next
    rw [walk_cons_eq_ok]
    simp [walk]
  rw [node?, locate]
  by_cases hempty : path = ""
  · simp [hempty]
  rw [if_neg hempty, walk_steps]
  cases t.directoryOf path with
  | error e => simp [Except.bind]
  | ok q =>
    simp only [Except.bind, ne_eq, hempty, not_false_eq_true, true_and, Except.ok.injEq,
      exists_and_left, exists_eq_left', ← hsingle]
    cases t.walk q [(steps path).getLastD ""] <;> simp

theorem locate_join (hn : IsName name) (hp : t.placeOf directory = .ok place)
    (hd : t.isDirectoryAt place = true) :
    t.locate (Path.join directory name) =
      if (t.get? (place ++ [name])).isSome then .ok (place ++ [name]) else .error .notFound := by
  have hwalk := (directoryOf_join hn.no_separator hd).2 hp
  obtain ⟨front, hj, -⟩ := exists_steps_join directory hn.no_separator
  have hne : Path.join directory name ≠ "" := by
    intro he
    rw [he] at hj
    have hempty : [""] = front ++ [name] := hj
    have hname : name = "" := by
      simpa using (congrArg List.getLast? hempty).symm
    exact absurd hn.not_idle (by rw [hname]; decide)
  rw [directoryOf, hj, List.dropLast_concat] at hwalk
  rw [locate, if_neg hne, hj, walk_append, hwalk]
  exact walk_name hn hd

theorem read_join {text : String} (hn : IsName name) (hp : t.placeOf directory = .ok place)
    (hd : t.isDirectoryAt place = true)
    (hg : t.get? (place ++ [name]) = some (.file (Utf8.encode text))) :
    t.read (Path.join directory name) = .ok text := by
  rw [read, locate_join hn hp hd, hg]
  simp only [Option.isSome_some, if_true, bind, Except.bind, hg, Utf8.decode?_encode]

/-! ## Places -/

theorem lookup_setEntry (entries : List (List String × FileNode)) (node : FileNode)
    (other : List String) :
    (setEntry place node entries).lookup other =
      if other = place then some node else entries.lookup other := by
  induction entries with
  | nil =>
    rw [setEntry, List.lookup_cons]
    split <;> simp_all
  | cons entry rest ih =>
    rw [setEntry]
    split
    next he =>
      rw [List.lookup_cons, List.lookup_cons, ← he]
      by_cases h : other = place
      · simp [h]
      · rw [beq_false_of_ne h, if_neg h]
    next he =>
      rw [List.lookup_cons, List.lookup_cons, ih]
      by_cases h : other = place
      · rw [h, beq_false_of_ne he]
      · rw [if_neg h, if_neg h]

theorem get?_set (hne : place ≠ []) (node : FileNode) (other : List String) :
    (t.set place node).get? other = if other = place then some node else t.get? other := by
  unfold get? set
  by_cases ho : other = []
  · simp [ho, Ne.symm hne]
  · have : other.isEmpty = false := by simpa using ho
    rw [this, if_neg Bool.false_ne_true, if_neg Bool.false_ne_true, lookup_setEntry]

theorem append_singleton_ne_nil (parent : List String) (name : String) : parent ++ [name] ≠ [] :=
  List.append_ne_nil_of_right_ne_nil _ (List.cons_ne_nil name [])

theorem append_singleton_ne (parent : List String) {name name' : String} (h : name ≠ name') :
    parent ++ [name] ≠ parent ++ [name'] :=
  fun he => h (List.singleton_inj.1 (List.append_cancel_left he))

theorem isDirectoryAt_iff : t.isDirectoryAt place = true ↔ t.get? place = some .directory := by
  rw [isDirectoryAt, beq_iff_eq]

theorem map_fst_setEntry (node : FileNode) (entries : List (List String × FileNode)) :
    (setEntry place node entries).map Prod.fst =
      if place ∈ entries.map Prod.fst then entries.map Prod.fst
      else entries.map Prod.fst ++ [place] := by
  induction entries with
  | nil => rfl
  | cons entry rest ih =>
    rw [setEntry]
    split
    next he => simp [he]
    next he =>
      rw [List.map_cons, ih, List.map_cons]
      by_cases hm : place ∈ rest.map Prod.fst
      · rw [if_pos hm, if_pos (List.mem_cons_of_mem _ hm)]
      · rw [if_neg hm, if_neg fun h => (List.mem_cons.1 h).elim he hm]
        rfl

theorem mem_setEntry {node : FileNode} {entries : List (List String × FileNode)}
    {e : List String × FileNode} (h : e ∈ setEntry place node entries) :
    e = (place, node) ∨ e ∈ entries := by
  induction entries with
  | nil => exact .inl (List.mem_singleton.1 h)
  | cons entry rest ih =>
    rw [setEntry] at h
    split at h
    · exact (List.mem_cons.1 h).imp_right (List.mem_cons_of_mem _)
    · rcases List.mem_cons.1 h with rfl | h
      · exact .inr List.mem_cons_self
      · exact (ih h).imp_right (List.mem_cons_of_mem _)

/-! ## Proper trees -/

/-- A tree as file systems have them: no place is there twice, whatever is there has a name and
stands in a directory, and paths start at a directory. -/
structure Proper (t : FileTree) : Prop where
  nodup : (t.entries.map Prod.fst).Nodup
  standing : ∀ e ∈ t.entries, ∃ parent name, e.1 = parent ++ [name] ∧ IsName name ∧
    t.isDirectoryAt parent = true
  home : t.isDirectoryAt t.home = true

theorem standing_iff : (∃ parent name, place = parent ++ [name] ∧ IsName name ∧
    t.isDirectoryAt parent = true) ↔
      place ≠ [] ∧ IsName (place.getLastD "") ∧ t.isDirectoryAt place.dropLast = true := by
  constructor
  · rintro ⟨parent, name, rfl, hn, hd⟩
    rw [List.getLastD_concat, List.dropLast_concat]
    exact ⟨append_singleton_ne_nil parent name, hn, hd⟩
  · rintro ⟨hne, hn, hd⟩
    rw [List.getLastD_eq_getLast?, List.getLast?_eq_some_getLast hne] at hn
    exact ⟨_, _, (List.dropLast_concat_getLast hne).symm, hn, hd⟩

instance (t : FileTree) : Decidable t.Proper :=
  decidable_of_iff ((t.entries.map Prod.fst).Nodup ∧
    (∀ e ∈ t.entries, e.1 ≠ [] ∧ IsName (e.1.getLastD "") ∧
      t.isDirectoryAt e.1.dropLast = true) ∧ t.isDirectoryAt t.home = true)
    ⟨fun h => ⟨h.1, fun e he => standing_iff.2 (h.2.1 e he), h.2.2⟩,
      fun h => ⟨h.nodup, fun e he => standing_iff.1 (h.standing e he), h.home⟩⟩

theorem isDirectoryAt_set {node : FileNode} (hd : t.isDirectoryAt place = true)
    {parent : List String} (hnode : t.isDirectoryAt (parent ++ [name]) = true → node = .directory) :
    (t.set (parent ++ [name]) node).isDirectoryAt place = true := by
  rw [isDirectoryAt_iff, get?_set (append_singleton_ne_nil parent name)]
  split
  next he => rw [hnode (he ▸ hd)]
  next => exact isDirectoryAt_iff.1 hd

theorem Proper.set {node : FileNode} {parent : List String} (h : t.Proper)
    (hd : t.isDirectoryAt parent = true) (hn : IsName name)
    (hnode : t.isDirectoryAt (parent ++ [name]) = true → node = .directory) :
    (t.set (parent ++ [name]) node).Proper where
  nodup := by
    rw [FileTree.set, map_fst_setEntry]
    split
    · exact h.nodup
    next hm =>
      refine List.nodup_append.2 ⟨h.nodup, List.pairwise_singleton _ _, ?_⟩
      rintro a ha _ hb rfl
      exact hm (List.mem_singleton.1 hb ▸ ha)
  standing e he := by
    rcases mem_setEntry he with rfl | he
    · exact ⟨parent, name, rfl, hn, isDirectoryAt_set hd hnode⟩
    · obtain ⟨parent', name', he, hn', hd'⟩ := h.standing e he
      exact ⟨parent', name', he, hn', isDirectoryAt_set hd' hnode⟩
  home := isDirectoryAt_set h.home hnode

theorem Proper.isDirectoryAt_dropLast (h : t.Proper) (hd : t.isDirectoryAt place = true) :
    t.isDirectoryAt place.dropLast = true := by
  rw [isDirectoryAt_iff, get?] at hd
  split at hd
  next he =>
    rw [List.isEmpty_iff.1 he]
    rfl
  next =>
    obtain ⟨parent, name, hp, -, hd⟩ := h.standing _ (mem_of_lookup hd)
    rw [show place = parent ++ [name] from hp, List.dropLast_concat]
    exact hd

theorem isSome_get?_iff (hne : place ≠ []) :
    (t.get? place).isSome = true ↔ place ∈ t.entries.map Prod.fst := by
  have hempty : place.isEmpty = false := by simpa using hne
  rw [get?, hempty, if_neg Bool.false_ne_true]
  induction t.entries with
  | nil => simp
  | cons entry rest ih =>
    rw [List.lookup_cons, List.map_cons, List.mem_cons]
    by_cases he : place = entry.1
    · simp [he]
    · rw [beq_false_of_ne he]
      exact ih.trans (or_iff_right he).symm

/-- The name under which an entry stands in a directory. -/
def nameIn (place : List String) (entry : List String) : Option String :=
  if entry.dropLast = place then entry.getLast? else none

theorem nameIn_eq_some {entry : List String} (h : nameIn place entry = some name) :
    entry = place ++ [name] := by
  rw [nameIn] at h
  split at h
  next hd =>
    obtain ⟨front, hf⟩ := List.getLast?_eq_some_iff.1 h
    rw [hf, List.dropLast_concat] at hd
    rw [hf, hd]
  next => cases h

theorem nameIn_append (place : List String) (name : String) :
    nameIn place (place ++ [name]) = some name := by
  rw [nameIn, List.dropLast_concat, if_pos rfl, List.getLast?_concat]

/-- The names in a directory are those of what stands there, each once. -/
theorem Proper.list_eq {names : List String} (h : t.Proper) (hl : t.list path = .ok names) :
    ∃ place, t.placeOf path = .ok place ∧ t.isDirectoryAt place = true ∧ names.Nodup ∧
      (∀ name, name ∈ names ↔ (t.get? (place ++ [name])).isSome = true) ∧
      ∀ name ∈ names, IsName name := by
  unfold list locate at hl
  split at hl
  · cases hl
  simp only [bind, Except.bind] at hl
  split at hl
  · cases hl
  next place hp =>
  split at hl
  case isFalse => cases hl
  next hd =>
  have hnames : names = (t.entries.map Prod.fst).filterMap (nameIn place) := by
    rw [List.filterMap_map]
    exact (Except.ok.inj hl).symm
  have hmem : ∀ name, name ∈ names ↔ place ++ [name] ∈ t.entries.map Prod.fst := by
    intro name
    rw [hnames, List.mem_filterMap]
    refine ⟨?_, fun hm => ⟨_, hm, nameIn_append place name⟩⟩
    rintro ⟨entry, hm, hn⟩
    rwa [← nameIn_eq_some hn]
  refine ⟨place, hp, hd, ?_, ?_, ?_⟩
  · rw [hnames]
    refine List.Nodup.filterMap (fun a a' name ha ha' => ?_) h.nodup
    rw [nameIn_eq_some ha, nameIn_eq_some ha']
  · intro name
    rw [hmem, isSome_get?_iff (append_singleton_ne_nil place name)]
  · intro name hm
    obtain ⟨e, he, hname⟩ := List.mem_map.1 ((hmem name).1 hm)
    obtain ⟨parent, name', hp', hn, -⟩ := h.standing e he
    rw [hp'] at hname
    rwa [← List.singleton_inj.1 (List.append_inj' hname rfl).2]

/-- What is there in a tree is there in another one, too, which has the same home. -/
structure Within (t t' : FileTree) : Prop where
  home : t'.home = t.home
  get? : ∀ {place node}, t.get? place = some node → t'.get? place = some node

theorem Within.refl (t : FileTree) : Within t t := ⟨rfl, id⟩

theorem Within.trans {t'' : FileTree} (h : Within t t') (h' : Within t' t'') : Within t t'' :=
  ⟨h'.home.trans h.home, fun hg => h'.get? (h.get? hg)⟩

/-- Making directories along names leaves what is there and leads to a directory. -/
theorem Proper.makeAlong {names : List String} (h : t.Proper)
    (hd : t.isDirectoryAt place = true) (hs : ∀ name ∈ names, Path.separator ∉ name.toList)
    (hm : t.makeAlong place names = .ok t') :
    t'.Proper ∧ Within t t' ∧
      ∃ q, t'.walk place names = .ok q ∧ t'.isDirectoryAt q = true := by
  induction names generalizing t place with
  | nil =>
    cases hm
    exact ⟨h, .refl _, place, rfl, hd⟩
  | cons name rest ih =>
    have hrest : ∀ name ∈ rest, Path.separator ∉ name.toList :=
      fun name hm => hs name (List.mem_cons_of_mem _ hm)
    have hstep : ∀ {t' : FileTree}, Within t t' → t'.isDirectoryAt place = true :=
      fun hw => isDirectoryAt_iff.2 (hw.get? (isDirectoryAt_iff.1 hd))
    rw [FileTree.makeAlong] at hm
    split at hm
    next hi =>
      obtain ⟨hp, hw, q, hq, hd'⟩ := ih h hd hrest hm
      exact ⟨hp, hw, q, walk_cons_eq_ok.2 ⟨_, .idle (hstep hw) hi, hq⟩, hd'⟩
    next hi =>
    split at hm
    next hn =>
      obtain ⟨hp, hw, q, hq, hd'⟩ := ih h (h.isDirectoryAt_dropLast hd) hrest hm
      exact ⟨hp, hw, q, walk_cons_eq_ok.2 ⟨_, .parent (hstep hw) hn, hq⟩, hd'⟩
    next hn =>
    -- in both cases that go on, a directory stands under the name at last
    have hend : ∀ {u : FileTree}, Within t u → Within u t' →
        u.get? (place ++ [name]) = some .directory →
        (∃ q, t'.walk (place ++ [name]) rest = .ok q ∧ t'.isDirectoryAt q = true) →
        ∃ q, t'.walk place (name :: rest) = .ok q ∧ t'.isDirectoryAt q = true := by
      rintro u hw hw' hg ⟨q, hq, hd'⟩
      have hs : (t'.get? (place ++ [name])).isSome = true := by
        rw [hw'.get? hg]
        rfl
      have hnext := Step.enter (hstep (hw.trans hw')) (by simpa using hi) hn hs
      exact ⟨q, walk_cons_eq_ok.2 ⟨_, hnext, hq⟩, hd'⟩
    split at hm
    next hg =>
      obtain ⟨hp, hw, hq⟩ := ih h (isDirectoryAt_iff.2 hg) hrest hm
      exact ⟨hp, hw, hend (.refl t) hw hg hq⟩
    next => cases hm
    next hg =>
      have hname : IsName name :=
        ⟨by simpa using hi, hn, hs name List.mem_cons_self⟩
      have hset : (t.set (place ++ [name]) .directory).get? (place ++ [name]) =
          some .directory := by
        rw [get?_set (append_singleton_ne_nil place name), if_pos rfl]
      have hw : Within t (t.set (place ++ [name]) .directory) := by
        refine ⟨rfl, fun {other node} ho => ?_⟩
        rw [get?_set (append_singleton_ne_nil place name), if_neg]
        · exact ho
        · rintro rfl
          rw [hg] at ho
          cases ho
      obtain ⟨hp, hw', hq⟩ := ih (h.set hd hname fun _ => rfl) (isDirectoryAt_iff.2 hset) hrest hm
      exact ⟨hp, hw.trans hw', hend hw hw' hset hq⟩

theorem Proper.isDirectoryAt_origin (h : t.Proper) (path : String) :
    t.isDirectoryAt (t.origin path) = true := by
  rw [origin]
  split
  · rfl
  · exact h.home

theorem Proper.makeDirectories (h : t.Proper) (hm : t.makeDirectories path = .ok t') :
    t'.Proper ∧ Within t t' ∧ ∃ q, t'.placeOf path = .ok q ∧ t'.isDirectoryAt q = true := by
  have hs : ∀ name ∈ steps path, Path.separator ∉ name.toList := by
    intro name hm
    obtain ⟨segment, hseg, rfl⟩ := List.mem_map.1 hm
    rw [String.toList_ofList]
    exact Path.not_mem_of_mem_segments hseg
  obtain ⟨hp, hw, q, hq⟩ := Proper.makeAlong h (h.isDirectoryAt_origin path) hs hm
  refine ⟨hp, hw, q, ?_⟩
  rw [placeOf, origin, hw.home]
  exact hq

theorem Within.placeOf {q : List String} (h : Within t t') (hp : t.placeOf path = .ok q) :
    t'.placeOf path = .ok q := by
  rw [FileTree.placeOf, origin, h.home]
  refine walk_mono (fun place hd => ?_) (fun place hs => ?_) hp
  · exact isDirectoryAt_iff.2 (h.get? (isDirectoryAt_iff.1 hd))
  · obtain ⟨node, hn⟩ := Option.isSome_iff_exists.1 hs
    rw [h.get? hn]
    rfl

/-! ## Files written into one directory -/

/-- Files were written into a directory and nothing else happened. -/
structure Extends (out : List String) (t t' : FileTree) : Prop where
  home : t'.home = t.home
  outside : ∀ place, (∀ name, place ≠ out ++ [name]) → t'.get? place = t.get? place
  inside : ∀ name, t'.get? (out ++ [name]) = t.get? (out ++ [name]) ∨
    (t.isDirectoryAt (out ++ [name]) = false ∧
      ∃ bytes, t'.get? (out ++ [name]) = some (.file bytes))

namespace Extends

theorem refl (out : List String) (t : FileTree) : Extends out t t :=
  ⟨rfl, fun _ _ => rfl, fun _ => .inl rfl⟩

theorem isDirectoryAt_eq (h : Extends out t t') (place : List String) :
    t'.isDirectoryAt place = t.isDirectoryAt place := by
  by_cases hp : ∀ name, place ≠ out ++ [name]
  · rw [isDirectoryAt, h.outside place hp, isDirectoryAt]
  · simp only [not_forall, not_not] at hp
    obtain ⟨name, rfl⟩ := hp
    rcases h.inside name with he | ⟨hd, bytes, hb⟩
    · rw [isDirectoryAt, he, isDirectoryAt]
    · rw [hd, isDirectoryAt, hb]
      rfl

theorem trans {t'' : FileTree} (h : Extends out t t') (h' : Extends out t' t'') :
    Extends out t t'' where
  home := h'.home.trans h.home
  outside place hp := (h'.outside place hp).trans (h.outside place hp)
  inside name := by
    rcases h'.inside name with he | ⟨hd, hb⟩
    · rw [he]
      exact h.inside name
    · exact .inr ⟨(h.isDirectoryAt_eq _).symm.trans hd, hb⟩

/-- A file is written where no directory stands. -/
theorem set (bytes : List UInt8) (hd : t.isDirectoryAt (out ++ [name]) = false) :
    Extends out t (t.set (out ++ [name]) (.file bytes)) where
  home := rfl
  outside place hp := by rw [get?_set (append_singleton_ne_nil out name), if_neg (hp name)]
  inside other := by
    rw [get?_set (append_singleton_ne_nil out name)]
    split
    next he =>
      rw [he]
      exact .inr ⟨hd, bytes, rfl⟩
    next => exact .inl rfl

theorem isSome_get? (h : Extends out t t') {place : List String}
    (hs : (t.get? place).isSome = true) : (t'.get? place).isSome = true := by
  by_cases hp : ∀ name, place ≠ out ++ [name]
  · rwa [h.outside place hp]
  · simp only [not_forall, not_not] at hp
    obtain ⟨name, rfl⟩ := hp
    rcases h.inside name with he | ⟨-, bytes, hb⟩
    · rwa [he]
    · rw [hb]
      rfl

theorem walk_of_ok (h : Extends out t t') {names q : List String}
    (hw : t.walk place names = .ok q) : t'.walk place names = .ok q :=
  walk_mono (fun place hd => (h.isDirectoryAt_eq place).trans hd) (fun _ => h.isSome_get?) hw

theorem placeOf_of_ok (h : Extends out t t') {q : List String} (hp : t.placeOf path = .ok q) :
    t'.placeOf path = .ok q := by
  rw [placeOf, origin, h.home]
  exact h.walk_of_ok hp

/-- A step is one that could be taken before, or it leads to a new file. -/
theorem step_or (h : Extends out t t') {next : List String} (hstep : t'.Step place name next) :
    t.Step place name next ∨ t'.isDirectoryAt next = false := by
  have hdir : t.isDirectoryAt place = true :=
    (h.isDirectoryAt_eq place).symm.trans hstep.isDirectoryAt
  cases hstep with
  | idle _ hi => exact .inl (.idle hdir hi)
  | parent _ hn => exact .inl (.parent hdir hn)
  | enter _ hi hn _ =>
    by_cases hs : (t.get? (place ++ [name])).isSome = true
    · exact .inl (.enter hdir hi hn hs)
    · rw [h.isDirectoryAt_eq, isDirectoryAt, Option.not_isSome_iff_eq_none.1 hs]
      exact .inr rfl

/-- New files lead no further. -/
theorem walk_or (h : Extends out t t') {names q : List String}
    (hw : t'.walk place names = .ok q) :
    t.walk place names = .ok q ∨ t'.isDirectoryAt q = false := by
  induction names generalizing place with
  | nil => exact .inl hw
  | cons name rest ih =>
    obtain ⟨next, hstep, hw⟩ := walk_cons_eq_ok.1 hw
    rcases h.step_or hstep with hstep | hfile
    · exact (ih hw).imp_left fun hw => walk_cons_eq_ok.2 ⟨next, hstep, hw⟩
    · cases rest with
      | nil =>
        cases hw
        exact .inr hfile
      | cons =>
        obtain ⟨_, hnext, -⟩ := walk_cons_eq_ok.1 hw
        exact absurd hnext.isDirectoryAt (by simp [hfile])

theorem get?_eq_of_ne (h : Extends out t t') (hne : place ≠ out) (name : String) :
    t'.get? (place ++ [name]) = t.get? (place ++ [name]) :=
  h.outside _ fun _ he => hne (List.append_inj' he rfl).1

theorem step_iff (h : Extends out t t') (hne : place ≠ out) {next : List String} :
    t'.Step place name next ↔ t.Step place name next := by
  have hget := h.get?_eq_of_ne hne name
  have hdir := h.isDirectoryAt_eq place
  constructor
  · intro hstep
    cases hstep with
    | idle hd hi => exact .idle (hdir ▸ hd) hi
    | parent hd hn => exact .parent (hdir ▸ hd) hn
    | enter hd hi hn hs => exact .enter (hdir ▸ hd) hi hn (hget ▸ hs)
  · intro hstep
    exact hstep.mono (fun q hd => (h.isDirectoryAt_eq q).trans hd) fun _ => h.isSome_get?

/-- A step from another directory leads to what it led to: a directory, which is left alone, or what
stands in that other directory. -/
theorem get?_eq_of_step (h : Extends out t t') (ht : t.Proper) (hne : place ≠ out)
    {next : List String} (hstep : t.Step place name next) : t'.get? next = t.get? next := by
  have hdir : ∀ {q}, t.isDirectoryAt q = true → t'.get? q = t.get? q := by
    intro q hq
    rw [isDirectoryAt_iff.1 hq, isDirectoryAt_iff.1 ((h.isDirectoryAt_eq q).trans hq)]
  cases hstep with
  | idle hd _ => exact hdir hd
  | parent hd _ => exact hdir (ht.isDirectoryAt_dropLast hd)
  | enter => exact h.get?_eq_of_ne hne name

/-- What a path leads to stays the same unless it stands in the directory. -/
theorem node?_eq (h : Extends out t t') (ht : t.Proper) (hp : t.directoryOf path ≠ .ok out) :
    t'.node? path = t.node? path := by
  refine Option.ext fun node => ?_
  rw [node?_eq_some_iff, node?_eq_some_iff]
  refine and_congr_right fun _ => ?_
  constructor
  · rintro ⟨q, next, hq, hstep, hg⟩
    have hq' : t.directoryOf path = .ok q := by
      rw [directoryOf, origin, h.home] at hq
      exact (h.walk_or hq).resolve_right (by simp [hstep.isDirectoryAt])
    have hne : q ≠ out := fun he => hp (he ▸ hq')
    have hstep' := (h.step_iff hne).1 hstep
    exact ⟨q, next, hq', hstep', h.get?_eq_of_step ht hne hstep' ▸ hg⟩
  · rintro ⟨q, next, hq, hstep, hg⟩
    have hne : q ≠ out := fun he => hp (he ▸ hq)
    refine ⟨q, next, ?_, (h.step_iff hne).2 hstep, (h.get?_eq_of_step ht hne hstep).trans hg⟩
    rw [directoryOf, origin, h.home]
    exact h.walk_of_ok hq

/-- A file of another directory reads the same. -/
theorem read_join_eq (h : Extends out t t') (hn : IsName name)
    (hp : t.placeOf directory = .ok place) (hd : t.isDirectoryAt place = true) (hne : place ≠ out) :
    t'.read (Path.join directory name) = t.read (Path.join directory name) := by
  have hget := h.get?_eq_of_ne hne name
  have hd' : t'.isDirectoryAt place = true := (h.isDirectoryAt_eq place).trans hd
  have hlocate : t'.locate (Path.join directory name) = t.locate (Path.join directory name) := by
    rw [locate_join hn hp hd, locate_join hn (h.placeOf_of_ok hp) hd', hget]
  simp only [read, hlocate, bind, Except.bind]
  split
  · rfl
  next q hq =>
    rw [locate_join hn hp hd] at hq
    split at hq
    · cases hq
      rw [hget]
    · cases hq

end Extends

/-- The tree with files in a directory, each given by its name and its text. -/
def withFiles (t : FileTree) (out : List String) (files : List (String × String)) : FileTree :=
  files.foldl (fun t f => t.set (out ++ [f.1]) (.file (Utf8.encode f.2))) t

theorem withFiles_cons (f : String × String) (rest : List (String × String)) :
    t.withFiles out (f :: rest) =
      (t.set (out ++ [f.1]) (.file (Utf8.encode f.2))).withFiles out rest :=
  rfl

theorem withFiles_append (files more : List (String × String)) :
    t.withFiles out (files ++ more) = (t.withFiles out files).withFiles out more :=
  List.foldl_append

theorem get?_withFiles_of_ne {files : List (String × String)}
    (h : ∀ f ∈ files, place ≠ out ++ [f.1]) :
    (t.withFiles out files).get? place = t.get? place := by
  induction files generalizing t with
  | nil => rfl
  | cons f rest ih =>
    obtain ⟨hf, hrest⟩ := List.forall_mem_cons.1 h
    rw [withFiles_cons, ih hrest, get?_set (append_singleton_ne_nil out f.1), if_neg hf]

/-- Files with different names do not get into each other's way. -/
theorem get?_withFiles_of_mem {files : List (String × String)} {f : String × String}
    (hn : (files.map Prod.fst).Nodup) (h : f ∈ files) :
    (t.withFiles out files).get? (out ++ [f.1]) = some (.file (Utf8.encode f.2)) := by
  induction files generalizing t with
  | nil => cases h
  | cons g rest ih =>
    obtain ⟨hg, hrest⟩ := List.nodup_cons.1 hn
    rw [withFiles_cons]
    rcases List.mem_cons.1 h with rfl | h
    · rw [get?_withFiles_of_ne, get?_set (append_singleton_ne_nil out f.1), if_pos rfl]
      intro f' hf'
      exact append_singleton_ne out fun he => hg (he ▸ List.mem_map_of_mem hf')
    · exact ih hrest h

theorem Extends.withFiles {files : List (String × String)}
    (h : ∀ f ∈ files, t.isDirectoryAt (out ++ [f.1]) = false) :
    Extends out t (t.withFiles out files) := by
  induction files generalizing t with
  | nil => exact .refl out t
  | cons f rest ih =>
    obtain ⟨hf, hrest⟩ := List.forall_mem_cons.1 h
    have hset := Extends.set (Utf8.encode f.2) hf
    exact hset.trans (ih fun g hg => (hset.isDirectoryAt_eq _).trans (hrest g hg))

theorem Proper.withFiles {files : List (String × String)} (ht : t.Proper)
    (hd : t.isDirectoryAt out = true)
    (h : ∀ f ∈ files, IsName f.1 ∧ t.isDirectoryAt (out ++ [f.1]) = false) :
    (t.withFiles out files).Proper := by
  induction files generalizing t with
  | nil => exact ht
  | cons f rest ih =>
    obtain ⟨⟨hn, hf⟩, hrest⟩ := List.forall_mem_cons.1 h
    have hset := Extends.set (Utf8.encode f.2) hf
    refine ih (ht.set hd hn fun he => absurd he (by simp [hf]))
      ((hset.isDirectoryAt_eq out).trans hd) fun g hg => ?_
    exact (hrest g hg).imp_right (hset.isDirectoryAt_eq _).trans

theorem read_eq_of_node? {bytes : List UInt8} (h : t.node? path = some (.file bytes)) :
    t.read path =
      match Utf8.decode? bytes with
      | some text => .ok text
      | none => .error .invalidText := by
  unfold node? at h
  split at h
  next place hl =>
    cases hd : Utf8.decode? bytes <;> simp [read, hl, bind, Except.bind, h, hd]
  next => cases h

end FileTree

/-- A search path finds the same where each of its directories leads to the same. -/
theorem Includes.findInTree_congr {t t' : FileTree} {directories : List String} {path : String}
    (h : ∀ d ∈ directories,
      t'.node? (Path.join d (relative path)) = t.node? (Path.join d (relative path))) :
    findInTree t' directories path = findInTree t directories path := by
  have hsearched : searched? t' directories path = searched? t directories path := by
    unfold searched?
    induction directories with
    | nil => rfl
    | cons d rest ih =>
      obtain ⟨hd, hrest⟩ := List.forall_mem_cons.1 h
      rw [List.map_cons, List.find?_cons, List.find?_cons, ih hrest, FileTree.isFile, hd,
        FileTree.isFile]
  unfold findInTree
  rw [hsearched]
  split
  next => rfl
  next p hp =>
    obtain ⟨d, hd, rfl⟩ := List.mem_map.1 (List.mem_of_find?_eq_some hp)
    have hfile := List.find?_some hp
    unfold FileTree.isFile at hfile
    split at hfile
    next bytes hb =>
      rw [FileTree.read_eq_of_node? hb, FileTree.read_eq_of_node? ((h d hd).trans hb)]
    next => cases hfile

end BindlessHlsl
