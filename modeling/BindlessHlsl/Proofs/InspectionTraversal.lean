import BindlessHlsl.Inspection.Basic
import BindlessHlsl.Proofs.NameMap
import Mathlib.Logic.Relation

/-!
The traversal of an inspection, step by step. A state holds the keys that were entered, the files
that are being gone through and what happened so far; a path is followed if its key was not entered
before (`InspectionState.next?`). The steps come to an end, with the events of the inspection
(`Inspection.exists_run`), if every text that can be reached is listed. What every step preserves
(`InspectionState.Sound`) says which files an inspection records: none twice, each as if it stood
alone, and all that can be reached if a key stands for one text (`Inspection.Traverses`).
-/

namespace BindlessHlsl

open Relation

/-! ## States -/

/-- Where an inspection stands: the keys that were entered, the files that are being gone through,
the innermost first, and what happened so far. -/
structure InspectionState where
  entered : List String
  stack : List InspectionFrame
  events : List InspectionEvent

namespace InspectionState

/-- The state in which a root file is entered. -/
def start (file source : String) : InspectionState :=
  ⟨[Path.key file], [.ofText (Path.key file) source], []⟩

/-- The state after a note of a file, with the files after that note. -/
def take (includes : Includes) (s : InspectionState) (file : String)
    (stack : List InspectionFrame) : Note → InspectionState
  | .bindGroup _ | .variant _ => { s with stack := stack }
  | .fault reason span =>
    { s with stack := stack, events := s.events ++ [.diagnostic ⟨file, span, reason⟩] }
  | .inclusion path span =>
    let key := Path.key path
    let absent (reason : NoteFault) : InspectionState :=
      ⟨key :: s.entered, stack, s.events ++ [.lookup path, .diagnostic ⟨file, span, reason⟩]⟩
    if key ∈ s.entered then { s with stack := stack }
    else
      match includes.find path with
      | .found text => ⟨key :: s.entered, .ofText key text :: stack, s.events ++ [.lookup path]⟩
      | .missing => absent (.includeNotFound path)
      | .unreadable message => absent (.includeUnreadable path message)

/-- One step: the innermost file ends, or the next note of it is taken. Nothing follows once all
files are left. -/
def next? (includes : Includes) (s : InspectionState) : Option InspectionState :=
  match s.stack with
  | [] => none
  | ⟨file, [], record⟩ :: below =>
    some { s with stack := below, events := s.events ++ [.scanned file record] }
  | ⟨file, note :: notes, record⟩ :: below =>
    some (s.take includes file (⟨file, notes, record⟩ :: below) note)

/-- One state leads to another. -/
def Leads (includes : Includes) (s t : InspectionState) : Prop := s.next? includes = some t

/-- The states of an inspection from a root file on. -/
def Reachable (includes : Includes) (file source : String) (s : InspectionState) : Prop :=
  ReflTransGen (Leads includes) (start file source) s

/-- The file whose scan an event reports. -/
def scanned? : InspectionEvent → Option InspectionFrame
  | .scanned file record => some ⟨file, [], record⟩
  | _ => none

/-- The files that are being gone through and those that were left. -/
def files (s : InspectionState) : List InspectionFrame := s.stack ++ s.events.filterMap scanned?

/-- Both lists of events report the same scans. -/
def SameScans (events later : List InspectionEvent) : Prop :=
  later.filterMap scanned? = events.filterMap scanned?

/-- What one step can do: it leaves a file, takes a note that leads nowhere new, enters a file, or
finds none. -/
inductive Moves (includes : Includes) : InspectionState → InspectionState → Prop
  | leave {entered : List String} {file : String} {record : FileRecord}
      {below : List InspectionFrame} {events : List InspectionEvent} :
    Moves includes ⟨entered, ⟨file, [], record⟩ :: below, events⟩
      ⟨entered, below, events ++ [.scanned file record]⟩
  | pass {entered : List String} {file : String} {note : Note} {notes : List Note}
      {record : FileRecord} {below : List InspectionFrame} {events later : List InspectionEvent} :
    (∀ path span, note = .inclusion path span → Path.key path ∈ entered) → SameScans events later →
    Moves includes ⟨entered, ⟨file, note :: notes, record⟩ :: below, events⟩
      ⟨entered, ⟨file, notes, record⟩ :: below, later⟩
  | enter {entered : List String} {file path text : String} {span : Span} {notes : List Note}
      {record : FileRecord} {below : List InspectionFrame} {events later : List InspectionEvent} :
    Path.key path ∉ entered → includes.find path = .found text → SameScans events later →
    Moves includes ⟨entered, ⟨file, .inclusion path span :: notes, record⟩ :: below, events⟩
      ⟨Path.key path :: entered, .ofText (Path.key path) text :: ⟨file, notes, record⟩ :: below,
        later⟩
  | absent {entered : List String} {file path : String} {span : Span} {notes : List Note}
      {record : FileRecord} {below : List InspectionFrame} {events later : List InspectionEvent} :
    Path.key path ∉ entered → (∀ text, includes.find path ≠ .found text) → SameScans events later →
    Moves includes ⟨entered, ⟨file, .inclusion path span :: notes, record⟩ :: below, events⟩
      ⟨Path.key path :: entered, ⟨file, notes, record⟩ :: below, later⟩

variable {includes : Includes} {s t : InspectionState}

theorem moves_of_leads (h : Leads includes s t) : Moves includes s t := by
  obtain ⟨entered, stack, events⟩ := s
  rw [Leads, next?] at h
  split at h
  · cases h
  next file record below hs =>
    cases h
    cases hs
    exact .leave
  next file note notes record below hs =>
    cases h
    cases hs
    cases note with
    | bindGroup | variant => exact .pass nofun rfl
    | fault reason span => exact .pass nofun (by simp [SameScans, scanned?])
    | inclusion path span =>
      simp only [take]
      split
      next hk =>
        refine .pass (fun path' span' he => ?_) rfl
        cases he
        exact hk
      next hk =>
        split
        next hf => exact .enter hk hf (by simp [SameScans, scanned?])
        next hf => exact .absent hk (by simp [hf]) (by simp [SameScans, scanned?])
        next hf => exact .absent hk (by simp [hf]) (by simp [SameScans, scanned?])

end InspectionState

/-! ## Files that can be reached -/

namespace Inspection

/-- A file that can be reached from a root file, with its name as written and its text: the root
file itself, or one that is found under a path that a file within reach includes. -/
inductive Reached (includes : Includes) (file source : String) : String → String → Prop
  | root : Reached includes file source file source
  | inclusion {name text path inner : String} {span : Span} :
    Reached includes file source name text → .inclusion path span ∈ Note.ofText text →
    includes.find path = .found inner → Reached includes file source path inner

/-- A file within reach includes the path. -/
def Names (includes : Includes) (file source path : String) : Prop :=
  ∃ name text span, Reached includes file source name text ∧
    .inclusion path span ∈ Note.ofText text

/-- Paths with one key stand for one text, or for none. The root file counts as found under its
key. -/
structure Consistent (includes : Includes) (file source : String) : Prop where
  paths : ∀ p q, Names includes file source p → Names includes file source q →
    Path.key p = Path.key q → ∀ text, includes.find p = .found text → includes.find q = .found text
  root : ∀ p, Names includes file source p → Path.key p = Path.key file →
    includes.find p = .found source

/-- Every text within reach is listed, the one of the root file apart. -/
def Lists (includes : Includes) (file source : String) : Prop :=
  ∀ name text, Reached includes file source name text → text = source ∨ text ∈ includes.texts

variable {includes : Includes} {file source name text : String}

theorem Reached.root_or_names (h : Reached includes file source name text) :
    (name = file ∧ text = source) ∨
      Names includes file source name ∧ includes.find name = .found text := by
  cases h with
  | root => exact .inl ⟨rfl, rfl⟩
  | inclusion hr hn hf => exact .inr ⟨⟨_, _, _, hr, hn⟩, hf⟩

theorem lists_of_listed (h : includes.Listed) : Lists includes file source := by
  intro name text hr
  rcases hr.root_or_names with ⟨_, ht⟩ | ⟨_, hf⟩
  · exact .inl ht
  · exact .inr (h name text hf)

/-- Files within reach with one key have one text, if paths with one key stand for one text. -/
theorem Reached.text_eq {other inner : String} (hc : Consistent includes file source)
    (h : Reached includes file source name text) (h' : Reached includes file source other inner)
    (hk : Path.key name = Path.key other) : text = inner := by
  rcases h.root_or_names with ⟨rfl, rfl⟩ | ⟨hn, hf⟩ <;>
    rcases h'.root_or_names with ⟨rfl, rfl⟩ | ⟨hn', hf'⟩
  · rfl
  · rw [hc.root other hn' hk.symm] at hf'
    cases hf'
    rfl
  · rw [hc.root name hn hk] at hf
    cases hf
    rfl
  · rw [hc.paths name other hn hn' hk text hf] at hf'
    cases hf'
    rfl

/-- The paths that a text includes. -/
def pathsIn (text : String) : List String :=
  (Note.ofText text).filterMap fun
    | .inclusion path _ => some path
    | _ => none

theorem mem_pathsIn {path : String} :
    path ∈ pathsIn text ↔ ∃ span, .inclusion path span ∈ Note.ofText text := by
  rw [pathsIn, List.mem_filterMap]
  constructor
  · rintro ⟨note, hm, he⟩
    cases note <;> cases he
    exact ⟨_, hm⟩
  · rintro ⟨span, hm⟩
    exact ⟨_, hm, rfl⟩

/-- Paths with one key stand for one text, if that holds in a list of files with all that they
include. -/
theorem consistent_of_closed {files : List (String × String)} (hroot : (file, source) ∈ files)
    (hclosed : ∀ f ∈ files, ∀ path ∈ pathsIn f.2,
      ∃ g ∈ files, g.1 = path ∧ includes.find path = .found g.2)
    (hkeys : ∀ f ∈ files, ∀ g ∈ files, Path.key f.1 = Path.key g.1 → f.2 = g.2) :
    Consistent includes file source := by
  have hmem : ∀ {name text}, Reached includes file source name text → (name, text) ∈ files := by
    intro name text h
    induction h with
    | root => exact hroot
    | @inclusion _ _ path inner span _ hm hf ih =>
      obtain ⟨g, hg, rfl, hfind⟩ := hclosed _ ih path (mem_pathsIn.2 ⟨span, hm⟩)
      rw [hf] at hfind
      cases hfind
      exact hg
  have hnames : ∀ {path}, Names includes file source path →
      ∃ g ∈ files, g.1 = path ∧ includes.find path = .found g.2 := by
    rintro path ⟨name, text, span, hr, hm⟩
    exact hclosed _ (hmem hr) path (mem_pathsIn.2 ⟨span, hm⟩)
  constructor
  · intro p q hp hq hk text hf
    obtain ⟨f, hmemf, rfl, hfindf⟩ := hnames hp
    obtain ⟨g, hmemg, rfl, hfindg⟩ := hnames hq
    rw [hfindf, hkeys f hmemf g hmemg hk, ← hfindg] at hf
    exact hf
  · intro p hp hk
    obtain ⟨f, hmemf, rfl, hfind⟩ := hnames hp
    rw [hfind, hkeys f hmemf _ hroot hk]

end Inspection

/-! ## What every step preserves -/

namespace InspectionState

open Inspection

/-- A file of an inspection with its name and text: it is within reach, its record is that of its
text, and the keys of what it includes were entered, up to the notes that are still to come. -/
structure Follows (includes : Includes) (file source : String) (entered : List String)
    (f : InspectionFrame) (name text : String) : Prop where
  reached : Reached includes file source name text
  key_eq : Path.key name = f.file
  record_eq : f.record = FileRecord.ofText text
  root : f.file = Path.key file → text = source
  notes : ∃ seen, Note.ofText text = seen ++ f.notes ∧
    ∀ path span, .inclusion path span ∈ seen → Path.key path ∈ entered

variable {includes : Includes} {file source name text : String} {entered : List String}
  {f : InspectionFrame} {s t : InspectionState}

namespace Follows

theorem mono {key : String} (h : Follows includes file source entered f name text) :
    Follows includes file source (key :: entered) f name text := by
  obtain ⟨seen, hs, hk⟩ := h.notes
  exact { h with
    notes := ⟨seen, hs, fun path span hp => List.mem_cons_of_mem _ (hk path span hp)⟩ }

theorem next {key : String} {note : Note} {notes : List Note} {record : FileRecord}
    (h : Follows includes file source entered ⟨key, note :: notes, record⟩ name text)
    (hn : ∀ path span, note = .inclusion path span → Path.key path ∈ entered) :
    Follows includes file source entered ⟨key, notes, record⟩ name text := by
  obtain ⟨seen, hs, hk⟩ := h.notes
  refine { h with notes := ⟨seen ++ [note], by rw [hs, List.append_cons], ?_⟩ }
  intro path span hp
  rcases List.mem_append.1 hp with hp | hp
  · exact hk path span hp
  · exact hn path span (List.mem_singleton.1 hp).symm

theorem note_mem {key : String} {note : Note} {notes : List Note} {record : FileRecord}
    (h : Follows includes file source entered ⟨key, note :: notes, record⟩ name text) :
    note ∈ Note.ofText text := by
  obtain ⟨seen, hs, _⟩ := h.notes
  rw [hs]
  exact List.mem_append_right _ List.mem_cons_self

end Follows

/-- What holds at each moment of an inspection, with the keys that were entered and the files that
are being gone through or were left. No key belongs to two files, and a key that was entered belongs
to a file or to a path under which none was found. -/
structure Sound (includes : Includes) (file source : String) (entered : List String)
    (files : List InspectionFrame) : Prop where
  followed : ∀ f ∈ files, ∃ name text, Follows includes file source entered f name text
  distinct : (files.map InspectionFrame.file).Nodup
  entered_of_mem : ∀ f ∈ files, f.file ∈ entered
  mem_of_entered : ∀ key ∈ entered, (∃ f ∈ files, f.file = key) ∨
    ∃ path, Names includes file source path ∧ Path.key path = key ∧
      ∀ text, includes.find path ≠ .found text
  root : ∃ f ∈ files, f.file = Path.key file

namespace Sound

variable {files others : List InspectionFrame}

theorem start (includes : Includes) (file source : String) :
    Sound includes file source [Path.key file] [.ofText (Path.key file) source] where
  followed := List.forall_mem_singleton.2
    ⟨file, source, .root, rfl, rfl, fun _ => rfl, [], rfl, nofun⟩
  distinct := List.pairwise_singleton ..
  entered_of_mem := List.forall_mem_singleton.2 (List.mem_singleton_self _)
  mem_of_entered := List.forall_mem_singleton.2 (.inl ⟨_, List.mem_singleton_self _, rfl⟩)
  root := ⟨_, List.mem_singleton_self _, rfl⟩

/-- The order of the files does not matter. -/
theorem perm (h : Sound includes file source entered files) (hp : files.Perm others) :
    Sound includes file source entered others where
  followed f hf := h.followed f (hp.mem_iff.2 hf)
  distinct := (hp.map _).nodup_iff.1 h.distinct
  entered_of_mem f hf := h.entered_of_mem f (hp.mem_iff.2 hf)
  mem_of_entered key hk := (h.mem_of_entered key hk).imp_left fun ⟨f, hf, hkey⟩ =>
    ⟨f, hp.mem_iff.1 hf, hkey⟩
  root := h.root.imp fun _ hf => ⟨hp.mem_iff.1 hf.1, hf.2⟩

/-- A file goes on behind a note whose key, if it has one, was entered. -/
theorem pass {key : String} {note : Note} {notes : List Note} {record : FileRecord}
    (h : Sound includes file source entered (⟨key, note :: notes, record⟩ :: files))
    (hn : ∀ path span, note = .inclusion path span → Path.key path ∈ entered) :
    Sound includes file source entered (⟨key, notes, record⟩ :: files) := by
  have hmem : ∀ k, (∃ f ∈ (⟨key, note :: notes, record⟩ : InspectionFrame) :: files, f.file = k) →
      ∃ f ∈ (⟨key, notes, record⟩ : InspectionFrame) :: files, f.file = k := by
    rintro k ⟨f, hf, hk⟩
    rcases List.mem_cons.1 hf with rfl | hf
    · exact ⟨_, List.mem_cons_self, hk⟩
    · exact ⟨f, List.mem_cons_of_mem _ hf, hk⟩
  obtain ⟨⟨name, text, hfollows⟩, hrest⟩ := List.forall_mem_cons.1 h.followed
  exact {
    followed := List.forall_mem_cons.2 ⟨⟨name, text, hfollows.next hn⟩, hrest⟩
    distinct := h.distinct
    entered_of_mem := List.forall_mem_cons.2 (List.forall_mem_cons.1 h.entered_of_mem)
    mem_of_entered := fun k hk => (h.mem_of_entered k hk).imp_left (hmem k)
    root := hmem _ h.root }

/-- A key is entered under which no file is found. -/
theorem absent {path : String} (h : Sound includes file source entered files)
    (hn : Names includes file source path) (hf : ∀ text, includes.find path ≠ .found text) :
    Sound includes file source (Path.key path :: entered) files where
  followed f hm := by
    obtain ⟨name, text, hfollows⟩ := h.followed f hm
    exact ⟨name, text, hfollows.mono⟩
  distinct := h.distinct
  entered_of_mem f hm := List.mem_cons_of_mem _ (h.entered_of_mem f hm)
  mem_of_entered := List.forall_mem_cons.2 ⟨.inr ⟨path, hn, rfl, hf⟩, h.mem_of_entered⟩
  root := h.root

/-- A file is entered under a key that no file has. -/
theorem enter {path text : String} (h : Sound includes file source entered files)
    (hk : Path.key path ∉ entered) (hn : Names includes file source path)
    (hf : includes.find path = .found text) :
    Sound includes file source (Path.key path :: entered)
      (.ofText (Path.key path) text :: files) where
  followed := by
    obtain ⟨name, outer, span, hr, hm⟩ := hn
    obtain ⟨f, hroot, hkey⟩ := h.root
    have hne : Path.key path ≠ Path.key file := by
      rintro he
      exact hk (he ▸ hkey ▸ h.entered_of_mem f hroot)
    refine List.forall_mem_cons.2 ⟨⟨path, text, ?_⟩, fun f hf => ?_⟩
    · exact ⟨hr.inclusion hm hf, rfl, rfl, fun he => absurd he hne, [], rfl, nofun⟩
    · obtain ⟨name, text, hfollows⟩ := h.followed f hf
      exact ⟨name, text, hfollows.mono⟩
  distinct := by
    refine List.nodup_cons.2 ⟨fun hm => ?_, h.distinct⟩
    obtain ⟨f, hf, he⟩ := List.mem_map.1 hm
    have hentered := h.entered_of_mem f hf
    rw [he] at hentered
    exact hk hentered
  entered_of_mem := List.forall_mem_cons.2
    ⟨List.mem_cons_self, fun f hf => List.mem_cons_of_mem _ (h.entered_of_mem f hf)⟩
  mem_of_entered := by
    refine List.forall_mem_cons.2 ⟨.inl ⟨_, List.mem_cons_self, rfl⟩, fun k hk => ?_⟩
    exact (h.mem_of_entered k hk).imp_left fun ⟨f, hf, he⟩ => ⟨f, List.mem_cons_of_mem _ hf, he⟩
  root := h.root.imp fun _ hf => ⟨List.mem_cons_of_mem _ hf.1, hf.2⟩

theorem names_of_note {key path : String} {span : Span} {notes : List Note} {record : FileRecord}
    (h : Sound includes file source entered
      (⟨key, .inclusion path span :: notes, record⟩ :: files)) :
    Names includes file source path := by
  obtain ⟨name, outer, hfollows⟩ := h.followed _ List.mem_cons_self
  exact ⟨name, outer, span, hfollows.reached, hfollows.note_mem⟩

theorem moves (h : Sound includes file source s.entered s.files) (hm : Moves includes s t) :
    Sound includes file source t.entered t.files := by
  cases hm with
  | @leave entered key record below events =>
    refine h.perm ?_
    rw [InspectionState.files, InspectionState.files, List.filterMap_append, ← List.append_assoc]
    exact (List.perm_append_singleton ..).symm
  | pass hn hl =>
    rw [InspectionState.files, hl]
    exact h.pass hn
  | @enter _ _ path _ span _ _ _ _ _ hk hf hl =>
    rw [InspectionState.files, hl]
    -- With the key entered, the note behind the new file leads nowhere new.
    refine (((h.enter hk h.names_of_note hf).perm (.swap ..)).pass ?_).perm (.swap ..)
    rintro _ _ ⟨⟩
    exact List.mem_cons_self
  | @absent _ _ path _ _ _ _ _ _ hk hf hl =>
    rw [InspectionState.files, hl]
    refine (h.absent h.names_of_note hf).pass ?_
    rintro _ _ ⟨⟩
    exact List.mem_cons_self

end Sound

theorem sound_of_reachable (h : Reachable includes file source s) :
    Sound includes file source s.entered s.files := by
  induction h with
  | refl => exact .start includes file source
  | tail _ hl ih => exact ih.moves (moves_of_leads hl)

theorem names_of_reachable {key path : String} {span : Span} {notes : List Note}
    {record : FileRecord} {below : List InspectionFrame} {events : List InspectionEvent}
    (h : Reachable includes file source
      ⟨entered, ⟨key, .inclusion path span :: notes, record⟩ :: below, events⟩) :
    Names includes file source path :=
  (sound_of_reachable h).names_of_note

end InspectionState

/-! ## The end of an inspection -/

namespace Inspection

open InspectionState

variable {includes : Includes} {file source path : String} {keys entered : List String}
  {stack : List InspectionFrame} {before : List InspectionEvent}

/-- The keys of all that is included by the root file or by a listed text. -/
def keysOf (includes : Includes) (source : String) : List String :=
  (source :: includes.texts).flatMap keysIn

theorem Names.key_mem_keysOf (hl : Lists includes file source)
    (h : Names includes file source path) :
    Path.key path ∈ keysOf includes source := by
  obtain ⟨name, text, span, hr, hm⟩ := h
  refine List.mem_flatMap.2 ⟨text, List.mem_cons.2 (hl name text hr), ?_⟩
  exact List.mem_filterMap.2 ⟨_, hm, rfl⟩

/-- The keys that are left are those that were not entered. -/
def Remain (includes : Includes) (source : String) (keys entered : List String) : Prop :=
  ∀ key ∈ keysOf includes source, key ∈ keys ↔ key ∉ entered

theorem Remain.without (h : Remain includes source keys entered) (key : String) :
    Remain includes source (Inspection.without keys key) (key :: entered) := by
  intro other ho
  rw [Inspection.without, List.mem_filter, h other ho, bne_iff_ne, List.mem_cons, not_or, and_comm]

/-- The events that follow a state are those of the steps from it. -/
theorem exists_reachable (hl : Lists includes file source)
    (h : Reachable includes file source ⟨entered, stack, before⟩)
    (hk : Remain includes source keys entered) :
    ∃ last, Reachable includes file source
      ⟨last, [], before ++ eventsFrom includes keys stack⟩ := by
  fun_induction eventsFrom includes keys stack generalizing entered before with
  | case1 => exact ⟨entered, by simpa using h⟩
  | case2 keys name record stack ih =>
    obtain ⟨last, hlast⟩ := ih (h.tail rfl) hk
    exact ⟨last, by simpa using hlast⟩
  | case3 keys name record stack reason span notes ih =>
    obtain ⟨last, hlast⟩ := ih (h.tail rfl) hk
    exact ⟨last, by simpa using hlast⟩
  | case4 keys name path span notes record below hm _ ihfound ihabsent =>
    have hn : Path.key path ∉ entered := (hk _ ((names_of_reachable h).key_mem_keysOf hl)).1 hm
    have hnext : Reachable includes file source (take includes _ name _ _) := h.tail rfl
    simp only [take, if_neg hn] at hnext
    cases hf : includes.find path with
    | found text =>
      simp only [hf] at hnext
      obtain ⟨last, hlast⟩ := ihfound text hnext (hk.without _)
      exact ⟨last, by simpa using hlast⟩
    | missing | unreadable =>
      simp only [hf] at hnext
      obtain ⟨last, hlast⟩ := ihabsent hnext (hk.without _)
      exact ⟨last, by simpa using hlast⟩
  | case5 keys name path span notes record below hm ih =>
    have hn : Path.key path ∈ entered :=
      Classical.not_not.1 fun hn => hm ((hk _ ((names_of_reachable h).key_mem_keysOf hl)).2 hn)
    have hnext : Reachable includes file source (take includes _ name _ _) := h.tail rfl
    simp only [take, if_pos hn] at hnext
    exact ih hnext hk
  | case6 keys name notes record below group ih | case7 keys name notes record below variant ih =>
    exact ih (h.tail rfl) hk

/-- The steps of an inspection come to an end, with its events. -/
theorem exists_run (hl : Lists includes file source) :
    ∃ entered, Reachable includes file source ⟨entered, [], events includes file source⟩ := by
  refine exists_reachable hl .refl fun key hk => ?_
  rw [without, List.mem_filter, bne_iff_ne, List.mem_singleton]
  exact and_iff_right hk

theorem files_ofSource : (ofSource includes file source).files =
    .insertAll .empty (((events includes file source).filterMap scanned?).map
      fun f => (f.file, f.record)) := by
  rw [List.map_filterMap]
  exact congrArg
    (fun pick => NameMap.insertAll .empty ((events includes file source).filterMap pick))
    (funext fun event => by cases event <;> rfl)

/-- The records of an inspection are those of the files that it left. -/
theorem mem_ofSource_iff {e : String × FileRecord}
    (h : Reachable includes file source ⟨entered, [], events includes file source⟩) :
    e ∈ (ofSource includes file source).files.entries ↔
      ∃ f ∈ InspectionState.files ⟨entered, [], events includes file source⟩,
        (f.file, f.record) = e := by
  have hdistinct := (sound_of_reachable h).distinct
  rw [files_ofSource, NameMap.mem_insertAll (by rwa [List.map_map]), List.mem_map]
  refine or_iff_left fun hempty => ?_
  cases hempty.1

/-- A file that was left has no notes to come. -/
theorem notes_eq_nil {f : InspectionFrame} {events : List InspectionEvent}
    (h : f ∈ InspectionState.files ⟨entered, [], events⟩) : f.notes = [] := by
  obtain ⟨event, -, he⟩ := List.mem_filterMap.1 h
  cases event <;> cases he
  rfl

theorem not_found_of_nil (path text : String) : (Includes.ofFiles []).find path ≠ .found text := by
  simp [Includes.ofFiles, Includes.findInMemory]

/-- A file whose inclusions are not found is recorded alone. -/
theorem entries_of_not_found (h : ∀ path text, includes.find path ≠ .found text) :
    (ofSource includes file source).files.entries = [(Path.key file, .ofText source)] := by
  have honly : ∀ name text, Reached includes file source name text →
      name = file ∧ text = source := by
    intro name text hr
    cases hr with
    | root => exact ⟨rfl, rfl⟩
    | inclusion _ _ hf => exact absurd hf (h _ _)
  obtain ⟨entered, hrun⟩ := exists_run (lists_of_listed fun path text hf => absurd hf (h path text))
  have hs := sound_of_reachable hrun
  have hrecord : ∀ f ∈ InspectionState.files ⟨entered, [], events includes file source⟩,
      (f.file, f.record) = (Path.key file, .ofText source) := by
    intro f hf
    obtain ⟨name, text, hfollows⟩ := hs.followed f hf
    obtain ⟨rfl, rfl⟩ := honly name text hfollows.reached
    rw [hfollows.key_eq, hfollows.record_eq]
  obtain ⟨f, hf, -⟩ := hs.root
  refine NameMap.entries_eq_singleton
    ((mem_ofSource_iff hrun).2 ⟨f, hf, hrecord f hf⟩) fun e he => ?_
  obtain ⟨g, hg, rfl⟩ := (mem_ofSource_iff hrun).1 he
  rw [hrecord g hg]

/-- Every file within reach is left at the end, if paths with one key stand for one text. -/
theorem Reached.exists_file {name text : String} (hc : Consistent includes file source)
    (hrun : Reachable includes file source ⟨entered, [], events includes file source⟩)
    (h : Reached includes file source name text) :
    ∃ f ∈ InspectionState.files ⟨entered, [], events includes file source⟩,
      f.file = Path.key name := by
  have hs := sound_of_reachable hrun
  induction h with
  | root => exact hs.root
  | @inclusion name text path inner span hr hm hfound ih =>
    obtain ⟨f, hf, hkey⟩ := ih
    obtain ⟨other, text', hfollows⟩ := hs.followed f hf
    -- The file that was left under the key of the including one has the same text.
    obtain rfl : text' = text := hfollows.reached.text_eq hc hr (hfollows.key_eq.trans hkey)
    obtain ⟨seen, hseen, hentered⟩ := hfollows.notes
    rw [notes_eq_nil hf, List.append_nil] at hseen
    rcases hs.mem_of_entered _ (hentered path span (hseen ▸ hm)) with hmem | ⟨path', hn, hk, hnone⟩
    · exact hmem
    · exact absurd (hc.paths path path' ⟨_, _, _, hr, hm⟩ hn hk.symm inner hfound) (hnone inner)

/-! ## What an inspection goes through -/

/-- What an inspection goes through. The steps from the root file end with all files left, and no
key is entered twice on the way. Each record is that of a file within reach, as if no other file
could be found. If paths with one key stand for one text, every file within reach has a record. -/
structure Traverses (includes : Includes) (file source : String) : Prop where
  ends : ∃ entered, Reachable includes file source ⟨entered, [], events includes file source⟩
  once : ∀ s, Reachable includes file source s → (s.files.map InspectionFrame.file).Nodup
  entries : ∀ key record, (key, record) ∈ (ofSource includes file source).files.entries →
    ∃ name text, Reached includes file source name text ∧ Path.key name = key ∧
      (key = Path.key file → text = source) ∧
      (ofSource (.ofFiles []) name text).files.entries = [(key, record)]
  keys : Consistent includes file source → ∀ key,
    key ∈ (ofSource includes file source).files.names ↔
      ∃ name text, Reached includes file source name text ∧ Path.key name = key

theorem traverses_ofSource (includes : Includes) (hl : includes.Listed) (file source : String) :
    Traverses includes file source := by
  obtain ⟨entered, hrun⟩ := @exists_run includes file source (lists_of_listed hl)
  have hs := sound_of_reachable hrun
  refine ⟨⟨entered, hrun⟩, fun s hr => (sound_of_reachable hr).distinct, ?entries, ?keys⟩
  case entries =>
    intro key record he
    obtain ⟨f, hf, heq⟩ := (mem_ofSource_iff hrun).1 he
    cases heq
    obtain ⟨name, text, hfollows⟩ := hs.followed f hf
    refine ⟨name, text, hfollows.reached, hfollows.key_eq, hfollows.root, ?_⟩
    rw [entries_of_not_found not_found_of_nil, hfollows.key_eq, hfollows.record_eq]
  case keys =>
    intro hc key
    rw [NameMap.names, List.mem_map]
    constructor
    · rintro ⟨e, he, rfl⟩
      obtain ⟨f, hf, rfl⟩ := (mem_ofSource_iff hrun).1 he
      obtain ⟨name, text, hfollows⟩ := hs.followed f hf
      exact ⟨name, text, hfollows.reached, hfollows.key_eq⟩
    · rintro ⟨name, text, hr, rfl⟩
      obtain ⟨f, hf, hkey⟩ := hr.exists_file hc hrun
      exact ⟨(f.file, f.record), (mem_ofSource_iff hrun).2 ⟨f, hf, rfl⟩, hkey⟩

/-- Two files that include one another, the second one from within a directory. -/
def mutualFiles : List (String × String) :=
  [("a.hlsli", "#include \"d/b.hlsli\"\n#pragma bindgroup \"A\"\n"),
    ("d/b.hlsli", "#include \"a.hlsli\"\n#pragma bindgroup \"B\"\n")]

/-- An inspection of files that include one another ends, with a record of each. -/
theorem traverses_mutualFiles :
    Consistent (.ofFiles mutualFiles) "f.hlsl" "#include \"a.hlsli\"\n" ∧
    Traverses (.ofFiles mutualFiles) "f.hlsl" "#include \"a.hlsli\"\n" ∧
    "b.hlsli" ∈
      (ofSource (.ofFiles mutualFiles) "f.hlsl" "#include \"a.hlsli\"\n").files.names := by
  have hc : Consistent (.ofFiles mutualFiles) "f.hlsl" "#include \"a.hlsli\"\n" :=
    @consistent_of_closed _ _ _ (("f.hlsl", "#include \"a.hlsli\"\n") :: mutualFiles)
      (by decide +kernel) (by decide +kernel) (by decide +kernel)
  have ht := traverses_ofSource (.ofFiles mutualFiles) (Includes.listed_ofFiles mutualFiles [])
    "f.hlsl" "#include \"a.hlsli\"\n"
  obtain ⟨_, hfirst⟩ := (@mem_pathsIn "#include \"a.hlsli\"\n" "a.hlsli").1 (by decide +kernel)
  obtain ⟨_, hsecond⟩ :=
    (@mem_pathsIn "#include \"d/b.hlsli\"\n#pragma bindgroup \"A\"\n" "d/b.hlsli").1
      (by decide +kernel)
  have hr : Reached (.ofFiles mutualFiles) "f.hlsl" "#include \"a.hlsli\"\n" "d/b.hlsli"
      "#include \"a.hlsli\"\n#pragma bindgroup \"B\"\n" :=
    .inclusion (.inclusion .root hfirst (by decide +kernel)) hsecond (by decide +kernel)
  exact ⟨hc, ht, (ht.keys hc _).2 ⟨_, _, hr, by decide +kernel⟩⟩

end Inspection

end BindlessHlsl
