/-!
Where included files come from. A path as written in a shader is either found with its text,
missing, or there but unreadable. A source of included files may list its texts (`Includes.Listed`);
those that the library makes do. The place that a path was resolved to is reported as a log entry.
-/

namespace BindlessHlsl

/-- How important a report is. -/
inductive LogLevel where
  | error
  | warn
  | info
  | debug
  deriving DecidableEq, Repr

/-- One report. -/
structure LogEntry where
  level : LogLevel
  message : String
  deriving DecidableEq, Repr

/-- What looking up an included file gives. -/
inductive Lookup where
  | found (text : String)
  | missing
  | unreadable (message : String)
  deriving DecidableEq, Repr

/-- A source of included files. -/
structure Includes where
  /-- What is found under a path as written. -/
  find : String → Lookup
  /-- The place that a path is resolved to, where there is one to report. -/
  place : String → Option String
  /-- The texts that are listed. -/
  texts : List String

namespace Includes

/-- Every text that can be found is listed. -/
def Listed (includes : Includes) : Prop :=
  ∀ path text, includes.find path = .found text → text ∈ includes.texts

/-- A path without one leading reference to the current directory. -/
def relative (path : String) : String :=
  match path.toList with
  | '.' :: '/' :: rest => String.ofList rest
  | _ => path

/-- What is found under a path among named texts, some paths being unreadable. -/
def findInMemory (files faults : List (String × String)) (path : String) : Lookup :=
  match faults.lookup path with
  | some message => .unreadable message
  | none =>
    match files.lookup (relative path) with
    | some text => .found text
    | none => .missing

theorem mem_map_snd_of_lookup {files : List (String × String)} {path text : String}
    (h : files.lookup path = some text) : text ∈ files.map Prod.snd := by
  induction files with
  | nil => cases h
  | cons f rest ih =>
    rw [List.lookup_cons] at h
    split at h
    · cases h
      simp
    · exact List.mem_cons_of_mem _ (ih h)

/-- Named texts as a source of included files. Paths that are unreadable come first. -/
def ofFiles (files : List (String × String)) (faults : List (String × String) := []) :
    Includes where
  find := findInMemory files faults
  place _ := none
  texts := files.map Prod.snd

theorem listed_ofFiles (files faults : List (String × String)) : (ofFiles files faults).Listed := by
  intro path text h
  change findInMemory files faults path = .found text at h
  unfold findInMemory at h
  split at h
  · cases h
  · split at h <;> cases h
    next hl => exact mem_map_snd_of_lookup hl

/-- What looking up a path reports. -/
def report (includes : Includes) (path : String) : List LogEntry :=
  match includes.place path with
  | some place => [⟨.debug, s!"resolved include '{path}' to {place}"⟩]
  | none => []

end Includes

end BindlessHlsl
