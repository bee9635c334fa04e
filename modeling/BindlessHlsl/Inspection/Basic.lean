import BindlessHlsl.Includes
import BindlessHlsl.Inspection.Note
import BindlessHlsl.Path

/-!
The inspection of a shader and of every file it includes, directly or through others. A file is
known by its key, and each key is entered at most once, at the first directive that names it.

The traversal keeps the keys that have not been entered yet. Entering a file takes a key away, so
the traversal ends also where files include one another.
-/

namespace BindlessHlsl

/-- A fault that an inspection found. -/
structure Diagnostic where
  file : String
  span : Span
  reason : NoteFault
  deriving DecidableEq, Repr

/-- The text of a diagnostic. -/
def Diagnostic.text (d : Diagnostic) : String :=
  s!"[P/'{d.file}':{d.span.text}]: {d.reason.message}"

/-- What happens during an inspection. -/
inductive InspectionEvent where
  | lookup (path : String)
  | diagnostic (diagnostic : Diagnostic)
  | scanned (file : String) (record : FileRecord)
  deriving DecidableEq, Repr

/-- A file whose notes are being gone through. -/
structure InspectionFrame where
  file : String
  /-- Notes still to come. -/
  notes : List Note
  record : FileRecord
  deriving DecidableEq, Repr

namespace InspectionFrame

/-- The frame of a file that is entered. -/
def ofText (file text : String) : InspectionFrame :=
  ⟨file, Note.ofText text, FileRecord.ofText text⟩

/-- Steps that a stack of frames still takes. -/
def steps (stack : List InspectionFrame) : Nat :=
  stack.foldr (fun f n => f.notes.length + 1 + n) 0

end InspectionFrame

/-- The records of inspected files by key. -/
structure Inspection where
  files : NameMap FileRecord := .empty
  deriving DecidableEq, Repr, Inhabited

namespace Inspection

open InspectionFrame (steps)

/-- The keys without one of them. -/
def without (keys : List String) (key : String) : List String := keys.filter (· != key)

theorem length_without {keys : List String} {key : String} (h : key ∈ keys) :
    (without keys key).length < keys.length :=
  List.length_filter_lt_length_iff_exists.2 ⟨key, h, by simp⟩

/-- What happens from a stack of frames on, with the keys that have not been entered yet. -/
def eventsFrom (includes : Includes) (keys : List String) (stack : List InspectionFrame) :
    List InspectionEvent :=
  match stack with
  | [] => []
  | ⟨file, [], record⟩ :: stack => .scanned file record :: eventsFrom includes keys stack
  | ⟨file, .fault reason span :: notes, record⟩ :: stack =>
    .diagnostic ⟨file, span, reason⟩ :: eventsFrom includes keys (⟨file, notes, record⟩ :: stack)
  | ⟨file, .inclusion path span :: notes, record⟩ :: stack =>
    if h : Path.key path ∈ keys then
      have := length_without h
      .lookup path ::
        match includes.find path with
        | .found text =>
          eventsFrom includes (without keys (Path.key path))
            (.ofText (Path.key path) text :: ⟨file, notes, record⟩ :: stack)
        | .missing =>
          .diagnostic ⟨file, span, .includeNotFound path⟩ ::
            eventsFrom includes (without keys (Path.key path)) (⟨file, notes, record⟩ :: stack)
        | .unreadable message =>
          .diagnostic ⟨file, span, .includeUnreadable path message⟩ ::
            eventsFrom includes (without keys (Path.key path)) (⟨file, notes, record⟩ :: stack)
    else eventsFrom includes keys (⟨file, notes, record⟩ :: stack)
  | ⟨file, .bindGroup _ :: notes, record⟩ :: stack
  | ⟨file, .variant _ :: notes, record⟩ :: stack =>
    eventsFrom includes keys (⟨file, notes, record⟩ :: stack)
termination_by (keys.length, steps stack)
decreasing_by all_goals simp_all [steps, Prod.lex_def]

/-- The keys of the files that a text includes. -/
def keysIn (text : String) : List String :=
  (Note.ofText text).filterMap fun
    | .inclusion path _ => some (Path.key path)
    | _ => none

/-- What happens when a shader is inspected. -/
def events (includes : Includes) (file source : String) : List InspectionEvent :=
  let key := Path.key file
  let keys := (source :: includes.texts).flatMap keysIn
  eventsFrom includes (without keys key) [.ofText key source]

/-- The records that an inspection gathers. -/
def ofSource (includes : Includes) (file source : String) : Inspection :=
  ⟨.insertAll .empty <| (events includes file source).filterMap fun
    | .scanned file record => some (file, record)
    | _ => none⟩

/-- The diagnostics of an inspection in order. -/
def diagnostics (includes : Includes) (file source : String) : List Diagnostic :=
  (events includes file source).filterMap fun
    | .diagnostic d => some d
    | _ => none

/-- The records of two inspections. Those of the second one count where both have one. -/
def merge (first second : Inspection) : Inspection :=
  ⟨first.files.insertAll second.files.entries⟩

/-- The names of all bind groups in order. -/
def groups (i : Inspection) : List String :=
  (NameSet.ofList (i.files.values.flatMap fun record => record.groups.names)).names

/-- All variants, file by file. -/
def variants (i : Inspection) : List Variant := i.files.values.flatMap FileRecord.variants

end Inspection

/-- What an event of an inspection reports. -/
def InspectionEvent.report (includes : Includes) : InspectionEvent → List LogEntry
  | .lookup path => includes.report path
  | .diagnostic d => [⟨.error, d.text⟩]
  | .scanned file record =>
    let groups := record.groups.names.length
    let variants := record.variants.length
    [⟨.debug, s!"preprocessed {file}: {groups} bind groups, {variants} variants"⟩]

/-- What an inspection reports. -/
def Inspection.report (includes : Includes) (file source : String) : List LogEntry :=
  (events includes file source).flatMap (InspectionEvent.report includes)

end BindlessHlsl
