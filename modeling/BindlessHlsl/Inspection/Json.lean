import BindlessHlsl.Inspection.Basic
import BindlessHlsl.Json.Printer
import BindlessHlsl.Json.Reader
import BindlessHlsl.Json.Record

/-!
The records of an inspection as JSON.
-/

namespace BindlessHlsl

open JsonValue (required optional toText? toTagged? toList?)

namespace Variant

/-- The value of a variant. -/
def toJson (v : Variant) : JsonValue := .object [
  ("kind", .ofTagged v.kind),
  ("identifier", .string v.identifier),
  ("display_name", .ofOption .string v.displayName)]

/-- Reads a variant. -/
def ofJson? (v : JsonValue) : Option Variant := do
  match ← v.record? ["kind", "identifier", "display_name"] 0 with
  | [kind, identifier, displayName] =>
    return {
      kind := ← required toTagged? kind
      identifier := ← required toText? identifier
      displayName := ← optional toText? displayName }
  | _ => none

end Variant

namespace FileRecord

/-- The value of a record. -/
def toJson (r : FileRecord) : JsonValue := .object [
  ("bind_groups", .array (r.groups.names.map .string)),
  ("variants", .array (r.variants.map Variant.toJson))]

/-- Reads a record. Bind groups may be given in any order. -/
def ofJson? (v : JsonValue) : Option FileRecord := do
  match ← v.record? ["bind_groups", "variants"] 0 with
  | [groups, variants] =>
    return {
      groups := .ofList (← required (toList? toText?) groups)
      variants := ← required (toList? Variant.ofJson?) variants }
  | _ => none

end FileRecord

namespace Inspection

/-- The value of the records by key. -/
def toJson (i : Inspection) : JsonValue :=
  .object [("files", .object (i.files.entries.map fun e => (e.1, e.2.toJson)))]

/-- Reads an entry. -/
def entryOfJson? (field : String × JsonValue) : Option (String × FileRecord) :=
  (FileRecord.ofJson? field.2).map fun record => (field.1, record)

/-- Reads records by key. The last one counts where a key occurs more than once. -/
def filesOfJson? : JsonValue → Option (NameMap FileRecord)
  | .object fields => (fields.mapM entryOfJson?).map (NameMap.insertAll .empty)
  | _ => none

/-- Reads an inspection. -/
def ofJson? (v : JsonValue) : Option Inspection := do
  match ← v.record? ["files"] 0 with
  | [files] => return ⟨← required filesOfJson? files⟩
  | _ => none

/-- Reads the text of an inspection. -/
def ofText? (text : String) : Option Inspection := (JsonValue.ofText? text).bind ofJson?

end Inspection

end BindlessHlsl
