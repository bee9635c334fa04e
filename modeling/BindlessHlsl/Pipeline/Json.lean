import BindlessHlsl.Json.Printer
import BindlessHlsl.Json.Reader
import BindlessHlsl.Json.Record
import BindlessHlsl.Pipeline.Description

/-!
Pipeline descriptions as JSON. Every record has a function that gives its value and one that reads a
value back.
-/

namespace BindlessHlsl

open JsonValue (required optional toText? toWord? toSingle? toTagged? toList?)

namespace Property

/-- The value of a property. -/
def toJson (p : Property) : JsonValue := .object [
  ("name", .string p.name),
  ("default", .ofOption .ofTagged p.fallback)]

/-- Reads a property. -/
def ofJson? (v : JsonValue) : Option Property := do
  match ← v.record? ["name", "default"] 0 with
  | [name, fallback] =>
    return ⟨← required toText? name, ← optional toTagged? fallback⟩
  | _ => none

end Property

namespace SlotDescription

/-- The value of a resource. A property that is not there is left out. -/
def toJson (r : SlotDescription) : JsonValue := .object <| [
  ("name", .string r.name),
  ("bind_group", .string r.group),
  ("index", .ofWord r.index),
  ("signature", .string r.signature),
  ("kind", .ofTagged r.kind)] ++ (r.property.map fun p => ("property", p.toJson)).toList

/-- Reads a resource. -/
def ofJson? (v : JsonValue) : Option SlotDescription := do
  match ← v.record? ["name", "bind_group", "index", "signature", "kind", "property"] 1 with
  | [name, group, index, signature, kind, property] =>
    return {
      name := ← required toText? name
      group := ← required toText? group
      index := ← required toWord? index
      signature := ← required toText? signature
      kind := ← required toTagged? kind
      property := ← optional Property.ofJson? property }
  | _ => none

end SlotDescription

namespace ConstantsDescription

/-- The value of user constants. -/
def toJson (c : ConstantsDescription) : JsonValue := .object [
  ("name", .string c.name),
  ("struct_name", .string c.structName),
  ("size", .ofWord c.size)]

/-- Reads user constants. -/
def ofJson? (v : JsonValue) : Option ConstantsDescription := do
  match ← v.record? ["name", "struct_name", "size"] 0 with
  | [name, structName, size] =>
    return {
      name := ← required toText? name
      structName := ← required toText? structName
      size := ← required toWord? size }
  | _ => none

end ConstantsDescription

namespace Sampler

/-- The value of a sampler. -/
def toJson (s : Sampler) : JsonValue := .object [
  ("name", .string s.name),
  ("index", .ofWord s.index),
  ("filter", .ofTagged s.settings.filter),
  ("address_mode_u", .ofTagged s.settings.addressU),
  ("address_mode_v", .ofTagged s.settings.addressV),
  ("address_mode_w", .ofTagged s.settings.addressW),
  ("max_anisotropy", .ofWord s.settings.maxAnisotropy),
  ("mip_lod_bias", .ofSingle s.settings.mipLodBias),
  ("min_lod", .ofSingle s.settings.minLod),
  ("max_lod", .ofSingle s.settings.maxLod),
  ("border", .ofTagged s.settings.border)]

/-- The names of a sampler's fields. -/
def fieldNames : List String :=
  ["name", "index", "filter", "address_mode_u", "address_mode_v", "address_mode_w",
    "max_anisotropy", "mip_lod_bias", "min_lod", "max_lod", "border"]

/-- Reads a sampler. -/
def ofJson? (v : JsonValue) : Option Sampler := do
  match ← v.record? fieldNames 0 with
  | [name, index, filter, u, v, w, anisotropy, bias, minLod, maxLod, border] =>
    return {
      name := ← required toText? name
      index := ← required toWord? index
      settings := {
        filter := ← required toTagged? filter
        addressU := ← required toTagged? u
        addressV := ← required toTagged? v
        addressW := ← required toTagged? w
        maxAnisotropy := ← required toWord? anisotropy
        mipLodBias := ← required toSingle? bias
        minLod := ← required toSingle? minLod
        maxLod := ← required toSingle? maxLod
        border := ← required toTagged? border } }
  | _ => none

end Sampler

namespace InputElement

/-- The value of an input element. -/
def toJson (e : InputElement) : JsonValue := .object [
  ("name", .string e.name),
  ("offset", .ofOption .ofWord e.offset),
  ("slot", .ofOption .ofWord e.slot),
  ("class", .ofTagged e.inputClass),
  ("format", .ofTagged e.format)]

/-- Reads an input element. -/
def ofJson? (v : JsonValue) : Option InputElement := do
  match ← v.record? ["name", "offset", "slot", "class", "format"] 0 with
  | [name, offset, slot, inputClass, format] =>
    return {
      name := ← required toText? name
      offset := ← optional toWord? offset
      slot := ← optional toWord? slot
      inputClass := ← required toTagged? inputClass
      format := ← required toTagged? format }
  | _ => none

end InputElement

namespace ConstantsLayout

/-- The value of a layout. -/
def toJson (l : ConstantsLayout) : JsonValue := .object [
  ("kind", .ofTagged l.kind),
  ("index_table_size", .ofWord l.tableSize),
  ("user_constants_size", .ofWord l.constantsSize)]

/-- The kind of a layout, always given as text. -/
def kindOfJson? : JsonValue → Option LayoutKind
  | .string tag => Tagged.ofTag? tag
  | _ => none

/-- Levels of arrays and objects that may be nested in a layout. -/
def nestingLimit : Nat := 125

/-- Reads a layout. Its kind decides how the rest is read, so unknown fields must have values
too. -/
def ofJson? (v : JsonValue) : Option ConstantsLayout := do
  match ← v.record? ["kind", "index_table_size", "user_constants_size"] 0 with
  | [kind, tableSize, constantsSize] =>
    if v.isReadable (nestingLimit + 1) then
      return {
        kind := ← required kindOfJson? kind
        tableSize := ← required toWord? tableSize
        constantsSize := ← required toWord? constantsSize }
    else none
  | _ => none

end ConstantsLayout

namespace PipelineDescription

/-- The value of a description. -/
def toJson (d : PipelineDescription) : JsonValue := .object [
  ("source_file_name", .string d.sourceFile),
  ("path", .ofOption .string d.path),
  ("vertex_entry_point", .ofOption .string d.vertexEntry),
  ("pixel_entry_point", .ofOption .string d.pixelEntry),
  ("bind_groups", .array (d.groups.map .string)),
  ("resources", .array (d.resources.map SlotDescription.toJson)),
  ("constants", .array (d.constants.map ConstantsDescription.toJson)),
  ("immutable_samplers", .array (d.samplers.map Sampler.toJson)),
  ("input_layout", .array (d.inputLayout.map InputElement.toJson)),
  ("constants_size", .ofWord d.constantsSize),
  ("constants_layout", .ofOption ConstantsLayout.toJson d.layout)]

/-- The names of a description's fields. -/
def fieldNames : List String :=
  ["source_file_name", "path", "vertex_entry_point", "pixel_entry_point", "bind_groups",
    "resources", "constants", "immutable_samplers", "input_layout", "constants_size",
    "constants_layout"]

/-- Reads a description. -/
def ofJson? (v : JsonValue) : Option PipelineDescription := do
  match ← v.record? fieldNames 0 with
  | [file, path, vertex, pixel, groups, resources, constants, samplers, inputs, size, layout] =>
    return {
      sourceFile := ← required toText? file
      path := ← optional toText? path
      vertexEntry := ← optional toText? vertex
      pixelEntry := ← optional toText? pixel
      groups := ← required (toList? toText?) groups
      resources := ← required (toList? SlotDescription.ofJson?) resources
      constants := ← required (toList? ConstantsDescription.ofJson?) constants
      samplers := ← required (toList? Sampler.ofJson?) samplers
      inputLayout := ← required (toList? InputElement.ofJson?) inputs
      constantsSize := ← required toWord? size
      layout := ← optional ConstantsLayout.ofJson? layout }
  | _ => none

/-- The text of a description. -/
def text (d : PipelineDescription) : String := d.toJson.pretty

/-- Reads the text of a description. -/
def ofText? (text : String) : Option PipelineDescription := (JsonValue.ofText? text).bind ofJson?

/-- Whether a description is read back from its text. -/
def isReadBack (d : PipelineDescription) : Bool := ofText? d.text == some d

end PipelineDescription

end BindlessHlsl
