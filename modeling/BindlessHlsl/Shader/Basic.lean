import BindlessHlsl.EditList
import BindlessHlsl.Preamble

/-!
Generated shaders. The text of the root file is edited in one pass: the constructs that the library
took over are blanked, the preamble comes in front, and every function body starts with a lookup of
each resource that it names. Ranges are reported as they lie in the generated text.
-/

namespace BindlessHlsl

/-- A shader after generation. -/
structure Shader extends Declarations where
  constantsSize : UInt32
  layout : Option ConstantsLayout
  output : String
  deriving DecidableEq, Repr

namespace Shader

/-- The lookup of a resource through its slot. -/
def lookup (r : Resource) : String :=
  r.signature ++ " " ++ r.name ++ " = (" ++ r.signature ++ ")ResourceDescriptorHeap[" ++
    Preamble.tableBuffer ++ ".IDX_" ++ r.name ++ "]; "

/-- The lookups that a function body needs, in slot order, after a space. -/
def lookups (resources : List Resource) (body : List UInt8) : String :=
  let named := (Resource.slotted resources).filter fun r =>
    WordSearch.contains (Utf8.encode r.name) body
  if named.isEmpty then "" else " " ++ String.join (named.map lookup)

/-- The blanking of what the library took over from the root file, given its items. -/
def blankItems (items : List Item) : EditList :=
  (items.filterMap Item.blanked?).foldl EditList.blank {}

/-- The blanking of structs that moved into the preamble. -/
def blankStructs (edits : EditList) (structs : List Struct) : EditList :=
  structs.foldl (fun edits s => (s.range.map edits.blank).getD edits) edits

/-- The insertion of a text, unless it is empty. -/
def insertNonempty (edits : EditList) (offset : Nat) (text : String) : EditList :=
  if text = "" then edits else edits.insert offset text

/-- The insertion of lookups at the start of function bodies. -/
def insertLookups (edits : EditList) (resources : List Resource) (source : List UInt8)
    (functions : List Function) : EditList :=
  functions.foldl
    (fun edits f =>
      match f.body with
      | some body => insertNonempty edits body.start (lookups resources (body.slice source))
      | none => edits)
    edits

/-- A function with its body where it lies after editing. -/
def moveFunction (edits : EditList) (f : Function) : Function :=
  { f with body := f.body.map edits.mapRange }

/-- A struct with its definition where it lies after editing. -/
def moveStruct (edits : EditList) (s : Struct) : Struct :=
  { s with range := s.range.map edits.mapRange }

/-- Generates a shader from what its root file and included files declare. -/
def generate (file source : String) (d : Declarations) : Except Stop Shader := do
  let constants ← UserConstants.ofDeclarations file d
  let resources := Resource.table d.resources
  let layout ← ConstantsLayout.ofResources resources constants.size
  let preamble : Preamble := ⟨constants, layout, resources, d.samplers⟩
  let edits := blankStructs (blankItems (Outline.ofText source).items) constants.structs
  let edits := insertNonempty edits 0 preamble.text
  let edits := insertLookups edits resources (Utf8.encode source) d.functions
  match edits.edited? source with
  | none => throw .insideCharacter
  | some output =>
    return {
      d with
      resources := resources
      functions := d.functions.map (moveFunction edits)
      structs := d.structs.map (moveStruct edits)
      constantsSize := constants.size
      layout := layout
      output := output }

/-- Generates a shader from the text of its root file. -/
def ofSource (includes : Includes) (file source : String) : Except Stop Shader := do
  let d ← (Declarations.ofRoot includes file source).mapError Stop.rejected
  generate file source d

variable (s : Shader)

/-- What generating a shader reports in the end. -/
def summary (file : String) : LogEntry :=
  let resources := (Resource.slotted s.resources).length
  let samplers := s.samplers.length
  let functions := s.functions.length
  let structs := s.structs.length
  let size := s.constantsSize.toNat
  ⟨.debug, s!"parsed {file}: {resources} resources, {samplers} samplers, " ++
    s!"{functions} functions, {structs} structs, {size} bytes of user constants"⟩

/-- What a graphics pipeline needs and the shader lacks. -/
def missingInputs : List String :=
  (if s.vertexEntry.isNone then ["vertex entry point"] else []) ++
  (if s.pixelEntry.isNone then ["pixel entry point"] else []) ++
  (if s.path.isNone then ["#pragma path"] else [])

/-- Why the shader is not enough for a graphics pipeline. -/
def pipelineFault? : Option String :=
  if s.missingInputs.isEmpty then none
  else some ("shader is missing " ++ ", ".intercalate s.missingInputs)

/-- The first resource with a name. -/
def resource? (name : String) : Option Resource := s.resources.find? fun r => r.name == name

/-- What generating a shader from the text of its root file reports. -/
def report (includes : Includes) (file source : String) : List LogEntry :=
  Declarations.report includes file source ++
    match ofSource includes file source with
    | .ok shader => [shader.summary file]
    | .error _ => []

end Shader

end BindlessHlsl
