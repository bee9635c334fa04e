import BindlessHlsl.Shader.Basic

/-!
Pipeline descriptions: all that a renderer needs to know about a generated shader.
-/

namespace BindlessHlsl

/-- A resource with its slot in the index table. -/
structure SlotDescription where
  name : String
  group : String
  index : UInt32
  signature : String
  kind : ResourceKind
  property : Option Property
  deriving DecidableEq, Repr, Inhabited

/-- A part of the user constants with its struct. -/
structure ConstantsDescription where
  name : String
  structName : String
  size : UInt32
  deriving DecidableEq, Repr, Inhabited

/-- What a renderer needs to build the pipeline of a shader. -/
structure PipelineDescription where
  sourceFile : String
  path : Option String
  vertexEntry : Option String
  pixelEntry : Option String
  groups : List String
  resources : List SlotDescription
  constants : List ConstantsDescription
  samplers : List Sampler
  inputLayout : List InputElement
  /-- Size of all user constants in bytes. -/
  constantsSize : UInt32
  layout : Option ConstantsLayout
  deriving DecidableEq, Repr, Inhabited

/-- The description of a resource that has a slot. -/
def SlotDescription.ofResource (r : Resource) : SlotDescription :=
  ⟨r.name, r.group.name, r.index.getD 0, r.signature, r.kind, r.property⟩

/-- The description of user constants. -/
def ConstantsDescription.ofResource (r : Resource) (s : Struct) :
    Except Stop ConstantsDescription := do
  return ⟨r.name, s.name, ← Stop.fitting s.size?⟩

namespace PipelineDescription

/-- User constants with their structs, in table order. A type that is no known struct is left
out. -/
def constantsOf (s : Shader) : List (Resource × Struct) :=
  (s.resources.filter Resource.isConstants).filterMap fun r =>
    (s.elementStruct? r).map fun definition => (r, definition)

/-- The description of a shader that was generated from a file. -/
def ofShader (file : String) (s : Shader) : Except Stop PipelineDescription := do
  let constants ← (constantsOf s).mapM fun c => ConstantsDescription.ofResource c.1 c.2
  return {
    sourceFile := file
    path := s.path
    vertexEntry := s.vertexEntry
    pixelEntry := s.pixelEntry
    groups := s.groups.names
    resources := (Resource.slotted s.resources).map .ofResource
    constants := constants
    samplers := s.samplers
    inputLayout := s.inputLayout
    constantsSize := s.constantsSize
    layout := s.layout }

end PipelineDescription

end BindlessHlsl
