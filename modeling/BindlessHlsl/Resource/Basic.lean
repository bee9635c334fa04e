import BindlessHlsl.BindGroup
import BindlessHlsl.Keyword
import BindlessHlsl.Span

/-!
Resources that a shader declares at global scope. A constant buffer marked as user constants lives
in the constants block; every other resource gets a slot in the index table.
-/

namespace BindlessHlsl

/-- The kind of a resource, spelled as its type name. -/
inductive ResourceKind where
  | constantBuffer
  | structuredBuffer
  | rwStructuredBuffer
  | texture1D
  | texture1DArray
  | texture2D
  | texture2DArray
  | texture3D
  | textureCube
  | textureCubeArray
  deriving DecidableEq, Repr, Inhabited

namespace ResourceKind

instance : Keyword ResourceKind where
  spellings := [
    ("ConstantBuffer", constantBuffer),
    ("StructuredBuffer", structuredBuffer),
    ("RWStructuredBuffer", rwStructuredBuffer),
    ("Texture1D", texture1D),
    ("Texture1DArray", texture1DArray),
    ("Texture2D", texture2D),
    ("Texture2DArray", texture2DArray),
    ("Texture3D", texture3D),
    ("TextureCube", textureCube),
    ("TextureCubeArray", textureCubeArray)]

instance : Tagged ResourceKind where
  tags := Keyword.spellings.map Prod.swap

end ResourceKind

/-- The texture bound to a property that has none assigned. -/
inductive PropertyDefault where
  | white
  | normal
  | mask
  deriving DecidableEq, Repr, Inhabited

instance : Keyword PropertyDefault where
  spellings := [("White", .white), ("Normal", .normal), ("Mask", .mask)]

instance : Tagged PropertyDefault where
  tags := [(.white, "white"), (.normal, "normal"), (.mask, "mask")]

/-- A material property that a texture stands for. -/
structure Property where
  name : String
  fallback : Option PropertyDefault
  deriving DecidableEq, Repr, Inhabited

/-- A mark that stays with a resource. -/
inductive ResourceMark where
  | constants
  | property (property : Property)
  deriving DecidableEq, Repr

/-- A resource declaration. -/
structure Resource where
  kind : ResourceKind
  /-- Type of the element between angle brackets. -/
  element : Option String
  name : String
  group : BindGroup
  /-- Slot in the index table; none for user constants once slots are assigned. -/
  index : Option UInt32
  marks : List ResourceMark
  location : Location
  deriving DecidableEq, Repr

namespace Resource

/-- The declared type. -/
def signature (r : Resource) : String :=
  match r.element with
  | none => Keyword.word r.kind
  | some element => Keyword.word r.kind ++ "<" ++ element ++ ">"

/-- Whether the resource belongs to the user constants. -/
def isConstants (r : Resource) : Bool :=
  r.kind == .constantBuffer && r.marks.contains .constants

/-- The first property mark. -/
def property (r : Resource) : Option Property :=
  r.marks.findSome? fun
    | .property p => some p
    | .constants => none

end Resource

end BindlessHlsl
