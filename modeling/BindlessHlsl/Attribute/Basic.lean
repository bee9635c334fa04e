import BindlessHlsl.InputLayout
import BindlessHlsl.Resource.Basic

/-!
Attributes stand in square brackets in front of a declaration and say what it is for.
-/

namespace BindlessHlsl

/-- The kind of an attribute, spelled as its name. -/
inductive AttributeKind where
  | vertex
  | pixel
  | constants
  | inputLayout
  | property
  | bindGroup
  deriving DecidableEq, Repr, Inhabited

namespace AttributeKind

instance : Keyword AttributeKind where
  spellings := [
    ("vertex", vertex),
    ("pixel", pixel),
    ("constants", constants),
    ("ialayout", inputLayout),
    ("property", property),
    ("bindgroup", bindGroup)]

instance : Tagged AttributeKind where
  tags := [
    (vertex, "vertex"),
    (pixel, "pixel"),
    (constants, "constants"),
    (inputLayout, "inputLayout"),
    (property, "property"),
    (bindGroup, "bindGroup")]

/-- The title of a kind in a list of kinds. -/
def title : AttributeKind → String
  | vertex => "Vertex"
  | pixel => "Pixel"
  | constants => "Constants"
  | inputLayout => "InputLayout"
  | property => "Property"
  | bindGroup => "BindGroup"

end AttributeKind

/-- An attribute. -/
inductive Attribute where
  /-- The function is the vertex entry point. -/
  | vertex
  /-- The function is the pixel entry point. -/
  | pixel
  /-- The constant buffer belongs to the user constants. -/
  | constants
  /-- The vertex entry point takes an input element. -/
  | inputLayout (element : InputElement)
  /-- The texture is a material property. -/
  | property (property : Property)
  /-- The resource belongs to a bind group. -/
  | bindGroup (group : BindGroup)
  deriving DecidableEq, Repr

/-- The kind of an attribute. -/
def Attribute.kind : Attribute → AttributeKind
  | vertex => .vertex
  | pixel => .pixel
  | constants => .constants
  | inputLayout _ => .inputLayout
  | property _ => .property
  | bindGroup _ => .bindGroup

/-- An attribute with the stretch of text it takes. -/
structure PlacedAttribute where
  value : Attribute
  span : Span
  deriving DecidableEq, Repr

/-- What an attribute may stand in front of. -/
inductive Target where
  | resource (kind : ResourceKind)
  | function
  deriving DecidableEq, Repr

/-- The text of a target inside messages. -/
def Target.text : Target → String
  | resource kind => s!"resource of type '{Keyword.word kind}'"
  | function => "function"

end BindlessHlsl
