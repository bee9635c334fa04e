import BindlessHlsl.Attribute.Basic
import BindlessHlsl.Sampler.Basic
import BindlessHlsl.Struct.Reader

/-!
The items of a shader text: everything in it that the library takes notice of, with the places and
byte ranges it takes. Items depend on their text alone. What they mean together, across files, is
decided later.
-/

namespace BindlessHlsl

/-- Something noticed in a shader text. -/
inductive Item where
  /-- A directive that sets the content path was begun. -/
  | pathDirective (place : Location)
  | contentPath (path : String) (range : ByteRange)
  /-- A directive declares a bind group. -/
  | bindGroup (name : String) (place : Location) (range : ByteRange)
  /-- A directive includes another file. -/
  | inclusion (path : String) (place : Location)
  /-- An attribute refers to a bind group other than the default one. -/
  | groupUse (group : BindGroup) (place : Location)
  | bracketed (placed : PlacedAttribute) (range : ByteRange)
  /-- A resource with the attributes in front of it. -/
  | resource (kind : ResourceKind) (element : Option String) (name : String) (place : Location)
      (attributes : List PlacedAttribute) (range : ByteRange)
  | sampler (name : String) (settings : SamplerSettings) (range : ByteRange)
  | struct (definition : Struct.Definition) (place : Location) (range : ByteRange)
  /-- A function was begun; these attributes stand in front of it. -/
  | functionStart (name : String) (attributes : List PlacedAttribute)
  /-- A function with the range between its braces. -/
  | function (name : String) (body : ByteRange)
  deriving DecidableEq, Repr

namespace Item

/-- The range of an item that is blanked in the root file. -/
def blanked? : Item → Option ByteRange
  | contentPath _ range => some range
  | bindGroup _ _ range => some range
  | bracketed _ range => some range
  | resource _ _ _ _ _ range => some range
  | sampler _ _ range => some range
  | _ => none

/-- The range that an item takes: what is blanked, a struct definition or a function body. -/
def range? : Item → Option ByteRange
  | struct _ _ range => some range
  | function _ body => some body
  | item => item.blanked?

end Item

end BindlessHlsl
