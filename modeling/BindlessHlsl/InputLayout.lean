import BindlessHlsl.Keyword
import BindlessHlsl.Word

/-!
The vertex input layout: a list of elements with formats. An element without an explicit offset
follows its predecessor directly.
-/

namespace BindlessHlsl

/-- Whether an element advances per vertex or per instance. -/
inductive InputClass where
  | perVertex
  | perInstance
  deriving DecidableEq, Repr, Inhabited

/-- Format of an input element. -/
inductive InputFormat where
  | padding
  | float1
  | float2
  | float3
  | float4
  | uint1
  | uint2
  | uint3
  | uint4
  | byte4
  deriving DecidableEq, Repr, Inhabited

instance : Keyword InputClass where
  spellings := [("Vertex", .perVertex), ("Instance", .perInstance)]

instance : Tagged InputClass where
  tags := [(.perVertex, "vertex"), (.perInstance, "instance")]

namespace InputFormat

/-- Size of an element in bytes. -/
def size : InputFormat → UInt32
  | padding => 0
  | float1 | uint1 | byte4 => 4
  | float2 | uint2 => 8
  | float3 | uint3 => 12
  | float4 | uint4 => 16

instance : Keyword InputFormat where
  spellings := [
    ("Padding", padding),
    ("Float1", float1),
    ("Float2", float2),
    ("Float3", float3),
    ("Float4", float4),
    ("UInt1", uint1),
    ("UInt2", uint2),
    ("UInt3", uint3),
    ("UInt4", uint4),
    ("Byte4", byte4)]

instance : Tagged InputFormat where
  tags := [
    (padding, "padding"),
    (float1, "float1"),
    (float2, "float2"),
    (float3, "float3"),
    (float4, "float4"),
    (uint1, "uInt1"),
    (uint2, "uInt2"),
    (uint3, "uInt3"),
    (uint4, "uInt4"),
    (byte4, "byte4")]

end InputFormat

/-- One element of the input layout. -/
structure InputElement where
  name : String
  offset : Option UInt32
  slot : Option UInt32
  inputClass : InputClass
  format : InputFormat
  deriving DecidableEq, Repr, Inhabited

end BindlessHlsl
