import BindlessHlsl.Pipeline.Description

/-!
Pipeline descriptions in terms of Vulkan: samplers, vertex attributes and push constants with the
numbers that the interface assigns to each choice.
-/

namespace BindlessHlsl

namespace Vulkan

/-- How texels, or mipmap levels, are combined. -/
inductive Filtering where
  | nearest
  | linear
  deriving DecidableEq, Repr, Inhabited

/-- The number of a way of filtering. -/
def Filtering.number : Filtering → UInt32
  | nearest => 0
  | linear => 1

/-- The filtering of a sampler on each of its three occasions. -/
structure FilterModes where
  min : Filtering
  mag : Filtering
  mip : Filtering
  deriving DecidableEq, Repr, Inhabited

/-- A sampler as it is created. -/
structure SamplerInfo where
  filter : FilterModes
  addressU : UInt32
  addressV : UInt32
  addressW : UInt32
  anisotropyEnable : Bool
  maxAnisotropy : Single
  mipLodBias : Single
  minLod : Single
  maxLod : Single
  border : UInt32
  deriving DecidableEq, Repr, Inhabited

/-- A vertex attribute. -/
structure VertexAttribute where
  location : UInt32
  binding : UInt32
  format : UInt32
  offset : UInt32
  deriving DecidableEq, Repr, Inhabited

/-- A range of push constants. -/
structure PushConstantRange where
  stages : UInt32
  offset : UInt32
  size : UInt32
  deriving DecidableEq, Repr, Inhabited

/-- All stages of a graphics pipeline. -/
def allGraphics : UInt32 := 31

end Vulkan

/-- The modes of a filter. -/
def TextureFilter.modes : TextureFilter → Vulkan.FilterModes
  | point => ⟨.nearest, .nearest, .nearest⟩
  | minMagPointMipLinear => ⟨.nearest, .nearest, .linear⟩
  | minPointMagLinearMipPoint => ⟨.nearest, .linear, .nearest⟩
  | minPointMagMipLinear => ⟨.nearest, .linear, .linear⟩
  | minLinearMagMipPoint => ⟨.linear, .nearest, .nearest⟩
  | minLinearMagPointMipLinear => ⟨.linear, .nearest, .linear⟩
  | minMagLinearMipPoint | minMagAnisotropicMipPoint => ⟨.linear, .linear, .nearest⟩
  | linear => ⟨.linear, .linear, .linear⟩

/-- The number of an address mode. -/
def AddressMode.number : AddressMode → UInt32
  | wrap => 0
  | mirror => 1
  | clampToEdge => 2
  | clampToBorder => 3

/-- The number of a border colour. -/
def SamplerBorder.number : SamplerBorder → UInt32
  | transparentBlack => 0
  | opaqueBlack => 2
  | opaqueBlackUInt => 3
  | opaqueWhite => 4
  | opaqueWhiteUInt => 5

/-- The number of an input rate. -/
def InputClass.number : InputClass → UInt32
  | perVertex => 0
  | perInstance => 1

/-- The number of an element format. -/
def InputFormat.number : InputFormat → UInt32
  | padding => 0
  | byte4 => 37
  | uint1 => 98
  | float1 => 100
  | uint2 => 101
  | float2 => 103
  | uint3 => 104
  | float3 => 106
  | uint4 => 107
  | float4 => 109

/-- A sampler as it is created. -/
def SamplerSettings.info (s : SamplerSettings) : Vulkan.SamplerInfo where
  filter := s.filter.modes
  addressU := s.addressU.number
  addressV := s.addressV.number
  addressW := s.addressW.number
  anisotropyEnable := s.filter == .minMagAnisotropicMipPoint
  maxAnisotropy := .ofWord s.maxAnisotropy
  mipLodBias := s.mipLodBias
  minLod := s.minLod
  maxLod := s.maxLod
  border := s.border.number

namespace InputElement

/-- Gives every element its offset: its own, or the end of its predecessor. The end of every element
has to fit a word. -/
def placed? : UInt32 → List InputElement → Option (List (UInt32 × InputElement))
  | _, [] => some []
  | next, e :: rest => do
    let offset := e.offset.getD next
    let placedRest ← placed? (← Word.add? offset e.format.size) rest
    return (offset, e) :: placedRest

/-- The attribute of an element. -/
def attributeAt (e : InputElement) (offset location : UInt32) : Vulkan.VertexAttribute :=
  ⟨location, e.slot.getD 0, e.format.number, offset⟩

/-- The attributes of a layout. Padding takes room but no location. -/
def attributes? (layout : List InputElement) : Option (List Vulkan.VertexAttribute) := do
  let elements := (← placed? 0 layout).filter fun p => p.2.format != .padding
  return elements.zipIdx.map fun ((offset, e), location) => e.attributeAt offset location.toUInt32

end InputElement

namespace PipelineDescription

variable (d : PipelineDescription)

/-- Bytes of push constants. -/
def pushConstantsSize? : Option UInt32 :=
  match d.layout with
  | some ⟨.combined, tableSize, constantsSize⟩ => Word.add? tableSize constantsSize
  | some ⟨.split, _, constantsSize⟩ => some constantsSize
  | none => some 0

/-- The ranges of push constants: one from the start, or none. -/
def pushConstantRanges? : Option (List Vulkan.PushConstantRange) := do
  let size ← d.pushConstantsSize?
  return if size = 0 then [] else [⟨Vulkan.allGraphics, 0, size⟩]

/-- The vertex attributes. -/
def vertexAttributes? : Option (List Vulkan.VertexAttribute) :=
  InputElement.attributes? d.inputLayout

end PipelineDescription

end BindlessHlsl
