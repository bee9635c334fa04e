import BindlessHlsl.Keyword
import BindlessHlsl.Single.Basic

/-!
Immutable samplers: a preset with some of its settings changed.
-/

namespace BindlessHlsl

/-- How a texture is filtered. -/
inductive TextureFilter where
  | point
  | minMagPointMipLinear
  | minPointMagLinearMipPoint
  | minPointMagMipLinear
  | minLinearMagMipPoint
  | minLinearMagPointMipLinear
  | minMagLinearMipPoint
  | linear
  | minMagAnisotropicMipPoint
  deriving DecidableEq, Repr, Inhabited

namespace TextureFilter

instance : Keyword TextureFilter where
  spellings := [
    ("Point", point),
    ("MinMagPointMipLinear", minMagPointMipLinear),
    ("MinPointMagLinearMipPoint", minPointMagLinearMipPoint),
    ("MinPointMagMipLinear", minPointMagMipLinear),
    ("MinLinearMagMipPoint", minLinearMagMipPoint),
    ("MinLinearMagPointMipLinear", minLinearMagPointMipLinear),
    ("MinMagLinearMipPoint", minMagLinearMipPoint),
    ("Linear", linear),
    ("MinMagAnisotropicMipPoint", minMagAnisotropicMipPoint)]

instance : Tagged TextureFilter where
  tags := [
    (point, "point"),
    (minMagPointMipLinear, "minMagPointMipLinear"),
    (minPointMagLinearMipPoint, "minPointMagLinearMipPoint"),
    (minPointMagMipLinear, "minPointMagMipLinear"),
    (minLinearMagMipPoint, "minLinearMagMipPoint"),
    (minLinearMagPointMipLinear, "minLinearMagPointMipLinear"),
    (minMagLinearMipPoint, "minMagLinearMipPoint"),
    (linear, "linear"),
    (minMagAnisotropicMipPoint, "minMagAnisotropicMipPoint")]

end TextureFilter

/-- What a texture coordinate outside the texture refers to. -/
inductive AddressMode where
  | wrap
  | mirror
  | clampToEdge
  | clampToBorder
  deriving DecidableEq, Repr, Inhabited

instance : Keyword AddressMode where
  spellings := [
    ("Repeat", .wrap),
    ("Mirror", .mirror),
    ("ClampToEdge", .clampToEdge),
    ("ClampToBorder", .clampToBorder)]

instance : Tagged AddressMode where
  tags := [
    (.wrap, "repeat"),
    (.mirror, "mirror"),
    (.clampToEdge, "clampToEdge"),
    (.clampToBorder, "clampToBorder")]

/-- The colour outside a texture that is clamped to its border. -/
inductive SamplerBorder where
  | transparentBlack
  | opaqueBlack
  | opaqueWhite
  | opaqueBlackUInt
  | opaqueWhiteUInt
  deriving DecidableEq, Repr, Inhabited

namespace SamplerBorder

instance : Keyword SamplerBorder where
  spellings := [
    ("TransparentBlack", transparentBlack),
    ("OpaqueBlack", opaqueBlack),
    ("OpaqueWhite", opaqueWhite),
    ("OpaqueBlackUInt", opaqueBlackUInt),
    ("OpaqueWhiteUInt", opaqueWhiteUInt)]

instance : Tagged SamplerBorder where
  tags := [
    (transparentBlack, "transparentBlack"),
    (opaqueBlack, "opaqueBlack"),
    (opaqueWhite, "opaqueWhite"),
    (opaqueBlackUInt, "opaqueBlackUInt"),
    (opaqueWhiteUInt, "opaqueWhiteUInt")]

end SamplerBorder

/-- The settings of a sampler. -/
structure SamplerSettings where
  filter : TextureFilter
  addressU : AddressMode := .wrap
  addressV : AddressMode := .wrap
  addressW : AddressMode := .wrap
  maxAnisotropy : UInt32 := 1
  mipLodBias : Single := .one
  minLod : Single := .zero
  maxLod : Single := .greatest
  border : SamplerBorder := .transparentBlack
  deriving DecidableEq, Repr, Inhabited

/-- A named sampler with its register. -/
structure Sampler where
  name : String
  index : UInt32
  settings : SamplerSettings
  deriving DecidableEq, Repr, Inhabited

/-- Settings to start from. -/
inductive SamplerPreset where
  | default
  | defaultLinear
  | defaultPoint
  deriving DecidableEq, Repr, Inhabited

namespace SamplerPreset

instance : Keyword SamplerPreset where
  spellings := [
    ("default", default),
    ("defaultLinear", defaultLinear),
    ("defaultPoint", defaultPoint)]

/-- The settings of a preset. -/
def settings : SamplerPreset → SamplerSettings
  | default | defaultLinear => { filter := .linear }
  | defaultPoint => { filter := .point }

end SamplerPreset

/-- A setting that a sampler block may change. -/
inductive SamplerField where
  | filter
  | addressU
  | addressV
  | addressW
  | maxAnisotropy
  | mipLodBias
  | minLod
  | maxLod
  | border
  deriving DecidableEq, Repr, Inhabited

instance : Keyword SamplerField where
  spellings := [
    ("Filter", .filter),
    ("AddressModeU", .addressU),
    ("AddressModeV", .addressV),
    ("AddressModeW", .addressW),
    ("MaxAnisotropy", .maxAnisotropy),
    ("MaxAnistropy", .maxAnisotropy),
    ("MipLODBias", .mipLodBias),
    ("MinLOD", .minLod),
    ("MaxLOD", .maxLod),
    ("Border", .border)]

/-- Why a setting does not take a value. -/
inductive SettingFault where
  /-- The value is not a word of the set that the setting takes. -/
  | unknownWord
  /-- The value is not a number. -/
  | notANumber
  deriving DecidableEq, Repr

namespace SamplerSettings

/-- The highest anisotropy; greater values mean this one. -/
def anisotropyLimit : UInt32 := 16

/-- The value of a setting that takes a word. -/
def wordValue {α : Type} [Keyword α] (text : String) : Except SettingFault α :=
  match Keyword.ofWord? text with
  | some value => .ok value
  | none => .error .unknownWord

/-- The value of a setting that takes a level of detail. -/
def lodValue (text : String) : Except SettingFault Single :=
  match Single.levelOfDetail? text with
  | some value => .ok value
  | none => .error .notANumber

/-- The value of a setting that takes an anisotropy. -/
def anisotropyValue (text : String) : Except SettingFault UInt32 :=
  match Word.ofText? text with
  | some value => .ok (min value anisotropyLimit)
  | none => .error .notANumber

/-- The settings with one of them set to a written value. -/
def set (s : SamplerSettings) (field : SamplerField) (text : String) :
    Except SettingFault SamplerSettings :=
  match field with
  | .filter => (wordValue text).map fun v => { s with filter := v }
  | .addressU => (wordValue text).map fun v => { s with addressU := v }
  | .addressV => (wordValue text).map fun v => { s with addressV := v }
  | .addressW => (wordValue text).map fun v => { s with addressW := v }
  | .border => (wordValue text).map fun v => { s with border := v }
  | .maxAnisotropy => (anisotropyValue text).map fun v => { s with maxAnisotropy := v }
  | .mipLodBias => (lodValue text).map fun v => { s with mipLodBias := v }
  | .minLod => (lodValue text).map fun v => { s with minLod := v }
  | .maxLod => (lodValue text).map fun v => { s with maxLod := v }

end SamplerSettings

end BindlessHlsl
