import BindlessHlsl.IndexTable

/-!
The preamble that stands in front of a generated shader: copies of the structs behind the user
constants, the struct of the user constants, the index table with its buffer, the buffer of user
constants that do not fit beside the table, a macro for every user constant, and the samplers. Its
last line makes the lines behind it count from one.
-/

namespace BindlessHlsl

/-- The contents of a preamble. -/
structure Preamble where
  constants : UserConstants
  layout : Option ConstantsLayout
  /-- The resources in table order with their slots. -/
  resources : List Resource
  samplers : List Sampler
  deriving DecidableEq, Repr

namespace Preamble

/-- The buffer of the index table. -/
def tableBuffer : String := "__BINDLESS_CB"

/-- The buffer of user constants that stand apart. -/
def constantsBuffer : String := "__USER_CONSTANTS_CB"

/-- The struct of the index table. -/
def tableStruct : String := "__BINDLESS_GENERATED"

/-- The struct of the user constants. -/
def constantsStruct : String := "__USER_CONSTANTS_GENERATED"

/-- The member of the index table that holds user constants. -/
def embedded : String := "USER_ConstantsData"

/-- A struct definition, a line each for its members. -/
def structLines (name : String) (members : List String) : List String :=
  ["struct " ++ name, "\x7b"] ++ members.map (fun m => "    " ++ m ++ ";") ++ ["\x7d;"]

/-- The lines that mark the next buffer as push constants. -/
def pushConstantLines : List String := ["#ifdef __spirv__", "[[vk::push_constant]]", "#endif"]

/-- The declaration of a constant buffer. -/
def bufferLine (type name register : String) : String :=
  "ConstantBuffer<" ++ type ++ "> " ++ name ++ " : register(" ++ register ++ ");"

variable (p : Preamble)

/-- Whether user constants and index table share the push constants. -/
def isCombined : Bool := ConstantsLayout.isCombined p.layout

/-- The copies of the structs behind the user constants. -/
def copiedLines : List String :=
  p.constants.structs.flatMap fun s => structLines s.name (s.members.map Member.declaration)

/-- The struct of the user constants. -/
def constantsLines : List String :=
  if p.constants.fields.isEmpty then []
  else structLines constantsStruct
    (p.constants.fields.map fun f => f.typeName ++ " USER_" ++ f.name)

/-- A slot of the index table. -/
def slotLine (r : Resource) : String :=
  "    uint IDX_" ++ r.name ++ "; //" ++ r.group.name ++ ":" ++ toString (r.index.getD 0).toNat

/-- The struct of the index table with its buffer. -/
def tableLines : List String :=
  if p.layout.isNone then []
  else
    ["struct " ++ tableStruct, "\x7b"] ++
    (if p.isCombined && !p.constants.fields.isEmpty then
      ["    " ++ constantsStruct ++ " " ++ embedded ++ ";"] else []) ++
    (Resource.slotted p.resources).map slotLine ++
    ["\x7d;"] ++
    (if p.isCombined then pushConstantLines else []) ++
    [bufferLine tableStruct tableBuffer "b0"]

/-- The buffer of user constants that stand apart. -/
def constantsBufferLines : List String :=
  if !p.isCombined && !p.constants.fields.isEmpty then
    pushConstantLines ++ [bufferLine constantsStruct constantsBuffer "b1"]
  else []

/-- What the names of user constants stand for. -/
def macroLines : List String :=
  let root := if p.isCombined then tableBuffer ++ "." ++ embedded else constantsBuffer
  p.constants.fields.map fun f => "#define " ++ f.name ++ " " ++ root ++ ".USER_" ++ f.name

/-- The samplers in their registers. -/
def samplerLines : List String :=
  p.samplers.map fun s =>
    "SamplerState " ++ s.name ++ " : register(s" ++ toString s.index.toNat ++ ");"

/-- The line after which lines count from one. -/
def lastLine : String := "#line 1"

/-- All lines. -/
def lines : List String :=
  p.copiedLines ++ p.constantsLines ++ p.tableLines ++ p.constantsBufferLines ++ p.macroLines ++
    p.samplerLines ++ [lastLine]

/-- The text, each line ended. A shader without resources and samplers needs none. -/
def text : String :=
  if p.resources.isEmpty && p.samplers.isEmpty then ""
  else String.join (p.lines.map fun line => line ++ "\n")

end Preamble

end BindlessHlsl
