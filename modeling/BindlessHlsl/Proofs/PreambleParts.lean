import BindlessHlsl.Proofs.LineStructure

/-!
A preamble as a list of declarations. Its text is these declarations printed one after the other
(`Preamble.Coherent.text_eq_printed`), so that what a preamble declares is read off the list and
never off the text. The preamble of a generated shader has a layout as soon as it has resources
(`Preamble.coherent_of_ofResources`), and the shader prints it in front of the edited root file
(`Shader.Prints`).
-/

namespace BindlessHlsl

namespace Preamble

/-- A member of a generated struct. -/
inductive Field where
  /-- A slot of the index table, with its bind group and number behind it. -/
  | slot (name group : String) (index : Nat)
  | constants (typeName name : String)
  /-- The struct of all user constants as a member of the index table. -/
  | embedded
  deriving DecidableEq, Repr

/-- A declaration of a preamble. -/
inductive Part where
  /-- A struct as it was written in the root file. -/
  | copy (name : String) (members : List String)
  | struct (name : String) (fields : List Field)
  /-- A constant buffer, which may be marked as push constants. -/
  | buffer (pushed : Bool) (type name register : String)
  | abbreviation (name value : String)
  | sampler (name : String) (register : UInt32)
  deriving DecidableEq, Repr

def Field.line : Field → String
  | slot name group index => "    uint IDX_" ++ name ++ "; //" ++ group ++ ":" ++ toString index
  | constants typeName name => "    " ++ typeName ++ " USER_" ++ name ++ ";"
  | embedded => "    __USER_CONSTANTS_GENERATED USER_ConstantsData;"

def Part.lines : Part → List String
  | copy name members =>
    ["struct " ++ name, "\x7b"] ++ members.map (fun m => "    " ++ m ++ ";") ++ ["\x7d;"]
  | struct name fields => ["struct " ++ name, "\x7b"] ++ fields.map Field.line ++ ["\x7d;"]
  | buffer pushed type name register =>
    (if pushed then ["#ifdef __spirv__", "[[vk::push_constant]]", "#endif"] else []) ++
      ["ConstantBuffer<" ++ type ++ "> " ++ name ++ " : register(" ++ register ++ ");"]
  | abbreviation name value => ["#define " ++ name ++ " " ++ value]
  | sampler name register =>
    ["SamplerState " ++ name ++ " : register(s" ++ toString register.toNat ++ ");"]

def Field.slot? : Field → Option (String × String × Nat)
  | slot name group index => some (name, group, index)
  | _ => none

/-- The members of a generated struct with this name. -/
def Part.fields? (name : String) : Part → Option (List Field)
  | struct name' fields => if name' = name then some fields else none
  | _ => none

def Part.sampler? : Part → Option (String × UInt32)
  | sampler name register => some (name, register)
  | _ => none

/-- The text of declarations. The line behind them resets the line count. -/
def printed (parts : List Part) : String :=
  if parts = [] then ""
  else String.join ((parts.flatMap Part.lines ++ ["#line 1"]).map fun line => line ++ "\n")

/-! ## The declarations of a preamble -/

variable (p : Preamble)

def constantsFields : List Field := p.constants.fields.map fun f => .constants f.typeName f.name

/-- The user constants as a member of the index table, if they are one. -/
def embeddedFields : List Field :=
  if p.isCombined && !p.constants.fields.isEmpty then [.embedded] else []

def slotFields : List Field :=
  (p.resources.filter fun r => !r.isConstants).map fun r =>
    .slot r.name r.group.name (r.index.getD 0).toNat

def constantsParts : List Part :=
  if p.constants.fields.isEmpty then []
  else [.struct "__USER_CONSTANTS_GENERATED" p.constantsFields]

def tableParts : List Part :=
  if p.layout.isNone then []
  else [.struct "__BINDLESS_GENERATED" (p.embeddedFields ++ p.slotFields),
    .buffer p.isCombined "__BINDLESS_GENERATED" "__BINDLESS_CB" "b0"]

def constantsBufferParts : List Part :=
  if !p.isCombined && !p.constants.fields.isEmpty then
    [.buffer true "__USER_CONSTANTS_GENERATED" "__USER_CONSTANTS_CB" "b1"]
  else []

def aliasParts : List Part :=
  let root := if p.isCombined then "__BINDLESS_CB.USER_ConstantsData" else "__USER_CONSTANTS_CB"
  p.constants.fields.map fun f => .abbreviation f.name (root ++ ".USER_" ++ f.name)

def samplerParts : List Part := p.samplers.map fun s => .sampler s.name s.index

def copiedParts : List Part :=
  p.constants.structs.map fun s => .copy s.name (s.members.map Member.declaration)

/-- The generated structs and their buffers. -/
def blockParts : List Part := p.constantsParts ++ p.tableParts ++ p.constantsBufferParts

/-- What a preamble declares. -/
def parts : List Part := p.copiedParts ++ p.blockParts ++ p.aliasParts ++ p.samplerParts

variable {p}

theorem filterMap_parts {α : Type} {view : Part → Option α}
    (hcopy : ∀ name members, view (.copy name members) = none)
    (habbreviation : ∀ name value, view (.abbreviation name value) = none)
    (hsampler : ∀ name register, view (.sampler name register) = none) :
    p.parts.filterMap view = p.blockParts.filterMap view := by
  have hcopied : p.copiedParts.filterMap view = [] := by
    simp [copiedParts, hcopy]
  have haliases : p.aliasParts.filterMap view = [] := by
    simp [aliasParts, habbreviation]
  have hsamplers : p.samplerParts.filterMap view = [] := by
    simp [samplerParts, hsampler]
  simp only [parts, List.filterMap_append, hcopied, haliases, hsamplers, List.nil_append,
    List.append_nil]

theorem copiedLines_eq : p.copiedLines = p.copiedParts.flatMap Part.lines := by
  rw [copiedParts]
  rw [List.flatMap_map]
  rfl

theorem constantsFieldLines_eq :
    (p.constants.fields.map fun f => f.typeName ++ " USER_" ++ f.name).map
      (fun m => "    " ++ m ++ ";") = p.constantsFields.map Field.line := by
  rw [constantsFields, List.map_map, List.map_map]
  refine List.map_congr_left fun f _ => congrArg (· ++ ";") ?_
  rw [← String.append_assoc, ← String.append_assoc]

theorem constantsLines_eq_lines : p.constantsLines = p.constantsParts.flatMap Part.lines := by
  unfold constantsLines constantsParts
  split
  · rfl
  · rw [structLines, constantsFieldLines_eq, List.flatMap_singleton]
    rfl

theorem embeddedLines_eq :
    (if p.isCombined && !p.constants.fields.isEmpty then
      ["    " ++ constantsStruct ++ " " ++ embedded ++ ";"] else []) =
      p.embeddedFields.map Field.line := by
  unfold embeddedFields
  split <;> rfl

theorem slotLines_eq :
    (Resource.slotted p.resources).map slotLine = p.slotFields.map Field.line := by
  rw [slotFields, List.map_map]
  rfl

theorem tableLines_eq : p.tableLines = p.tableParts.flatMap Part.lines := by
  unfold tableLines tableParts
  cases p.layout with
  | none => rfl
  | some layout =>
    rw [embeddedLines_eq, slotLines_eq, Option.isNone_some, if_neg Bool.false_ne_true,
      if_neg Bool.false_ne_true, List.flatMap_cons, List.flatMap_singleton, Part.lines, Part.lines,
      List.map_append]
    simp only [List.append_assoc]
    rfl

theorem constantsBufferLines_eq :
    p.constantsBufferLines = p.constantsBufferParts.flatMap Part.lines := by
  unfold constantsBufferLines constantsBufferParts
  split <;> rfl

theorem macroLines_eq : p.macroLines = p.aliasParts.flatMap Part.lines := by
  have hroot : (if p.isCombined then tableBuffer ++ "." ++ embedded else constantsBuffer) =
      if p.isCombined then "__BINDLESS_CB.USER_ConstantsData" else "__USER_CONSTANTS_CB" := by
    cases p.isCombined <;> rfl
  rw [aliasParts, List.flatMap_map, macroLines, List.map_eq_flatMap, hroot]
  refine congrArg (List.flatMap · _) (funext fun f => ?_)
  simp only [Part.lines, String.append_assoc]

theorem samplerLines_eq : p.samplerLines = p.samplerParts.flatMap Part.lines := by
  rw [samplerParts, List.flatMap_map, samplerLines, List.map_eq_flatMap]
  rfl

theorem lines_eq : p.lines = p.parts.flatMap Part.lines ++ ["#line 1"] := by
  simp only [lines, parts, blockParts, List.flatMap_append, ← copiedLines_eq,
    ← constantsLines_eq_lines, ← tableLines_eq, ← constantsBufferLines_eq, ← macroLines_eq,
    ← samplerLines_eq, List.append_assoc]
  rfl

/-- A preamble that has a layout exactly for resources, and no user constants without them. -/
structure Coherent (p : Preamble) : Prop where
  layout_eq_none : p.layout = none ↔ p.resources = []
  constants_eq : p.resources = [] → p.constants = {}

theorem Coherent.parts_eq_nil (h : p.Coherent) :
    p.parts = [] ↔ p.resources = [] ∧ p.samplers = [] := by
  constructor
  · intro hp
    simp only [parts, blockParts, List.append_eq_nil_iff] at hp
    obtain ⟨⟨⟨_, ⟨_, ht⟩, _⟩, _⟩, hs⟩ := hp
    refine ⟨h.layout_eq_none.1 ?_, by simpa [samplerParts] using hs⟩
    cases hl : p.layout with
    | none => rfl
    | some layout => simp [tableParts, hl] at ht
  · rintro ⟨hr, hs⟩
    simp [parts, copiedParts, blockParts, constantsParts, tableParts, constantsBufferParts,
      aliasParts, samplerParts, h.constants_eq hr, h.layout_eq_none.2 hr, hs]

theorem Coherent.text_eq_printed (h : p.Coherent) : p.text = printed p.parts := by
  rw [text, printed, lines_eq]
  by_cases hp : p.parts = []
  · obtain ⟨hr, hs⟩ := h.parts_eq_nil.1 hp
    simp [hp, hr, hs]
  · have hn : ¬(p.resources.isEmpty && p.samplers.isEmpty) = true := by
      simpa [h.parts_eq_nil] using hp
    rw [if_neg hp, if_neg hn]

end Preamble

/-! ## Layouts -/

/-- What laying out a table comes to: nothing without resources, or one layout with the exact sizes,
which is combined as long as both fit the budget. -/
structure ConstantsLayout.Lays (resources : List Resource) (size : UInt32)
    (layout : Option ConstantsLayout) : Prop where
  none_iff : layout = none ↔ resources = []
  tableSize : ∀ l ∈ layout,
    l.tableSize.toNat = 4 * (resources.filter fun r => !r.isConstants).length
  constantsSize : ∀ l ∈ layout, l.constantsSize = size
  total_lt : ∀ l ∈ layout, l.tableSize.toNat + size.toNat < Word.bound
  combined_iff : ∀ l ∈ layout,
    l.kind = .combined ↔
      4 * (resources.filter fun r => !r.isConstants).length + size.toNat ≤ 128

theorem ConstantsLayout.lays_of_ofResources {resources : List Resource} {size : UInt32}
    {layout : Option ConstantsLayout} (h : ofResources resources size = .ok layout) :
    Lays resources size layout := by
  simp only [ofResources, Stop.bind_eq_ok, Stop.fitting_eq_ok] at h
  obtain ⟨count, hcount, tableSize, htable, h⟩ := h
  have htable : tableSize.toNat = 4 * (resources.filter fun r => !r.isConstants).length := by
    rw [Word.toNat_of_mul? htable, Word.toNat_of_ofNat? hcount, Nat.mul_comm]
    rfl
  split at h
  next he =>
    cases h
    refine ⟨by simpa [List.isEmpty_iff] using he, ?_, ?_, ?_, ?_⟩ <;> rintro _ ⟨⟩
  next he =>
    simp only [Stop.bind_eq_ok, Stop.fitting_eq_ok] at h
    obtain ⟨total, htotal, h⟩ := h
    cases h
    have htotal := Word.toNat_of_add? htotal
    have hle : total ≤ UserConstants.budget ↔
        4 * (resources.filter fun r => !r.isConstants).length + size.toNat ≤ 128 := by
      rw [← htable, ← htotal]
      exact UInt32.le_iff_toNat_le
    refine ⟨by simpa [List.isEmpty_iff] using he, ?_, ?_, ?_, ?_⟩ <;> rintro _ ⟨⟩
    · exact htable
    · rfl
    · rw [← htotal]
      exact total.toNat_lt
    · dsimp only
      rw [← hle]
      split
      next h => exact iff_of_true rfl h
      next h => exact iff_of_false (by decide) h

theorem Preamble.coherent_of_ofResources {file : String} {d : Declarations} {p : Preamble}
    (hc : UserConstants.ofDeclarations file d = .ok p.constants)
    (hres : p.resources = Resource.table d.resources)
    (hl : ConstantsLayout.ofResources p.resources p.constants.size = .ok p.layout) :
    p.Coherent where
  layout_eq_none := (ConstantsLayout.lays_of_ofResources hl).none_iff
  constants_eq hnil := by
    have hnone : d.resources = [] := by
      rw [← List.length_eq_zero_iff, ← Resource.length_table, ← hres, hnil, List.length_nil]
    rw [UserConstants.ofDeclarations, hnone] at hc
    exact (Except.ok.inj hc).symm

/-! ## Generated texts -/

namespace Shader

open Utf8 EditList

/-- The text of a shader: declarations, and then the root file, in which the consumed constructs are
overwritten and function bodies get the lookups that they need in front. -/
structure Prints (source : String) (d : Declarations) (shader : Shader)
    (parts : List Preamble.Part) (blanked : Nat → Bool) (lookups : List (Nat × String)) : Prop where
  output : shader.output =
    Preamble.printed parts ++ String.ofList (woven blanked lookups 0 source.toList)
  blanked_iff : ∀ offset, blanked offset = true ↔
    ∃ range, Consumes (Outline.ofText source).items d range ∧
      range.start ≤ offset ∧ offset < range.stop
  lookups_eq : lookups = neededLookups shader.resources source

theorem prints_of_generate {includes : Includes} {file source : String} {d : Declarations}
    {p : Preamble} {shader : Shader} (hd : Declarations.ofRoot includes file source = .ok d)
    (hc : UserConstants.ofDeclarations file d = .ok p.constants)
    (hres : p.resources = Resource.table d.resources)
    (hl : ConstantsLayout.ofResources p.resources p.constants.size = .ok p.layout)
    (ho : (p.edits source d.functions).edited? source = some shader.output)
    (hshader : shader.resources = p.resources) :
    Prints source d shader p.parts (consumed (Outline.ofText source).items p.constants.structs)
      (d.functions.filterMap (lookupInsertion p.resources (encode source))) where
  output := by
    rw [output_eq hd ho, (Preamble.coherent_of_ofResources hc hres hl).text_eq_printed]
  blanked_iff _ := consumed_iff hc
  lookups_eq := by
    rw [hshader]
    exact filterMap_lookupInsertion hd fun r hr => (resource_identifiers hd (hres ▸ hr)).1

end Shader

end BindlessHlsl
