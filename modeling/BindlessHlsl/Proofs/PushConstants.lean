import BindlessHlsl.Pipeline.Vulkan
import BindlessHlsl.Proofs.ConstantsStructs
import BindlessHlsl.Proofs.SlotAgreement

/-!
Push constants are decided three times: the layout of a shader says whether the user constants share
them with the index table, the preamble marks a buffer, and the description of the pipeline asks for
a range. The range has the size of the struct behind the marked buffer (`Shader.PushesBuffer`).
-/

namespace BindlessHlsl

open Utf8 EditList

/-! ## Sizes of generated structs -/

namespace Preamble

/-- The struct of a buffer that is marked as push constants. -/
def Part.pushed? : Part → Option String
  | buffer true type _ _ => some type
  | _ => none

/-- The members of the generated structs with this name. -/
def membersOf (parts : List Part) (name : String) : List Field :=
  (parts.filterMap (Part.fields? name)).flatten

/-- Bytes of a member, given the sizes of the structs behind user constants. -/
def Field.size (structSize : String → Nat) (embeddedSize : Nat) : Field → Nat
  | slot .. => 4
  | constants typeName _ => structSize typeName
  | embedded => embeddedSize

/-- Bytes of a generated struct. -/
def blockSize (structSize : String → Nat) (parts : List Part) (name : String) : Nat :=
  let constantsSize :=
    ((membersOf parts "__USER_CONSTANTS_GENERATED").map (Field.size structSize 0)).sum
  ((membersOf parts name).map (Field.size structSize constantsSize)).sum

variable {p : Preamble} {structSize : String → Nat}

theorem membersOf_table (h : p.Coherent) : membersOf p.parts "__BINDLESS_GENERATED" =
    if p.resources = [] then [] else p.embeddedFields ++ p.slotFields := by
  rw [membersOf, filterMap_fields?_parts h]
  split
  · rfl
  · exact List.flatten_singleton

theorem membersOf_constants :
    membersOf p.parts "__USER_CONSTANTS_GENERATED" = p.constantsFields := by
  have htable : p.tableParts.filterMap (Part.fields? "__USER_CONSTANTS_GENERATED") = [] := by
    unfold tableParts
    split <;> rfl
  have hbuffer :
      p.constantsBufferParts.filterMap (Part.fields? "__USER_CONSTANTS_GENERATED") = [] := by
    unfold constantsBufferParts
    split <;> rfl
  rw [membersOf, filterMap_parts (fun _ _ => rfl) (fun _ _ => rfl) fun _ _ => rfl, blockParts,
    List.filterMap_append, List.filterMap_append, htable, hbuffer, List.append_nil,
    List.append_nil]
  unfold constantsParts constantsFields
  cases p.constants.fields with
  | nil => rfl
  | cons f rest => exact List.flatten_singleton

/-- At most one buffer is marked: that of the table if it holds the user constants, and else that of
the user constants if there are any. -/
theorem filterMap_pushed?_parts : p.parts.filterMap Part.pushed? =
    if p.isCombined then ["__BINDLESS_GENERATED"]
    else if p.constants.fields = [] then [] else ["__USER_CONSTANTS_GENERATED"] := by
  have hconstants : p.constantsParts.filterMap Part.pushed? = [] := by
    unfold constantsParts
    split <;> rfl
  rw [filterMap_parts (fun _ _ => rfl) (fun _ _ => rfl) fun _ _ => rfl, blockParts,
    List.filterMap_append, List.filterMap_append, hconstants, List.nil_append, tableParts,
    constantsBufferParts]
  unfold isCombined ConstantsLayout.isCombined
  cases p.layout with
  | none => cases p.constants.fields <;> rfl
  | some layout =>
    cases layout with
    | mk kind _ _ => cases kind <;> cases p.constants.fields <;> rfl

theorem sum_constantsFields (n : Nat) : (p.constantsFields.map (Field.size structSize n)).sum =
    (p.constants.fields.map fun f => structSize f.typeName).sum := by
  rw [constantsFields, List.map_map]
  rfl

theorem blockSize_constants : blockSize structSize p.parts "__USER_CONSTANTS_GENERATED" =
    (p.constants.fields.map fun f => structSize f.typeName).sum := by
  rw [blockSize, membersOf_constants, sum_constantsFields]

theorem sum_slotFields (n : Nat) : (p.slotFields.map (Field.size structSize n)).sum =
    4 * (p.resources.filter fun r => !r.isConstants).length := by
  rw [slotFields, List.map_map]
  induction p.resources.filter fun r => !r.isConstants with
  | nil => rfl
  | cons r rest ih =>
    rw [List.map_cons, List.sum_cons, ih, List.length_cons, Nat.mul_succ, Nat.add_comm]
    rfl

theorem blockSize_table (h : p.Coherent) (hcombined : p.isCombined = true) :
    blockSize structSize p.parts "__BINDLESS_GENERATED" =
      4 * (p.resources.filter fun r => !r.isConstants).length +
        (p.constants.fields.map fun f => structSize f.typeName).sum := by
  have hne : p.resources ≠ [] := by
    intro hnil
    rw [isCombined, h.layout_eq_none.2 hnil] at hcombined
    cases hcombined
  rw [blockSize, membersOf_table h, if_neg hne, membersOf_constants, sum_constantsFields,
    List.map_append, List.sum_append, sum_slotFields, Nat.add_comm, embeddedFields, hcombined]
  cases p.constants.fields with
  | nil => rfl
  | cons f rest => simp [Field.size]

end Preamble

/-! ## Sizes of user constants -/

theorem Word.total_eq_sum (words : List UInt32) : total words = (words.map UInt32.toNat).sum := by
  induction words with
  | nil => rfl
  | cons w rest ih =>
    rw [List.map_cons, List.sum_cons, ← ih]
    rfl

namespace Declarations

variable {d : Declarations} {m : Resource × Struct}

/-- The size of the struct with a name, as far as it is known. -/
def structSize (d : Declarations) (name : String) : Nat :=
  ((d.struct? name).bind Struct.size?).elim 0 UInt32.toNat

theorem struct?_of_mem_backed {resources : List Resource} (h : m ∈ d.backed resources) :
    d.struct? m.2.name = some m.2 := by
  obtain ⟨_, _, hs⟩ := mem_backed.1 h
  obtain ⟨name, _, hs⟩ := Option.bind_eq_some_iff.1 hs
  have hname : m.2.name = name := by simpa using List.find?_some hs
  rw [hname, hs]

theorem structSize_moved {moved : Declarations} {edits : EditList}
    (h : moved.structs = d.structs.map (Shader.moveStruct edits)) (name : String) :
    moved.structSize name = d.structSize name := by
  have hfind : moved.struct? name = (d.struct? name).map (Shader.moveStruct edits) := by
    rw [struct?, h, List.find?_map]
    rfl
  rw [structSize, structSize, hfind]
  cases d.struct? name <;> rfl

theorem sum_structSize {u : UserConstants}
    (h : UserConstants.Collects (d.backed d.resources) u) :
    (u.fields.map fun f => d.structSize f.typeName).sum = u.size.toNat := by
  rw [h.size, h.fields, Word.total_eq_sum, List.map_map, List.map_map]
  refine congrArg List.sum (List.map_congr_left fun m hm => ?_)
  obtain ⟨size, hsize⟩ := Option.isSome_iff_exists.1 (h.sized m hm)
  simp [structSize, struct?_of_mem_backed hm, hsize]

end Declarations

/-! ## Ranges -/

theorem ConstantsLayout.isCombined_some (l : ConstantsLayout) :
    isCombined (some l) = true ↔ l.kind = .combined := by
  simp [isCombined]

namespace PipelineDescription

variable {description : PipelineDescription} {resources : List Resource} {size : UInt32}

theorem exists_pushConstantsSize? (h : ConstantsLayout.Lays resources size description.layout)
    (hnone : description.layout = none → size = 0) :
    ∃ word, description.pushConstantsSize? = some word ∧ word.toNat =
      if ConstantsLayout.isCombined description.layout then
        4 * (resources.filter fun r => !r.isConstants).length + size.toNat
      else size.toNat := by
  unfold pushConstantsSize?
  cases hl : description.layout with
  | none => exact ⟨0, rfl, by rw [hnone hl]; rfl⟩
  | some l =>
    have htable := h.tableSize l hl
    have htotal := h.total_lt l hl
    obtain rfl := h.constantsSize l hl
    obtain ⟨kind, tableSize, constantsSize⟩ := l
    cases kind with
    | split => exact ⟨constantsSize, rfl, rfl⟩
    | combined =>
      refine ⟨(tableSize.toNat + constantsSize.toNat).toUInt32, if_pos htotal, ?_⟩
      rw [← htable]
      exact Nat.mod_eq_of_lt htotal

theorem exists_pushConstantRanges? {word : UInt32}
    (h : description.pushConstantsSize? = some word) :
    ∃ ranges, description.pushConstantRanges? = some ranges ∧ ranges.length ≤ 1 ∧
      (ranges.map fun r => r.size.toNat).sum = word.toNat ∧ ∀ r ∈ ranges, r.offset = 0 := by
  rw [pushConstantRanges?, h]
  refine ⟨_, rfl, ?_⟩
  split
  next hzero => simp [hzero]
  next => simp

end PipelineDescription

namespace Shader

/-- The preamble of a shader: the structs and the names of the user constants are those of the
declarations, and everything else is as the shader has it. -/
def preamble (d : Declarations) (shader : Shader) : Preamble where
  constants := ⟨d.copied, (d.backed d.resources).map fun m => ⟨m.2.name, m.1.name⟩,
    shader.constantsSize⟩
  layout := shader.layout
  resources := shader.resources
  samplers := shader.samplers

/-- A shader whose description asks for push constants as its preamble marks them. `parts` is what
the preamble in the text declares, `ranges` what the description asks for. -/
structure PushesBuffer (source : String) (d : Declarations) (shader : Shader)
    (description : PipelineDescription) (parts : List Preamble.Part) (blanked : Nat → Bool)
    (lookups : List (Nat × String)) (ranges : List Vulkan.PushConstantRange) : Prop
    extends Prints source d shader parts blanked lookups where
  parts_eq : parts = (preamble d shader).parts
  marked : (parts.filterMap Preamble.Part.pushed?).length ≤ 1
  size : (ranges.map fun r => r.size.toNat).sum =
    ((parts.filterMap Preamble.Part.pushed?).map
      (Preamble.blockSize shader.structSize parts)).sum
  size_le : (ranges.map fun r => r.size.toNat).sum ≤ 128
  single : ranges.length ≤ 1
  offset : ∀ r ∈ ranges, r.offset = 0
  layout : description.layout = shader.layout
  none_iff : shader.layout = none ↔ shader.resources = []
  combined_iff : ∀ l ∈ shader.layout, l.kind = .combined ↔
    4 * (shader.resources.filter fun r => !r.isConstants).length +
      shader.constantsSize.toNat ≤ 128
  split_iff : ∀ l ∈ shader.layout, l.kind = .split ↔
    128 < 4 * (shader.resources.filter fun r => !r.isConstants).length +
      shader.constantsSize.toNat

variable {includes : Includes} {file source : String} {d : Declarations} {shader : Shader}

/-- The struct behind the marked buffer, if there is one, takes the table and the user constants or
the user constants alone. -/
theorem sum_blockSize_pushed {p : Preamble} (h : p.Coherent) {structSize : String → Nat}
    (hsum : (p.constants.fields.map fun f => structSize f.typeName).sum =
      p.constants.size.toNat) :
    ((p.parts.filterMap Preamble.Part.pushed?).map
        (Preamble.blockSize structSize p.parts)).sum =
      if p.isCombined then
        4 * (p.resources.filter fun r => !r.isConstants).length + p.constants.size.toNat
      else p.constants.size.toNat := by
  rw [Preamble.filterMap_pushed?_parts]
  split
  next hcombined =>
    rw [List.map_singleton, List.sum_singleton, Preamble.blockSize_table h hcombined, hsum]
  next =>
    split
    next hnil =>
      rw [hnil] at hsum
      exact hsum
    next =>
      rw [List.map_singleton, List.sum_singleton, Preamble.blockSize_constants, hsum]

theorem preamble_eq {p : Preamble} (hc : UserConstants.ofDeclarations file d = .ok p.constants)
    (hsize : shader.constantsSize = p.constants.size) (hlayout : shader.layout = p.layout)
    (hresources : shader.resources = p.resources) (hsamplers : shader.samplers = p.samplers) :
    preamble d shader = p := by
  have hfields := (UserConstants.collects_of_ofDeclarations hc).fields
  have hstructs := UserConstants.structs_eq_copied hc
  rw [preamble, hsize, hlayout, hresources, hsamplers, ← hstructs, ← hfields]

theorem pushesBuffer_ofSource (h : ofSource includes file source = .ok shader) :
    ∃ d description parts blanked lookups ranges,
      Declarations.ofRoot includes file source = .ok d ∧
      PipelineDescription.ofShader file shader = .ok description ∧
      description.pushConstantRanges? = some ranges ∧
      PushesBuffer source d shader description parts blanked lookups ranges := by
  obtain ⟨d, hd, hgen⟩ := ofSource_eq_ok h
  obtain ⟨p, hc, hres, hsamplers, hl, ho, hshader⟩ := generate_eq_ok hgen
  obtain ⟨description, hdescription, _⟩ := exists_description hd hgen
  obtain ⟨_, _, hlayout⟩ := PipelineDescription.eq_of_ofShader hdescription
  have hcoherent := Preamble.coherent_of_ofResources hc hres hl
  have hcollects := UserConstants.collects_of_ofDeclarations hc
  have hlays := ConstantsLayout.lays_of_ofResources hl
  have hlayout' : description.layout = p.layout := by rw [hlayout, hshader]
  have hsum : (p.constants.fields.map fun f => shader.structSize f.typeName).sum =
      p.constants.size.toNat := by
    rw [← Declarations.sum_structSize hcollects]
    refine congrArg List.sum (List.map_congr_left fun f _ => ?_)
    exact Declarations.structSize_moved (by rw [hshader]) f.typeName
  obtain ⟨word, hword, hsize⟩ := PipelineDescription.exists_pushConstantsSize?
    (hlayout' ▸ hlays) fun hnone => by
      rw [hcoherent.constants_eq (hcoherent.layout_eq_none.1 (hlayout' ▸ hnone))]
  obtain ⟨ranges, hranges, hsingle, htotal, hoffset⟩ :=
    PipelineDescription.exists_pushConstantRanges? hword
  refine ⟨d, description, p.parts, consumed (Outline.ofText source).items p.constants.structs,
    d.functions.filterMap (lookupInsertion p.resources (encode source)), ranges, hd, hdescription,
    hranges, ?_⟩
  have hr : shader.resources = p.resources := by rw [hshader]
  have hs : shader.constantsSize = p.constants.size := by rw [hshader]
  have hl' : shader.layout = p.layout := by rw [hshader]
  have hcombined : ∀ l ∈ shader.layout, l.kind = .combined ↔
      4 * (shader.resources.filter fun r => !r.isConstants).length +
        shader.constantsSize.toNat ≤ 128 := by
    rw [hr, hs, hl']
    exact hlays.combined_iff
  exact {
    toPrints := prints_of_generate hd hc hres hl ho hr
    parts_eq := by rw [preamble_eq hc hs hl' hr (by rw [hshader, hsamplers])]
    marked := by
      rw [Preamble.filterMap_pushed?_parts]
      split
      · exact Nat.le_refl 1
      · split <;> decide
    size := by
      rw [htotal, hsize, sum_blockSize_pushed hcoherent hsum, Preamble.isCombined, hlayout']
    size_le := by
      rw [htotal, hsize, hlayout']
      split
      next hc =>
        cases hp : p.layout with
        | none =>
          rw [hp] at hc
          cases hc
        | some l =>
          rw [hp] at hc
          exact (hlays.combined_iff l hp).1 ((ConstantsLayout.isCombined_some l).1 hc)
      next => exact UInt32.le_iff_toNat_le.1 hcollects.size_le
    single := hsingle
    offset := hoffset
    layout := hlayout
    none_iff := by rw [hr, hl', hcoherent.layout_eq_none]
    combined_iff := hcombined
    split_iff := fun l hm => by
      rw [← Nat.not_le, ← hcombined l hm]
      cases l.kind <;> decide }

theorem exists_pushesBuffer :
    let source := "struct S \x7b float4 x[7]; float3 y; \x7d;\nstruct T \x7b float z; \x7d;\n" ++
      "[constants] ConstantBuffer<S> a;\n[constants] ConstantBuffer<T> b;\n" ++
      "[constants] ConstantBuffer<U> c;\nTexture2D t;\n"
    let parts : List Preamble.Part := [
      .copy "S" ["float4 x[7]", "float3 y"],
      .copy "T" ["float z"],
      .struct "__USER_CONSTANTS_GENERATED" [.constants "S" "a", .constants "T" "b"],
      .struct "__BINDLESS_GENERATED" [.slot "t" "__Default" 0],
      .buffer false "__BINDLESS_GENERATED" "__BINDLESS_CB" "b0",
      .buffer true "__USER_CONSTANTS_GENERATED" "__USER_CONSTANTS_CB" "b1",
      .abbreviation "a" "__USER_CONSTANTS_CB.USER_a",
      .abbreviation "b" "__USER_CONSTANTS_CB.USER_b"]
    ∃ shader d description blanked lookups, ofSource (.ofFiles []) "f" source = .ok shader ∧
      Declarations.ofRoot (.ofFiles []) "f" source = .ok d ∧
      PipelineDescription.ofShader "f" shader = .ok description ∧
      description.pushConstantRanges? = some [⟨31, 0, 128⟩] ∧
      PushesBuffer source d shader description parts blanked lookups [⟨31, 0, 128⟩] := by
  intro source parts
  let a : Resource := ⟨.constantBuffer, some "S", "a", .default, none, [.constants], ⟨3, 13⟩⟩
  let b : Resource := ⟨.constantBuffer, some "T", "b", .default, none, [.constants], ⟨4, 13⟩⟩
  let c : Resource := ⟨.constantBuffer, some "U", "c", .default, none, [.constants], ⟨5, 13⟩⟩
  let t : Resource := ⟨.texture2D, none, "t", .default, none, [], ⟨6, 1⟩⟩
  -- The user constants fill the budget, so that the slot of `t` does not fit beside them.
  obtain ⟨shader, d, p, h, hd, ⟨hparts, hsplit⟩, -, hshader⟩ :=
    @exists_of_ordered (.ofFiles []) "f" source
      (fun d p => (preamble d ⟨{ d with resources := p.resources }, p.constants.size, p.layout,
        ""⟩).parts = parts ∧ p.layout = some ⟨.split, 4, 128⟩) [a, b, c, t] (by decide +kernel)
  obtain ⟨d', description, parts', blanked, lookups, ranges, hd', hdescription, hranges,
    hpushes⟩ := pushesBuffer_ofSource h
  rw [hd] at hd'
  cases hd'
  obtain rfl : parts' = parts := by
    rw [hpushes.parts_eq, ← hparts, hshader]
    rfl
  obtain rfl : ranges = [⟨31, 0, 128⟩] := by
    have hlayout : description.layout = some ⟨.split, 4, 128⟩ := by
      rw [hpushes.layout, hshader, hsplit]
    rw [PipelineDescription.pushConstantRanges?, PipelineDescription.pushConstantsSize?,
      hlayout] at hranges
    exact (Option.some.inj hranges).symm
  exact ⟨shader, d, description, blanked, lookups, h, hd, hdescription, hranges, hpushes⟩

end Shader

end BindlessHlsl
