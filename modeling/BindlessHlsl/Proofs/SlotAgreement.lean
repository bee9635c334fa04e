import BindlessHlsl.Proofs.ConstantsOrder
import BindlessHlsl.Proofs.PreambleParts

/-!
The slots of a shader are listed in three places: as members of the index table in the generated
text, in the description of its pipeline, and in the lookups in front of function bodies. Registers
of samplers are listed in the text and in the description. All of them agree (`Shader.SlotsAgree`):
a number stands for the same resource, or the same sampler, wherever it is written.
-/

namespace BindlessHlsl

open Utf8 EditList

/-! ## What a preamble lists -/

namespace Preamble

variable {p : Preamble}

theorem filterMap_fields?_parts (h : p.Coherent) :
    p.parts.filterMap (Part.fields? "__BINDLESS_GENERATED") =
      if p.resources = [] then [] else [p.embeddedFields ++ p.slotFields] := by
  have hconstants : p.constantsParts.filterMap (Part.fields? "__BINDLESS_GENERATED") = [] := by
    unfold constantsParts
    split <;> rfl
  have hbuffer : p.constantsBufferParts.filterMap (Part.fields? "__BINDLESS_GENERATED") = [] := by
    unfold constantsBufferParts
    split <;> rfl
  rw [filterMap_parts (fun _ _ => rfl) (fun _ _ => rfl) fun _ _ => rfl, blockParts,
    List.filterMap_append, List.filterMap_append, hconstants, hbuffer, List.nil_append,
    List.append_nil]
  simp only [← h.layout_eq_none, tableParts]
  cases p.layout <;> rfl

/-- The samplers come last. -/
theorem exists_parts_eq : ∃ front, p.parts = front ++ p.samplerParts ∧
    front.filterMap Part.sampler? = [] := by
  refine ⟨_, rfl, ?_⟩
  have hconstants : p.constantsParts.filterMap Part.sampler? = [] := by
    unfold constantsParts
    split <;> rfl
  have htable : p.tableParts.filterMap Part.sampler? = [] := by
    unfold tableParts
    split <;> rfl
  have hbuffer : p.constantsBufferParts.filterMap Part.sampler? = [] := by
    unfold constantsBufferParts
    split <;> rfl
  simp [blockParts, List.filterMap_append, hconstants, htable, hbuffer, copiedParts, aliasParts,
    List.filterMap_eq_nil_iff, Part.sampler?]

theorem filterMap_slot?_fields : (p.embeddedFields ++ p.slotFields).filterMap Field.slot? =
    (Resource.slotted p.resources).map
      fun r => (r.name, r.group.name, (r.index.getD 0).toNat) := by
  have hembedded : p.embeddedFields.filterMap Field.slot? = [] := by
    unfold embeddedFields
    split <;> rfl
  rw [List.filterMap_append, hembedded, List.nil_append, slotFields, List.filterMap_map]
  exact congrFun List.filterMap_eq_map _

end Preamble

/-! ## Slots and their numbers -/

namespace Resource

variable {declared : List Resource} {i : Nat} {r : Resource}

theorem index_of_getElem? (hlt : (slotted (table declared)).length < Word.bound)
    (h : (slotted (table declared))[i]? = some r) : r.index.map UInt32.toNat = some i := by
  have hslots := congrArg (·[i]?) (slots_table hlt)
  simp only [List.getElem?_map, h, Option.map_some] at hslots
  obtain ⟨hi, _⟩ := List.getElem?_eq_some_iff.1 h
  rw [List.getElem?_range hi] at hslots
  exact Option.some.inj hslots

/-- The resource in a slot is the one that has the number of the slot. -/
theorem getElem?_slotted_table (hlt : (slotted (table declared)).length < Word.bound) :
    (slotted (table declared))[i]? = some r ↔
      r ∈ table declared ∧ r.index.map UInt32.toNat = some i := by
  constructor
  · intro h
    exact ⟨(List.mem_filter.1 (List.mem_of_getElem? h)).1, index_of_getElem? hlt h⟩
  · rintro ⟨hr, hi⟩
    have hc : r.isConstants = false := by
      refine Bool.eq_false_iff.2 fun hc => ?_
      rw [index_of_isConstants hr hc] at hi
      cases hi
    have hm : r ∈ slotted (table declared) := List.mem_filter.2 ⟨hr, by rw [hc]; rfl⟩
    obtain ⟨j, hj⟩ := List.getElem?_of_mem hm
    rw [index_of_getElem? hlt hj] at hi
    cases hi
    exact hj

theorem map_slotted_table (hlt : (slotted (table declared)).length < Word.bound) :
    (slotted (table declared)).map (fun r => (r.name, r.group.name, (r.index.getD 0).toNat)) =
      (slotted (table declared)).zipIdx.map fun (r, i) => (r.name, r.group.name, i) := by
  refine List.ext_getElem? fun i => ?_
  rw [List.getElem?_map, List.getElem?_map, List.getElem?_zipIdx, Nat.zero_add]
  cases hr : (slotted (table declared))[i]? with
  | none => rfl
  | some r =>
    obtain ⟨word, hword, hi⟩ := Option.map_eq_some_iff.1 (index_of_getElem? hlt hr)
    simp [hword, hi]

end Resource

/-- Samplers get the registers from zero on, in the order of their declaration. -/
theorem Declarations.Gathers.samplers_numbered {d d' : Declarations} {entries : List Entry}
    (h : Gathers d entries d')
    (hd : d.samplers.map Sampler.index = (List.range d.samplers.length).map Nat.toUInt32) :
    d'.samplers.map Sampler.index = (List.range d'.samplers.length).map Nat.toUInt32 := by
  induction h with
  | nil => exact hd
  | @cons d d₁ d₂ e rest ha _ ih =>
    apply ih
    generalize e.item = item at ha
    cases ha with
    | sampler =>
      simp only [addSampler, List.map_append, hd, List.length_append, List.length_singleton,
        List.range_succ]
      rfl
    | _ => exact hd

theorem PipelineDescription.eq_of_ofShader {file : String} {shader : Shader}
    {description : PipelineDescription} (h : ofShader file shader = .ok description) :
    description.resources = (Resource.slotted shader.resources).map .ofResource ∧
      description.samplers = shader.samplers ∧ description.layout = shader.layout := by
  rw [ofShader, Stop.bind_eq_ok] at h
  obtain ⟨_, _, h⟩ := h
  cases h
  exact ⟨rfl, rfl, rfl⟩

namespace Shader

theorem lookups_ne_of_lookupInsertion {resources : List Resource} {source : List UInt8}
    {f : Function} {i : Nat × String} (h : lookupInsertion resources source f = some i) :
    i.2 ≠ "" := by
  obtain ⟨body, _, h⟩ := Option.bind_eq_some_iff.1 h
  dsimp only at h
  split at h
  · cases h
  next hne =>
    cases h
    exact hne

theorem exists_named_of_lookups {resources : List Resource} {body : List UInt8}
    (h : lookups resources body ≠ "") :
    ∃ named, named ⊆ Resource.slotted resources ∧
      lookups resources body = " " ++ String.join (named.map lookupStatement) := by
  unfold lookups at h ⊢
  dsimp only at h ⊢
  split at h
  · exact absurd rfl h
  next hne =>
    rw [if_neg hne, funext lookup_eq_lookupStatement]
    exact ⟨_, fun r hr => (List.mem_filter.1 hr).1, rfl⟩

/-- A shader and its description with the same slots and registers. `parts` is what the preamble in
the text declares, `fields` the members of its index table, and `lookups` what is put in front of
function bodies. A register is a word, so that the numbers of samplers go round after the last. -/
structure SlotsAgree (declared : List Resource) (source : String) (d : Declarations)
    (shader : Shader) (description : PipelineDescription) (parts : List Preamble.Part)
    (fields : List Preamble.Field) (blanked : Nat → Bool) (lookups : List (Nat × String)) : Prop
    extends Prints source d shader parts blanked lookups where
  table : parts.filterMap (Preamble.Part.fields? "__BINDLESS_GENERATED") =
    if shader.resources = [] then [] else [fields]
  members : fields.filterMap Preamble.Field.slot? =
    (shader.resources.filter fun r => !r.isConstants).zipIdx.map
      fun (r, i) => (r.name, r.group.name, i)
  described : description.resources.map (fun s => (s.name, s.group, s.index.toNat)) =
    fields.filterMap Preamble.Field.slot?
  numbered : ∀ i r, (shader.resources.filter fun r => !r.isConstants)[i]? = some r ↔
    r ∈ shader.resources ∧ r.index.map UInt32.toNat = some i
  declared_perm :
    ((shader.resources.filter fun r => !r.isConstants).map Resource.unslotted).Perm
      (declared.filter fun r => !r.isConstants)
  looked_up : ∀ l ∈ lookups, ∃ name body, ∃ named : List Resource,
    .function name body ∈ (Outline.ofText source).items ∧
    l = (body.start, " " ++ String.join (named.map lookupStatement)) ∧
    ∀ r ∈ named, r ∈ shader.resources ∧ ∃ i : Nat,
      (fields.filterMap Preamble.Field.slot?)[i]? = some (r.name, r.group.name, i)
  samplers : ∃ front, front.filterMap Preamble.Part.sampler? = [] ∧ parts = front ++
    description.samplers.zipIdx.map fun (s, j) => .sampler s.name j.toUInt32
  registers : ∀ j s, description.samplers[j]? = some s →
    s.index = j.toUInt32 ∧ (j < Word.bound → s.index.toNat = j)

variable {includes : Includes} {file source : String} {d : Declarations} {shader : Shader}

/-- What is put in front of a body are statements for resources with slots. -/
theorem exists_named_of_mem (hd : Declarations.ofRoot includes file source = .ok d)
    {resources : List Resource} {l : Nat × String}
    (hl : l ∈ d.functions.filterMap (lookupInsertion resources (encode source))) :
    ∃ name body, ∃ named : List Resource,
      .function name body ∈ (Outline.ofText source).items ∧
      l = (body.start, " " ++ String.join (named.map lookupStatement)) ∧
      named ⊆ Resource.slotted resources := by
  obtain ⟨f, hf, hi⟩ := List.mem_filterMap.1 hl
  have hne := lookups_ne_of_lookupInsertion hi
  obtain ⟨body, hb, rfl⟩ := eq_of_lookupInsertion hi
  obtain ⟨named, hnamed, htext⟩ := exists_named_of_lookups hne
  exact ⟨f.name, body, named, Declarations.function_mem hd hf hb, by rw [htext], hnamed⟩

theorem register_of_getElem? (hd : Declarations.ofRoot includes file source = .ok d) {j : Nat}
    {s : Sampler} (h : d.samplers[j]? = some s) : s.index = j.toUInt32 := by
  have hnumbered := (Declarations.gathers_of_ofRoot hd).2.samplers_numbered rfl
  have hj := congrArg (·[j]?) hnumbered
  obtain ⟨hlt, _⟩ := List.getElem?_eq_some_iff.1 h
  simp only [List.getElem?_map, h, List.getElem?_range hlt, Option.map_some] at hj
  exact Option.some.inj hj

theorem samplerParts_eq (hd : Declarations.ofRoot includes file source = .ok d) {p : Preamble}
    (hp : p.samplers = d.samplers) :
    p.samplerParts = d.samplers.zipIdx.map fun (s, j) => .sampler s.name j.toUInt32 := by
  rw [Preamble.samplerParts, hp]
  refine List.ext_getElem? fun j => ?_
  rw [List.getElem?_map, List.getElem?_map, List.getElem?_zipIdx, Nat.zero_add]
  cases hs : d.samplers[j]? with
  | none => rfl
  | some s => simp [register_of_getElem? hd hs]

theorem slotsAgree_ofSource (h : ofSource includes file source = .ok shader) :
    ∃ d description parts fields blanked lookups,
      Declarations.ofRoot includes file source = .ok d ∧
      PipelineDescription.ofShader file shader = .ok description ∧
      SlotsAgree
        ((Expansion.ofRoot includes file source).entries.filterMap fun e => e.item.resource?)
        source d shader description parts fields blanked lookups := by
  obtain ⟨d, hd, hgen⟩ := ofSource_eq_ok h
  obtain ⟨p, hc, hres, hsamplers, hl, ho, hshader⟩ := generate_eq_ok hgen
  obtain ⟨description, hdescription, _⟩ := exists_description hd hgen
  obtain ⟨hresources, hdsamplers, _⟩ := PipelineDescription.eq_of_ofShader hdescription
  have hcoherent := Preamble.coherent_of_ofResources hc hres hl
  have hdeclared : d.resources =
      (Expansion.ofRoot includes file source).entries.filterMap fun e => e.item.resource? :=
    (Declarations.gathers_of_ofRoot hd).2.resources
  have hlt : (Resource.slotted (Resource.table d.resources)).length < Word.bound :=
    hres ▸ ConstantsLayout.length_slotted_lt hl
  have hr : shader.resources = Resource.table d.resources := by rw [hshader, hres]
  have hs : description.samplers = d.samplers := by rw [hdsamplers, hshader]
  have hfields : (p.embeddedFields ++ p.slotFields).filterMap Preamble.Field.slot? =
      (Resource.slotted shader.resources).zipIdx.map fun (r, i) => (r.name, r.group.name, i) := by
    rw [Preamble.filterMap_slot?_fields, hres, Resource.map_slotted_table hlt, hr]
  refine ⟨d, description, p.parts, p.embeddedFields ++ p.slotFields,
    consumed (Outline.ofText source).items p.constants.structs,
    d.functions.filterMap (lookupInsertion p.resources (encode source)), hd, hdescription, ?_⟩
  exact {
    toPrints := prints_of_generate hd hc hres hl ho (by rw [hshader])
    table := by rw [Preamble.filterMap_fields?_parts hcoherent, hr, hres]
    members := hfields
    described := by
      rw [Preamble.filterMap_slot?_fields, hresources, hr, hres, List.map_map]
      rfl
    numbered := fun i r => by
      rw [hr]
      exact Resource.getElem?_slotted_table hlt
    declared_perm := by
      rw [hr, ← hdeclared]
      refine (List.Perm.of_eq (Resource.slotted_map_unslotted _).symm).trans ?_
      exact (Resource.table_perm fun r hr => Declarations.index_eq_none hd hr).filter _
    looked_up := fun l hm => by
      obtain ⟨name, body, named, hi, rfl, hnamed⟩ := exists_named_of_mem hd hm
      refine ⟨name, body, named, hi, rfl, fun r hn => ?_⟩
      obtain ⟨i, hi⟩ := List.getElem?_of_mem (hnamed hn)
      refine ⟨hr ▸ hres ▸ (List.mem_filter.1 (hnamed hn)).1, i, ?_⟩
      rw [hfields, List.getElem?_map, List.getElem?_zipIdx, hr, ← hres, hi, Nat.zero_add]
      rfl
    samplers := by
      obtain ⟨front, hparts, hfront⟩ := @Preamble.exists_parts_eq p
      exact ⟨front, hfront, by rw [hparts, samplerParts_eq hd hsamplers, hs]⟩
    registers := fun j s hj => by
      have hword := register_of_getElem? hd (hs ▸ hj)
      refine ⟨hword, fun hlt => ?_⟩
      rw [hword]
      exact Nat.mod_eq_of_lt hlt }

theorem exists_slotsAgree :
    let includes := Includes.ofFiles
      [("i", "#pragma bindgroup \"a\"\n[bindgroup(Group=\"a\")] Texture2D q;\n" ++
        "SamplerState u : default;\n")]
    let source := "Texture2D z;\n#include \"i\"\nSamplerState s : default;\n" ++
      "struct S \x7b float x; \x7d;\n[constants] ConstantBuffer<S> c;\n" ++
      "float4 f() \x7b return z.Sample(s, c.x) + q.Sample(u, c.x); \x7d\n"
    ∃ shader d description parts fields blanked lookups,
      ofSource includes "f" source = .ok shader ∧
      Declarations.ofRoot includes "f" source = .ok d ∧
      PipelineDescription.ofShader "f" shader = .ok description ∧
      SlotsAgree
        ((Expansion.ofRoot includes "f" source).entries.filterMap fun e => e.item.resource?)
        source d shader description parts fields blanked lookups ∧
      (fields.filterMap Preamble.Field.slot?).length = 2 := by
  intro includes source
  have hplan : planned includes "f" source = .ok (some ⟨.combined, 8, 4⟩) := by decide +kernel
  have hcount : (((Expansion.ofRoot includes "f" source).entries.filterMap
      fun e => e.item.resource?).filter fun r => !r.isConstants).length = 2 := by decide +kernel
  obtain ⟨shader, h⟩ := exists_ofSource hplan
  obtain ⟨d, description, parts, fields, blanked, lookups, hd, hdescription, hagree⟩ :=
    slotsAgree_ofSource h
  refine ⟨shader, d, description, parts, fields, blanked, lookups, h, hd, hdescription, hagree, ?_⟩
  have hlength := hagree.declared_perm.length_eq
  rw [hcount, List.length_map] at hlength
  rw [hagree.members, List.length_map, List.length_zipIdx, hlength]

end Shader

end BindlessHlsl
