import BindlessHlsl.Proofs.LineStructure
import BindlessHlsl.Proofs.PreambleParts
import BindlessHlsl.Proofs.StructTexts
import Mathlib.Data.List.Induction

/-!
Where the structs of a root file are in the generated text (`Shader.PlacesStructs`). A struct behind
user constants is copied into the preamble, once and in the order of first use, and what is left of
it in the text is blank. Any other struct stays as it is. A copy is the only definition of its name
in the preamble exactly if no generated struct has that name.
-/

namespace BindlessHlsl

open Utf8 EditList

/-! ## The structs that are copied -/

/-- The structs behind user constants, by first use. -/
def Declarations.copied (d : Declarations) : List Struct :=
  ((d.backed d.resources).map Prod.snd).eraseDups

theorem Declarations.mem_copied {d : Declarations} {s : Struct} :
    s ∈ d.copied ↔ ∃ m ∈ d.backed d.resources, m.2 = s := by
  rw [copied, List.mem_eraseDups, List.mem_map]

theorem Declarations.copied_subset (d : Declarations) : d.copied ⊆ d.structs := by
  intro s hs
  obtain ⟨m, hm, rfl⟩ := mem_copied.1 hs
  exact mem_of_elementStruct? (mem_backed.1 hm).2.2

namespace UserConstants

variable {d : Declarations} {file : String} {u u' : UserConstants}

theorem structs_of_addField {r : Resource} {s : Struct} (h : u.addField file r s = .ok u') :
    u'.structs = if u.structs.contains s then u.structs else u.structs ++ [s] := by
  unfold addField at h
  split at h
  · cases h
  · simp only [Stop.bind_eq_ok, Stop.fitting_eq_ok] at h
    obtain ⟨size, -, total, -, h⟩ := h
    split at h <;> cases h
    rfl

/-- A struct is added behind the others unless it is there. -/
theorem eraseDups_concat (structs : List Struct) (s : Struct) :
    (structs ++ [s]).eraseDups = if structs.eraseDups.contains s then structs.eraseDups
      else structs.eraseDups ++ [s] := by
  rw [List.eraseDups_append]
  by_cases hs : s ∈ structs <;> simp [List.removeAll, hs, List.mem_eraseDups, List.eraseDups_cons]

theorem nodup_eraseDups (structs : List Struct) : structs.eraseDups.Nodup := by
  induction structs using List.reverseRecOn with
  | nil => exact List.nodup_nil
  | append_singleton structs s ih =>
    rw [eraseDups_concat]
    split
    · exact ih
    next hs =>
      refine List.nodup_append.2 ⟨ih, List.pairwise_singleton _ _, ?_⟩
      rintro a ha _ hb rfl
      rw [List.mem_singleton.1 hb] at ha
      exact hs (List.contains_iff_mem.2 ha)

theorem structs_of_foldlM {resources : List Resource} {structs : List Struct}
    (hu : u.structs = structs.eraseDups)
    (h : resources.foldlM (UserConstants.add d file) u = .ok u') :
    u'.structs = (structs ++ resources.filterMap d.elementStruct?).eraseDups := by
  induction resources generalizing structs u with
  | nil =>
    cases h
    simpa using hu
  | cons r rest ih =>
    rw [List.foldlM_cons, Stop.bind_eq_ok] at h
    obtain ⟨u₁, h₁, h⟩ := h
    rw [List.filterMap_cons]
    unfold UserConstants.add at h₁
    cases hs : d.elementStruct? r with
    | none =>
      rw [hs] at h₁
      cases h₁
      exact ih hu h
    | some s =>
      rw [hs] at h₁
      have hadd : u₁.structs = (structs ++ [s]).eraseDups := by
        rw [structs_of_addField h₁, hu, eraseDups_concat]
      rw [ih hadd h, List.append_assoc]
      rfl

theorem structs_eq_copied (h : ofDeclarations file d = .ok u) : u.structs = d.copied := by
  have hstructs : u.structs =
      ((d.resources.filter Resource.isConstants).filterMap d.elementStruct?).eraseDups :=
    structs_of_foldlM List.eraseDups_nil.symm h
  rw [hstructs, Declarations.copied, Declarations.backed, List.map_filterMap]
  simp [Function.comp_def]

end UserConstants

/-! ## The structs of a preamble -/

namespace Preamble

/-- A struct that is copied, with the declarations of its members. -/
def Part.copy? : Part → Option (String × List String)
  | copy name members => some (name, members)
  | _ => none

/-- The name of the struct that a declaration defines. -/
def Part.defined? : Part → Option String
  | copy name _ => some name
  | struct name _ => some name
  | _ => none

def Part.abbreviation? : Part → Option (String × String)
  | abbreviation name value => some (name, value)
  | _ => none

variable {p : Preamble}

theorem copies_parts : p.parts.filterMap Part.copy? =
    p.constants.structs.map fun s => (s.name, s.members.map Member.declaration) := by
  have hcopied : p.copiedParts.filterMap Part.copy? =
      p.constants.structs.map fun s => (s.name, s.members.map Member.declaration) := by
    simp [copiedParts, List.filterMap_map, Function.comp_def, Part.copy?]
  have hblock : p.blockParts.filterMap Part.copy? = [] := by
    simp only [blockParts, constantsParts, tableParts, constantsBufferParts]
    split <;> split <;> split <;> rfl
  have hrest : (p.aliasParts ++ p.samplerParts).filterMap Part.copy? = [] := by
    simp [aliasParts, samplerParts, Part.copy?]
  rw [parts, List.append_assoc, List.filterMap_append, List.filterMap_append, hcopied, hblock,
    hrest]
  simp

/-- The generated structs of a preamble. -/
def generated (p : Preamble) : List (String × List Field) :=
  (if p.constants.fields = [] then [] else [("__USER_CONSTANTS_GENERATED", p.constantsFields)]) ++
    if p.layout = none then []
    else [("__BINDLESS_GENERATED", p.embeddedFields ++ p.slotFields)]

/-- A preamble starts with its structs. -/
theorem exists_parts_eq_structs (p : Preamble) : ∃ others, p.parts =
    p.copiedParts ++ (p.generated.map (fun g => .struct g.1 g.2) ++ others) ∧
      others.filterMap Part.defined? = [] := by
  have hblock : ∃ others,
      p.blockParts = p.generated.map (fun g => .struct g.1 g.2) ++ others ∧
        others.filterMap Part.defined? = [] := by
    simp only [blockParts, constantsParts, tableParts, constantsBufferParts, generated,
      List.isEmpty_iff, Option.isNone_iff_eq_none]
    split <;> split <;> split <;> exact ⟨_, rfl, rfl⟩
  obtain ⟨others, hothers, hnone⟩ := hblock
  refine ⟨others ++ p.aliasParts ++ p.samplerParts, ?_, ?_⟩
  · rw [parts, hothers]
    simp only [List.append_assoc]
  · simp [hnone, aliasParts, samplerParts, Part.defined?]

theorem defined_parts : p.parts.filterMap Part.defined? =
    p.constants.structs.map Struct.name ++ p.generated.map Prod.fst := by
  obtain ⟨others, hparts, hnone⟩ := p.exists_parts_eq_structs
  rw [hparts, List.filterMap_append, List.filterMap_append, hnone, copiedParts]
  simp [List.filterMap_map, Function.comp_def, Part.defined?]

theorem constantsFields_parts :
    p.parts.filterMap (Part.fields? "__USER_CONSTANTS_GENERATED") =
      if p.constants.fields = [] then [] else [p.constantsFields] := by
  rw [filterMap_parts (fun _ _ => rfl) (fun _ _ => rfl) (fun _ _ => rfl)]
  simp only [blockParts, constantsParts, tableParts, constantsBufferParts, List.isEmpty_iff]
  split <;> split <;> split <;> rfl

theorem abbreviations_parts : p.parts.filterMap Part.abbreviation? =
    p.constants.fields.map fun f => (f.name,
      (if p.isCombined then "__BINDLESS_CB.USER_ConstantsData" else "__USER_CONSTANTS_CB") ++
        ".USER_" ++ f.name) := by
  have hcopied : p.copiedParts.filterMap Part.abbreviation? = [] := by
    simp [copiedParts, Part.abbreviation?]
  have hblock : p.blockParts.filterMap Part.abbreviation? = [] := by
    simp only [blockParts, constantsParts, tableParts, constantsBufferParts]
    split <;> split <;> split <;> rfl
  have hsamplers : p.samplerParts.filterMap Part.abbreviation? = [] := by
    simp [samplerParts, Part.abbreviation?]
  rw [parts, List.filterMap_append, List.filterMap_append, List.filterMap_append, hcopied, hblock,
    hsamplers, List.append_nil, aliasParts, List.filterMap_map]
  simp [Function.comp_def, Part.abbreviation?]

end Preamble

/-! ## The texts of structs -/

/-- A range divides a text in what is in front of it, what it covers and what is behind it. -/
structure ByteRange.Divides (r : ByteRange) (text front mid back : List Char) : Prop where
  text_eq : text = front ++ (mid ++ back)
  start_eq : r.start = charsLength front
  stop_eq : r.stop = charsLength front + charsLength mid

theorem ByteRange.Divides.start_add {r : ByteRange} {text front mid back : List Char}
    (h : r.Divides text front mid back) : r.start + charsLength mid = r.stop := by
  rw [h.start_eq, h.stop_eq]

theorem ByteRange.Divides.slice_eq {r : ByteRange} {text front mid back : List Char}
    (h : r.Divides text front mid back) : r.slice (encodeChars text) = encodeChars mid := by
  obtain ⟨start, stop⟩ := r
  obtain ⟨rfl, rfl, rfl⟩ := h
  exact slice_encodeChars front mid back

namespace EditList

variable {blanked : Nat → Bool} {insertions : List (Nat × String)}

theorem woven_of_divides {r : ByteRange} {text front mid back : List Char}
    (h : r.Divides text front mid back) :
    woven blanked insertions 0 text = woven blanked insertions 0 front ++
      (woven blanked insertions r.start mid ++ woven blanked insertions r.stop back) := by
  rw [h.text_eq, woven_append, woven_append, h.start_eq, h.stop_eq, Nat.zero_add]

/-- A stretch that is overwritten as a whole. -/
theorem woven_eq_flatMap {offset : Nat} {cs : List Char}
    (hb : ∀ place, offset ≤ place → place < offset + charsLength cs → blanked place = true)
    (ht : ∀ place, offset ≤ place → place < offset + charsLength cs →
      textAt insertions place = []) :
    woven blanked insertions offset cs = cs.flatMap overwritten := by
  have hcongr : woven blanked insertions offset cs = woven (fun _ => true) [] offset cs :=
    woven_congr fun place h₁ h₂ => ⟨hb place h₁ h₂, ht place h₁ h₂⟩
  rw [hcongr]
  clear hb ht hcongr
  induction cs generalizing offset with
  | nil => rfl
  | cons c cs ih => simp [woven, textAt, ih]

/-- A stretch that is left alone. -/
theorem woven_eq_self {offset : Nat} {cs : List Char}
    (hb : ∀ place, offset ≤ place → place < offset + charsLength cs → blanked place = false)
    (ht : ∀ place, offset ≤ place → place < offset + charsLength cs →
      textAt insertions place = []) :
    woven blanked insertions offset cs = cs := by
  have hcongr : woven blanked insertions offset cs = woven (fun _ => false) [] offset cs :=
    woven_congr fun place h₁ h₂ => ⟨hb place h₁ h₂, ht place h₁ h₂⟩
  rw [hcongr, woven_none]

theorem length_flatMap_overwritten (cs : List Char) :
    charsLength (cs.flatMap overwritten) = charsLength cs := by
  induction cs with
  | nil => rfl
  | cons c cs ih =>
    rw [List.flatMap_cons, charsLength_append, length_overwritten, ih, charsLength_cons]

theorem mem_flatMap_overwritten {cs : List Char} {c : Char} (h : c ∈ cs.flatMap overwritten) :
    c = ' ' ∨ IsControlChar c := by
  obtain ⟨x, -, hc⟩ := List.mem_flatMap.1 h
  unfold overwritten at hc
  split at hc
  next hx =>
    obtain rfl := List.mem_singleton.1 hc
    exact .inr hx
  next => exact .inl (List.eq_of_mem_replicate hc)

end EditList

namespace Shader

variable {includes : Includes} {file source : String} {d : Declarations} {s : Struct}
  {r : ByteRange}

theorem exists_divides (hd : Declarations.ofRoot includes file source = .ok d)
    (hs : s ∈ d.structs) (hr : s.range = some r) :
    ∃ front mid back, r.Divides source.toList front mid back ∧ s.Written (encodeChars mid) := by
  obtain ⟨definition, place, hi⟩ := Declarations.struct_range_mem hd hs hr
  have hlies := Declarations.lies_of_item hd hi rfl
  have hwritten := Declarations.written_of_mem hd hs hr
  obtain ⟨start, stop⟩ := r
  obtain ⟨front, mid, back, htext, rfl, rfl⟩ :=
    exists_parts hlies.start_boundary hlies.stop_boundary hlies.start_le
  refine ⟨front, mid, back, ⟨htext, rfl, rfl⟩, ?_⟩
  rwa [encode_eq_encodeChars, htext, ByteRange.slice_encodeChars] at hwritten

/-- No lookups are put into a struct or right behind it. -/
theorem textAt_struct (hd : Declarations.ofRoot includes file source = .ok d)
    (hs : s ∈ d.structs) (hr : s.range = some r) (resources : List Resource) {place : Nat}
    (h₁ : r.start ≤ place) (h₂ : place ≤ r.stop) :
    textAt (d.functions.filterMap (lookupInsertion resources (encode source))) place = [] := by
  refine textAt_eq_nil fun i hi => ?_
  obtain ⟨name, body, hbody, rfl, -, -, -⟩ := lookup_place_of_mem hd hi
  obtain ⟨definition, at', hstruct⟩ := Declarations.struct_range_mem hd hs hr
  have hapart := (Declarations.run_of_ofRoot hd).body_apart (Cursor.within_ofText source) hstruct
    hbody nofun rfl
  have hlies := (Declarations.lies_of_item hd hbody rfl).start_le
  dsimp only
  omega

/-- A struct is overwritten as a whole if it is among those that are blanked. -/
theorem consumed_of_mem {items : List Item} {structs : List Struct} (hs : s ∈ structs)
    (hr : s.range = some r) {place : Nat} (h₁ : r.start ≤ place) (h₂ : place < r.stop) :
    consumed items structs place = true := by
  have hc : r.contains place = true := ByteRange.contains_iff.2 ⟨h₁, h₂⟩
  refine Bool.or_eq_true_iff.2 (.inr (List.any_eq_true.2 ⟨r, ?_, hc⟩))
  exact List.mem_filterMap.2 ⟨s, hs, hr⟩

/-- Nothing of a struct is overwritten unless it is among those that are blanked. -/
theorem not_consumed_of_not_mem (hd : Declarations.ofRoot includes file source = .ok d)
    {structs : List Struct} (hstructs : structs ⊆ d.structs) (hs : s ∈ d.structs)
    (hn : s ∉ structs) (hr : s.range = some r) {place : Nat} (h₁ : r.start ≤ place)
    (h₂ : place < r.stop) : consumed (Outline.ofText source).items structs place = false := by
  refine Bool.eq_false_iff.2 fun hc => ?_
  rcases Bool.or_eq_true_iff.1 hc with hc | hc
  · obtain ⟨range, hm, hc⟩ := List.any_eq_true.1 hc
    obtain ⟨item, hi, hrange⟩ := List.mem_filterMap.1 hm
    obtain ⟨definition, at', hstruct⟩ := Declarations.struct_range_mem hd hs hr
    have hne : item ≠ .struct definition at' r := by
      rintro rfl
      cases hrange
    have hdisjoint := (Declarations.run_of_ofRoot hd).disjoint (Cursor.within_ofText source) hi
      hstruct hne (Item.range?_of_blanked? hrange) rfl
    have := ByteRange.contains_iff.1 hc
    omega
  · obtain ⟨range, hm, hc⟩ := List.any_eq_true.1 hc
    obtain ⟨t, ht, hrange⟩ := List.mem_filterMap.1 hm
    have hne : t ≠ s := fun he => hn (he ▸ ht)
    have hdisjoint := Declarations.structs_disjoint hd (hstructs ht) hs hne hrange hr
    have := ByteRange.contains_iff.1 hc
    omega

/-- The text of a struct in the root file, and what stands in its place in the edited text. -/
def Becomes (source : String) (blanked : Nat → Bool) (lookups : List (Nat × String)) (s : Struct)
    (text after : List Char) : Prop :=
  ∃ r front back, s.range = some r ∧ r.Divides source.toList front text back ∧
    s.Written (encodeChars text) ∧
    woven blanked lookups 0 source.toList =
      woven blanked lookups 0 front ++ (after ++ woven blanked lookups r.stop back)

theorem becomes_of_woven {blanked : Nat → Bool} {lookups : List (Nat × String)}
    {front text back after : List Char} (hr : s.range = some r)
    (hdivides : r.Divides source.toList front text back) (hwritten : s.Written (encodeChars text))
    (h : woven blanked lookups r.start text = after) :
    Becomes source blanked lookups s text after :=
  ⟨r, front, back, hr, hdivides, hwritten, by rw [woven_of_divides hdivides, h]⟩

theorem woven_struct_eq_flatMap (hd : Declarations.ofRoot includes file source = .ok d)
    (hs : s ∈ d.structs) (hr : s.range = some r) {structs : List Struct} (hm : s ∈ structs)
    (resources : List Resource) {front text back : List Char}
    (hdivides : r.Divides source.toList front text back) :
    woven (consumed (Outline.ofText source).items structs)
      (d.functions.filterMap (lookupInsertion resources (encode source))) r.start text =
        text.flatMap overwritten := by
  refine woven_eq_flatMap ?_ ?_
  · intro place h₁ h₂
    exact consumed_of_mem hm hr h₁ (hdivides.start_add ▸ h₂)
  · intro place h₁ h₂
    exact textAt_struct hd hs hr resources h₁ (hdivides.start_add ▸ Nat.le_of_lt h₂)

theorem woven_struct_eq_self (hd : Declarations.ofRoot includes file source = .ok d)
    (hs : s ∈ d.structs) (hr : s.range = some r) {structs : List Struct}
    (hstructs : structs ⊆ d.structs) (hn : s ∉ structs) (resources : List Resource)
    {front text back : List Char} (hdivides : r.Divides source.toList front text back) :
    woven (consumed (Outline.ofText source).items structs)
      (d.functions.filterMap (lookupInsertion resources (encode source))) r.start text = text := by
  refine woven_eq_self ?_ ?_
  · intro place h₁ h₂
    exact not_consumed_of_not_mem hd hstructs hs hn hr h₁ (hdivides.start_add ▸ h₂)
  · intro place h₁ h₂
    exact textAt_struct hd hs hr resources h₁ (hdivides.start_add ▸ Nat.le_of_lt h₂)

/-! ## Generated shaders -/

/-- A shader whose text is a preamble followed by the root file, and where the structs of the root
file are in it. -/
structure PlacesStructs (source : String) (d : Declarations) (shader : Shader)
    (parts : List Preamble.Part) (blanked : Nat → Bool) (lookups : List (Nat × String)) : Prop
    extends Prints source d shader parts blanked lookups where
  lookup_place : ∀ i ∈ lookups, ∃ name body,
    .function name body ∈ (Outline.ofText source).items ∧ i.1 = body.start
  names : (d.structs.map Struct.name).Nodup
  copies : parts.filterMap Preamble.Part.copy? =
    d.copied.map fun s => (s.name, s.members.map Member.declaration)
  once_iff : ∀ s ∈ d.copied, (parts.filterMap Preamble.Part.defined?).count s.name = 1 ↔
    s.name ≠ "__USER_CONSTANTS_GENERATED" ∧ s.name ≠ "__BINDLESS_GENERATED"
  moved : ∀ s ∈ d.copied, ∃ text after, Becomes source blanked lookups s text after ∧
    charsLength after = charsLength text ∧ ∀ c ∈ after, c = ' ' ∨ IsControlChar c
  kept : ∀ s ∈ d.structs, s ∉ d.copied → s.range.isSome →
    ∃ text, Becomes source blanked lookups s text text
  not_copied : ∀ s ∈ d.structs, s ∉ d.copied →
    s.name ∉ (parts.filterMap Preamble.Part.copy?).map Prod.fst
  fields : parts.filterMap (Preamble.Part.fields? "__USER_CONSTANTS_GENERATED") =
    if d.backed d.resources = [] then []
    else [(d.backed d.resources).map fun m => .constants m.2.name m.1.name]
  abbreviations : parts.filterMap Preamble.Part.abbreviation? =
    (d.backed d.resources).map fun m => (m.1.name,
      (if ConstantsLayout.isCombined shader.layout then "__BINDLESS_CB.USER_ConstantsData"
        else "__USER_CONSTANTS_CB") ++ ".USER_" ++ m.1.name)

theorem nodup_names_copied (hd : Declarations.ofRoot includes file source = .ok d) :
    (d.copied.map Struct.name).Nodup :=
  (UserConstants.nodup_eraseDups _).map_on fun _ hs _ ht hname =>
    Declarations.eq_of_name hd (d.copied_subset hs) (d.copied_subset ht) hname

/-- The structs that a preamble defines. -/
theorem defined_eq {p : Preamble} (hc : UserConstants.ofDeclarations file d = .ok p.constants)
    (hres : p.resources = Resource.table d.resources)
    (hl : ConstantsLayout.ofResources p.resources p.constants.size = .ok p.layout)
    (hne : d.backed d.resources ≠ []) :
    p.parts.filterMap Preamble.Part.defined? = d.copied.map Struct.name ++
      ["__USER_CONSTANTS_GENERATED", "__BINDLESS_GENERATED"] := by
  have hfields : p.constants.fields ≠ [] := by
    simpa [(UserConstants.collects_of_ofDeclarations hc).fields] using hne
  have hlayout : p.layout ≠ none := by
    intro hnone
    have hnil := (ConstantsLayout.lays_of_ofResources hl).none_iff.1 hnone
    have hresources : d.resources = [] := by
      rw [← List.length_eq_zero_iff, ← Resource.length_table, ← hres, hnil, List.length_nil]
    exact hne (by rw [hresources]; rfl)
  rw [Preamble.defined_parts, UserConstants.structs_eq_copied hc, Preamble.generated,
    if_neg hfields, if_neg hlayout]
  rfl

theorem placesStructs_ofSource {shader : Shader} (h : ofSource includes file source = .ok shader) :
    ∃ d parts blanked lookups, Declarations.ofRoot includes file source = .ok d ∧
      PlacesStructs source d shader parts blanked lookups := by
  obtain ⟨d, hd, hgen⟩ := ofSource_eq_ok h
  obtain ⟨p, hc, hres, -, hl, ho, hshader⟩ := generate_eq_ok hgen
  have hcollects := UserConstants.collects_of_ofDeclarations hc
  have hstructs := UserConstants.structs_eq_copied hc
  have hcopies : p.parts.filterMap Preamble.Part.copy? =
      d.copied.map fun s => (s.name, s.members.map Member.declaration) := by
    rw [Preamble.copies_parts, hstructs]
  refine ⟨d, p.parts, consumed (Outline.ofText source).items p.constants.structs,
    d.functions.filterMap (lookupInsertion p.resources (encode source)), hd, ?_⟩
  exact {
    toPrints := prints_of_generate hd hc hres hl ho (by rw [hshader])
    lookup_place := fun i hi => by
      obtain ⟨name, body, hm, rfl, -⟩ := lookup_place_of_mem hd hi
      exact ⟨name, body, hm, rfl⟩
    names := Declarations.nodup_structs hd
    copies := hcopies
    once_iff := fun s hs => by
      obtain ⟨m, hm, rfl⟩ := Declarations.mem_copied.1 hs
      rw [defined_eq hc hres hl (List.ne_nil_of_mem hm), List.count_append,
        List.count_eq_one_of_mem (nodup_names_copied hd) (List.mem_map_of_mem hs),
        Nat.add_eq_left, List.count_eq_zero]
      simp
    moved := fun s hs => by
      obtain ⟨m, hm, rfl⟩ := Declarations.mem_copied.1 hs
      obtain ⟨r, hr⟩ := Option.isSome_iff_exists.1 (hcollects.inRoot m hm)
      obtain ⟨front, text, back, hdivides, hwritten⟩ := exists_divides hd (d.copied_subset hs) hr
      have hwoven := woven_struct_eq_flatMap hd (d.copied_subset hs) hr (hstructs ▸ hs)
        p.resources hdivides
      exact ⟨text, _, becomes_of_woven hr hdivides hwritten hwoven, length_flatMap_overwritten text,
        fun c => mem_flatMap_overwritten⟩
    kept := fun s hs hn hsome => by
      obtain ⟨r, hr⟩ := Option.isSome_iff_exists.1 hsome
      obtain ⟨front, text, back, hdivides, hwritten⟩ := exists_divides hd hs hr
      exact ⟨text, becomes_of_woven hr hdivides hwritten (woven_struct_eq_self hd hs hr
        (UserConstants.structs_subset hc) (hstructs ▸ hn) p.resources hdivides)⟩
    not_copied := fun s hs hn => by
      rw [hcopies, List.map_map]
      intro hm
      obtain ⟨t, ht, hname⟩ := List.mem_map.1 hm
      exact hn (Declarations.eq_of_name hd (d.copied_subset ht) hs hname ▸ ht)
    fields := by
      rw [Preamble.constantsFields_parts, Preamble.constantsFields, hcollects.fields, List.map_map]
      exact ite_congr (propext List.map_eq_nil_iff) (fun _ => rfl) fun _ => rfl
    abbreviations := by
      rw [Preamble.abbreviations_parts, hcollects.fields, List.map_map, hshader]
      rfl }

theorem exists_placesStructs :
    let source := "[constants] ConstantBuffer<B> x;\nstruct A \x7b float a; \x7d;\n" ++
      "struct B \x7b float4 b; float c : C; \x7d;\n[constants] ConstantBuffer<B> y;\n" ++
      "struct C \x7b float2 d; \x7d;\n[constants] ConstantBuffer<C> z;\n" ++
      "[constants] ConstantBuffer<D> w;\n"
    ∃ shader d parts blanked lookups, ofSource (.ofFiles []) "f" source = .ok shader ∧
      Declarations.ofRoot (.ofFiles []) "f" source = .ok d ∧
      PlacesStructs source d shader parts blanked lookups ∧
      parts.filterMap Preamble.Part.copy? =
        [("B", ["float4 b", "float c : C"]), ("C", ["float2 d"])] ∧
      (parts.filterMap Preamble.Part.defined?).count "B" = 1 ∧
      (parts.filterMap Preamble.Part.abbreviation?).map Prod.fst = ["x", "y", "z"] := by
  intro source
  have hplan : planned (.ofFiles []) "f" source = .ok (some ⟨.combined, 0, 48⟩) := by
    decide +kernel
  have hcopied : ∃ d ∈ (Declarations.ofRoot (.ofFiles []) "f" source).toOption,
      (d.copied.map fun s => (s.name, s.members.map Member.declaration)) =
        [("B", ["float4 b", "float c : C"]), ("C", ["float2 d"])] ∧
      ∃ s ∈ d.copied, s.name = "B" ∧
      (d.backed d.resources).map (fun m => m.1.name) = ["x", "y", "z"] := by
    decide +kernel
  obtain ⟨shader, h⟩ := exists_ofSource hplan
  obtain ⟨d, parts, blanked, lookups, hd, hplaces⟩ := placesStructs_ofSource h
  obtain ⟨_, hd', hcopies, s, hs, hname, hnames⟩ := hcopied
  rw [hd] at hd'
  cases hd'
  have honce := (hplaces.once_iff s hs).2 (by rw [hname]; decide)
  refine ⟨shader, d, parts, blanked, lookups, h, hd, hplaces, hplaces.copies.trans hcopies,
    hname ▸ honce, ?_⟩
  rw [hplaces.abbreviations, List.map_map]
  exact hnames

/-- A shader that names the struct behind its user constants like the generated index table, so that
its preamble defines that name twice. -/
theorem defined_twice :
    let source := "struct __BINDLESS_GENERATED \x7b float a; \x7d;\n" ++
      "[constants] ConstantBuffer<__BINDLESS_GENERATED> c;\n"
    let output := "struct __BINDLESS_GENERATED\n\x7b\n    float a;\n\x7d;\n" ++
      "struct __USER_CONSTANTS_GENERATED\n\x7b\n    __BINDLESS_GENERATED USER_c;\n\x7d;\n" ++
      "struct __BINDLESS_GENERATED\n\x7b\n" ++
      "    __USER_CONSTANTS_GENERATED USER_ConstantsData;\n\x7d;\n" ++
      "#ifdef __spirv__\n[[vk::push_constant]]\n#endif\n" ++
      "ConstantBuffer<__BINDLESS_GENERATED> __BINDLESS_CB : register(b0);\n" ++
      "#define c __BINDLESS_CB.USER_ConstantsData.USER_c\n#line 1\n" ++
      "                                         \n" ++
      "                                                   \n"
    ∃ shader, ofSource (.ofFiles []) "f.hlsl" source = .ok shader ∧ shader.output = output := by
  intro source output
  let r : Resource :=
    ⟨.constantBuffer, some "__BINDLESS_GENERATED", "c", .default, none, [.constants], ⟨2, 13⟩⟩
  exact @exists_output_of_ordered _ _ _ _ [r] (by decide +kernel)

end Shader

end BindlessHlsl
