import BindlessHlsl.Proofs.ConstantsBudget
import BindlessHlsl.Proofs.LineStructure
import BindlessHlsl.Proofs.Listing

/-!
Generated shaders do not depend on the order of their declarations. What is generated from a listing
is said in terms of its bind groups and of its table (`Listing.Generates`), and neither changes when
lines are exchanged (`Listing.table_eq_of_perm`, `Listing.placeAll_eq_of_perm`). Only the places of
the resources, and the text behind the preamble, tell one order from another.
-/

namespace BindlessHlsl

open Utf8

namespace BindGroup

instance : Std.Irrefl Precedes where
  irrefl g := by
    rintro ⟨hd, he | hlt⟩
    · exact hd he
    · exact List.lt_irrefl _ hlt

theorem Precedes.asymm {a b : BindGroup} (hab : a.Precedes b) : ¬b.Precedes a :=
  fun hba => Std.Irrefl.irrefl a (hab.trans hba)

end BindGroup

/-! ## Places do not matter -/

namespace Resource

theorem withSlots_map_unlocated (n : Nat) (resources : List Resource) :
    withSlots n (resources.map unlocated) = (withSlots n resources).map unlocated := by
  fun_induction withSlots n resources with
  | case1 => rfl
  | case2 n r rest hc ih =>
    have hc' : r.unlocated.isConstants = true := hc
    rw [List.map_cons, withSlots, if_pos hc', ih]
    rfl
  | case3 n r rest hc ih =>
    have hc' : ¬r.unlocated.isConstants = true := hc
    rw [List.map_cons, withSlots, if_neg hc', ih]
    rfl

theorem table_map_unlocated (resources : List Resource) :
    table (resources.map unlocated) = (table resources).map unlocated := by
  have hsorted : sorted (resources.map unlocated) = (sorted resources).map unlocated :=
    (List.map_mergeSort (f := unlocated) fun _ _ _ _ => rfl).symm
  rw [table, table, hsorted, withSlots_map_unlocated]

theorem slotted_map_unlocated (resources : List Resource) :
    slotted (resources.map unlocated) = (slotted resources).map unlocated :=
  List.filter_map

theorem InOrder.name_eq {a b : Resource} (hab : a.InOrder b) (hba : b.InOrder a) :
    a.name = b.name := by
  rcases hab with hlt | ⟨hgroup, hab⟩
  · rcases hba with hgt | ⟨hgroup, -⟩
    · exact absurd hgt hlt.asymm
    · exact absurd (hgroup ▸ hlt) (Std.Irrefl.irrefl _)
  · rcases hba with hgt | ⟨-, hba⟩
    · exact absurd (hgroup ▸ hgt) (Std.Irrefl.irrefl _)
    · exact encode_injective (List.le_antisymm hab hba)

/-- Resources with different names have one order. -/
theorem sorted_eq_of_perm {as bs : List Resource} (h : as.Perm bs) (hnames : (as.map name).Nodup) :
    sorted as = sorted bs := by
  have ha : (sorted as).Perm as := List.mergeSort_perm ..
  have hb : (sorted bs).Perm bs := List.mergeSort_perm ..
  refine List.Perm.eq_of_pairwise (fun r s hr hs hrs hsr => ?_) (pairwise_sorted as)
    (pairwise_sorted bs) (ha.trans (h.trans hb.symm))
  have hr : r ∈ as := ha.mem_iff.1 hr
  have hs : s ∈ as := h.mem_iff.2 (hb.mem_iff.1 hs)
  exact List.inj_on_of_nodup_map hnames hr hs (hrs.name_eq hsr)

end Resource

theorem ConstantsLayout.ofResources_map_unlocated (resources : List Resource) (size : UInt32) :
    ofResources (resources.map Resource.unlocated) size = ofResources resources size := by
  rw [ofResources, ofResources, Resource.slotted_map_unlocated, List.length_map, List.isEmpty_map]

theorem Preamble.text_map_unlocated (p : Preamble) :
    text { p with resources := p.resources.map Resource.unlocated } = p.text := by
  have hslots : (Resource.slotted (p.resources.map Resource.unlocated)).map slotLine =
      (Resource.slotted p.resources).map slotLine := by
    rw [Resource.slotted_map_unlocated, List.map_map]
    rfl
  have hempty : (p.resources.map Resource.unlocated).isEmpty = p.resources.isEmpty :=
    List.isEmpty_map
  have hlines : lines { p with resources := p.resources.map Resource.unlocated } = p.lines := by
    rw [lines, lines, tableLines, tableLines, hslots]
    rfl
  rw [text, text, hlines, hempty]

/-! ## The order of bind groups -/

namespace BindGroups

theorem pairwise_placeAll {s : BindGroups} {groups : List GroupLine}
    (hs : s.groups.Pairwise BindGroup.Precedes) (hnames : (groups.map GroupLine.group).Nodup)
    (hnew : ∀ g ∈ groups, g.group ∉ s.groups) :
    (s.placeAll groups).groups.Pairwise BindGroup.Precedes := by
  induction groups generalizing s with
  | nil => exact hs
  | cons g rest ih =>
    rw [List.map_cons, List.nodup_cons] at hnames
    obtain ⟨hg, hnew⟩ := List.forall_mem_cons.1 hnew
    refine ih (pairwise_place hg hs) hnames.2 fun g' hg' => ?_
    rw [mem_place]
    rintro (heq | hmem)
    · exact hnames.1 (heq ▸ List.mem_map_of_mem hg')
    · exact hnew g' hg' hmem

/-- Two orders in which groups are listed are one if they list the same groups. -/
theorem eq_of_pairwise {as bs : List BindGroup} (ha : as.Pairwise BindGroup.Precedes)
    (hb : bs.Pairwise BindGroup.Precedes) (h : ∀ g, g ∈ as ↔ g ∈ bs) : as = bs := by
  have hperm : as.Perm bs := (List.perm_ext_iff_of_nodup ha.nodup hb.nodup).2 h
  refine List.Perm.eq_of_pairwise (fun a b _ _ hab hba => ?_) ha hb hperm
  exact absurd hba hab.asymm

end BindGroups

/-! ## What is generated from a listing -/

namespace Listing

open Declarations

variable {a b : Listing}

/-- The table of a listing, without places. -/
def table (l : Listing) : List Resource :=
  Resource.table (l.resources.map fun r => r.resource ⟨0, 0⟩)

/-- A shader with the table of a listing. Its text is the preamble for that table and as many bytes
as the listing has. -/
structure Generates (l : Listing) (shader : Shader) : Prop where
  resources : shader.resources.map Resource.unlocated = l.table
  groups : shader.groups = BindGroups.placeAll {} l.groups
  layout : ConstantsLayout.ofResources l.table 0 = .ok shader.layout
  output : ∃ rest, shader.output = Preamble.text ⟨{}, shader.layout, l.table, []⟩ ++ rest ∧
    Utf8.length rest = Utf8.length l.source

theorem isConstants_resource (r : ResourceLine) (place : Location) :
    (r.resource place).isConstants = false := by
  simp [Resource.isConstants, ResourceLine.resource]

/-- None of the resources of a listing is a user constant. -/
theorem filter_isConstants {l : Listing} {resources : List Resource}
    (h : resources.map Resource.unlocated = l.resources.map fun r => r.resource ⟨0, 0⟩) :
    resources.filter Resource.isConstants = [] := by
  apply List.filter_eq_nil_iff.2
  intro r hr
  have hmem : r.unlocated ∈ l.resources.map fun r => r.resource ⟨0, 0⟩ :=
    h ▸ List.mem_map_of_mem hr
  obtain ⟨line, -, hline⟩ := List.mem_map.1 hmem
  have hconstants : r.isConstants = r.unlocated.isConstants := rfl
  rw [hconstants, ← hline, isConstants_resource]
  exact Bool.false_ne_true

/-- What is generated from the resources of a listing. -/
theorem generates_of_generate {l : Listing} {includes : Includes} {file : String}
    {resources : List Resource} {shader : Shader}
    (hmap : resources.map Resource.unlocated = l.resources.map fun r => r.resource ⟨0, 0⟩)
    (hd : ofRoot includes file l.source =
      .ok { groups := BindGroups.placeAll {} l.groups, resources := resources })
    (hu : UserConstants.ofDeclarations file
      { groups := BindGroups.placeAll {} l.groups, resources := resources } = .ok {})
    (h : Shader.generate file l.source
      { groups := BindGroups.placeAll {} l.groups, resources := resources } = .ok shader) :
    l.Generates shader := by
  obtain ⟨⟨constants, layout, table', samplers⟩, hc, hresources, hsamplers, hl, ho, hshader⟩ :=
    Shader.generate_eq_ok h
  obtain rfl : {} = constants := Except.ok.inj (hu.symm.trans hc)
  obtain rfl : samplers = [] := hsamplers
  obtain rfl : table' = Resource.table resources := hresources
  have htable : (Resource.table resources).map Resource.unlocated = l.table := by
    rw [← Resource.table_map_unlocated, hmap]
    rfl
  have hlayout : shader.layout = layout := by rw [hshader]
  refine ⟨by rw [hshader]; exact htable, by rw [hshader], ?_, ?_⟩
  · rw [hlayout, ← htable, ConstantsLayout.ofResources_map_unlocated]
    exact hl
  · have htext := Preamble.text_map_unlocated ⟨{}, layout, Resource.table resources, []⟩
    dsimp only at htext
    rw [hlayout, ← htable, htext]
    refine ⟨_, Shader.output_eq hd ho, ?_⟩
    rw [length_eq_charsLength, String.toList_ofList, length_eq_charsLength]
    exact EditList.length_woven_nil ..

theorem exists_generates (l : Listing) (includes : Includes) (file : String) :
    ∃ shader, Shader.ofSource includes file l.source = .ok shader ∧ l.Generates shader := by
  obtain ⟨resources, hmap, hd⟩ := l.ofRoot_source includes file
  have hu : UserConstants.ofDeclarations file
      { groups := BindGroups.placeAll {} l.groups, resources := resources } = .ok {} := by
    rw [UserConstants.ofDeclarations, filter_isConstants hmap]
    rfl
  have hlength : resources.length = l.resources.length := by
    simpa using congrArg List.length hmap
  have hfew : 4 * (Resource.slotted resources).length + 0 < Word.bound := by
    have hle : (Resource.slotted resources).length ≤ resources.length := List.length_filter_le ..
    have hlt := l.few
    have hbound : Word.bound = 4 * 2 ^ 30 := rfl
    omega
  obtain ⟨shader, hs⟩ := Shader.exists_ofSource_of_constants hd hu hfew
  exact ⟨shader, hs, generates_of_generate hmap hd hu (Shader.ofSource_eq_generate hd ▸ hs)⟩

/-! ## Exchanging lines -/

theorem table_eq_of_perm (h : a.resources.Perm b.resources) : a.table = b.table := by
  have hnames : ((a.resources.map fun r => r.resource ⟨0, 0⟩).map Resource.name).Nodup := by
    rw [List.map_map]
    exact a.names_nodup
  rw [table, table, Resource.table, Resource.table, Resource.sorted_eq_of_perm (h.map _) hnames]

theorem placeAll_eq_of_perm (h : a.groups.Perm b.groups) :
    BindGroups.placeAll {} a.groups = BindGroups.placeAll {} b.groups := by
  have hdefault : (BindGroups.groups {}).Pairwise BindGroup.Precedes := List.pairwise_singleton ..
  have hmem : ∀ g, g ∈ (BindGroups.placeAll {} a.groups).groups ↔
      g ∈ (BindGroups.placeAll {} b.groups).groups := by
    intro g
    rw [BindGroups.mem_placeAll, BindGroups.mem_placeAll]
    simp only [h.mem_iff]
  exact congrArg BindGroups.mk (BindGroups.eq_of_pairwise
    (BindGroups.pairwise_placeAll hdefault a.nodup_group a.group_not_mem)
    (BindGroups.pairwise_placeAll hdefault b.nodup_group b.group_not_mem) hmem)

end Listing

/-- A listing is always accepted. In whatever order its bind groups and its resources are listed,
the table, the bind groups, the layout and the preamble are the same, byte by byte. -/
theorem Shader.ofSource_permuted {a b : Listing} (hgroups : a.groups.Perm b.groups)
    (hresources : a.resources.Perm b.resources) (includes : Includes) (file : String) :
    ∃ first second, ofSource includes file a.source = .ok first ∧
      ofSource includes file b.source = .ok second ∧
      first.resources.map Resource.unlocated = second.resources.map Resource.unlocated ∧
      first.groups = second.groups ∧ first.layout = second.layout ∧
      ∃ preamble front back, first.output = preamble ++ front ∧
        Utf8.length front = Utf8.length a.source ∧ second.output = preamble ++ back ∧
        Utf8.length back = Utf8.length b.source := by
  obtain ⟨first, hfirst, ha⟩ := a.exists_generates includes file
  obtain ⟨second, hsecond, hb⟩ := b.exists_generates includes file
  have htable := Listing.table_eq_of_perm hresources
  have hlayout : first.layout = second.layout := by
    have hl := ha.layout
    rw [htable, hb.layout] at hl
    exact (Except.ok.inj hl).symm
  obtain ⟨front, hfront, hlength⟩ := ha.output
  obtain ⟨back, hback, hlength'⟩ := hb.output
  rw [htable, hlayout] at hfront
  refine ⟨first, second, hfirst, hsecond, ?_, ?_, hlayout, _, front, back, hfront, hlength, hback,
    hlength'⟩
  · rw [ha.resources, hb.resources, htable]
  · rw [ha.groups, hb.groups, Listing.placeAll_eq_of_perm hgroups]

theorem Shader.exists_ofSource_permuted : ∃ a b : Listing,
    a.source = "#pragma bindgroup \"h\"\n#pragma bindgroup \"g\"\nStructuredBuffer<S> s;\n" ++
      "[bindgroup(Group=\"g\")] Texture2D t;\n" ∧
    b.source = "#pragma bindgroup \"g\"\n#pragma bindgroup \"h\"\n" ++
      "[bindgroup(Group=\"g\")] Texture2D t;\nStructuredBuffer<S> s;\n" ∧
    ∃ first second, ofSource (.ofFiles []) "f" a.source = .ok first ∧
      ofSource (.ofFiles []) "f" b.source = .ok second ∧
      first.resources.map Resource.unlocated = second.resources.map Resource.unlocated ∧
      first.groups = second.groups ∧ first.layout = second.layout ∧
      ∃ preamble front back, first.output = preamble ++ front ∧
        Utf8.length front = Utf8.length a.source ∧ second.output = preamble ++ back ∧
        Utf8.length back = Utf8.length b.source := by
  let g : GroupLine := ⟨"g", by simp [Quotable], by decide⟩
  let h : GroupLine := ⟨"h", by simp [Quotable], by decide⟩
  let s : ResourceLine := {
    kind := .structuredBuffer
    element := some "S"
    name := "s"
    group := none
    element_identifier := by
      rintro _ ⟨⟩
      decide +kernel
    name_identifier := by decide +kernel }
  let t : ResourceLine := {
    kind := .texture2D
    element := none
    name := "t"
    group := some g
    element_identifier := nofun
    name_identifier := by decide +kernel }
  let a : Listing := ⟨[h, g], [s, t], by decide, by decide, by simp [s, t], by decide⟩
  let b : Listing := ⟨[g, h], [t, s], by decide, by decide, by simp [s, t], by decide⟩
  exact ⟨a, b, by decide +kernel, by decide +kernel,
    ofSource_permuted (.swap ..) (.swap ..) (.ofFiles []) "f"⟩

end BindlessHlsl
