import BindlessHlsl.Proofs.Generation
import BindlessHlsl.Proofs.Utf8
import Mathlib.Data.List.Pairwise

/-!
The order of the index table. Bind groups and resources are compared by the bytes of their names,
with the default group in front. The resources of a generated shader are a table
(`Resource.IsTable`): the declared ones in that order, numbered from zero on without a gap.
-/

namespace BindlessHlsl

open Utf8

/-! ## The order of bind groups -/

namespace BindGroup

/-- The default group comes before all others, and those by the bytes of their names. -/
def Precedes (a b : BindGroup) : Prop :=
  b ≠ default ∧ (a = default ∨ encode a.name < encode b.name)

theorem isDefault_eq (g : BindGroup) : g.isDefault = decide (g = default) := by
  rw [Bool.eq_iff_iff]
  simp [isDefault]

theorem compare_name_eq_lt {s t : String} : Ord.compare s t = .lt ↔ encode s < encode t := by
  rw [encode_lt_encode]
  exact compareOfLessAndEq_eq_lt

theorem compare_eq_lt {a b : BindGroup} : a.compare b = .lt ↔ a.Precedes b := by
  unfold compare Precedes
  simp only [isDefault_eq]
  by_cases ha : a = default <;> by_cases hb : b = default <;> simp [ha, hb, compare_name_eq_lt]

theorem compare_eq_eq {a b : BindGroup} : a.compare b = .eq ↔ a = b := by
  unfold compare
  simp only [isDefault_eq]
  by_cases ha : a = default <;> by_cases hb : b = default
  · simp [ha, hb]
  · simp [ha, hb, eq_comm]
  · simp [ha, hb]
  · cases a
    cases b
    simp [ha, hb]

theorem Precedes.trans {a b c : BindGroup} (hab : a.Precedes b) (hbc : b.Precedes c) :
    a.Precedes c := by
  obtain ⟨hb, ha | hab⟩ := hab
  · exact ⟨hbc.1, .inl ha⟩
  · obtain ⟨hc, hb' | hbc⟩ := hbc
    · exact absurd hb' hb
    · exact ⟨hc, .inr (List.lt_trans hab hbc)⟩

theorem precedes_trichotomy (a b : BindGroup) : a.Precedes b ∨ a = b ∨ b.Precedes a := by
  by_cases ha : a = default <;> by_cases hb : b = default
  · exact .inr (.inl (ha.trans hb.symm))
  · exact .inl ⟨hb, .inl ha⟩
  · exact .inr (.inr ⟨ha, .inl hb⟩)
  · rcases Std.lt_trichotomy a.name b.name with h | h | h
    · exact .inl ⟨hb, .inr (encode_lt_encode.2 h)⟩
    · cases a
      cases b
      exact .inr (.inl (congrArg BindGroup.mk h))
    · exact .inr (.inr ⟨ha, .inr (encode_lt_encode.2 h)⟩)

end BindGroup

theorem BindGroups.pairwise_place {g : BindGroup} {groups : List BindGroup} (hn : g ∉ groups)
    (h : groups.Pairwise BindGroup.Precedes) : (place g groups).Pairwise BindGroup.Precedes := by
  fun_induction place g groups with
  | case1 => exact List.pairwise_singleton ..
  | case2 first rest hlt =>
    have hg : g.Precedes first := BindGroup.compare_eq_lt.1 (by simpa using hlt)
    refine List.pairwise_cons.2 ⟨List.forall_mem_cons.2 ⟨hg, fun x hx => ?_⟩, h⟩
    exact hg.trans ((List.pairwise_cons.1 h).1 x hx)
  | case3 first rest hlt ih =>
    obtain ⟨hne, hrest⟩ := not_or.1 (mt List.mem_cons.2 hn)
    obtain ⟨hfirst, h⟩ := List.pairwise_cons.1 h
    have hg : first.Precedes g := by
      rcases BindGroup.precedes_trichotomy g first with hp | he | hp
      · exact absurd (BindGroup.compare_eq_lt.2 hp) (by simpa using hlt)
      · exact absurd he hne
      · exact hp
    refine List.pairwise_cons.2 ⟨fun x hx => ?_, ih hrest h⟩
    rcases mem_place.1 hx with rfl | hx
    · exact hg
    · exact hfirst x hx

theorem Declarations.Gathers.groups_ordered {d d' : Declarations} {entries : List Entry}
    (h : Gathers d entries d') (hd : d.groups.groups.Pairwise BindGroup.Precedes) :
    d'.groups.groups.Pairwise BindGroup.Precedes := by
  induction h with
  | nil => exact hd
  | @cons d d₁ d₂ e rest ha _ ih =>
    refine ih ?_
    generalize e.item = item at ha
    cases ha with
    | bindGroup hi =>
      unfold BindGroups.insert? at hi
      split at hi
      · cases hi
      next hn =>
        cases hi
        exact BindGroups.pairwise_place (by simpa [BindGroups.contains] using hn) hd
    | _ => exact hd

/-! ## The order of resources -/

namespace Resource

/-- Resources come by bind group and then by the bytes of their names. -/
def InOrder (a b : Resource) : Prop :=
  a.group.Precedes b.group ∨ a.group = b.group ∧ encode a.name ≤ encode b.name

theorem isLE_compare {a b : Resource} : (a.compare b).isLE = true ↔ a.InOrder b := by
  have hn : (Ord.compare a.name b.name).isLE = true ↔ encode a.name ≤ encode b.name := by
    rw [encode_le_encode]
    exact isLE_compareOfLessAndEq String.le_antisymm String.not_le String.le_total
  rw [compare, Ordering.isLE_then_iff_or, BindGroup.compare_eq_lt, BindGroup.compare_eq_eq, hn]
  rfl

instance (a b : Resource) : Decidable (a.InOrder b) := decidable_of_iff _ isLE_compare

theorem InOrder.trans {a b c : Resource} (hab : a.InOrder b) (hbc : b.InOrder c) :
    a.InOrder c := by
  rcases hab with hab | ⟨hab, hnab⟩
  · rcases hbc with hbc | ⟨hbc, _⟩
    · exact .inl (hab.trans hbc)
    · exact .inl (hbc ▸ hab)
  · rcases hbc with hbc | ⟨hbc, hnbc⟩
    · exact .inl (hab ▸ hbc)
    · exact .inr ⟨hab.trans hbc, List.le_trans hnab hnbc⟩

theorem InOrder.total (a b : Resource) : a.InOrder b ∨ b.InOrder a := by
  rcases BindGroup.precedes_trichotomy a.group b.group with h | h | h
  · exact .inl (.inl h)
  · exact (List.le_total (encode a.name) (encode b.name)).imp (fun hn => .inr ⟨h, hn⟩)
      fun hn => .inr ⟨h.symm, hn⟩
  · exact .inr (.inl h)

theorem isLE_compare_trans (a b c : Resource) (hab : (a.compare b).isLE = true)
    (hbc : (b.compare c).isLE = true) : (a.compare c).isLE = true :=
  isLE_compare.2 ((isLE_compare.1 hab).trans (isLE_compare.1 hbc))

theorem isLE_compare_total (a b : Resource) :
    ((a.compare b).isLE || (b.compare a).isLE) = true := by
  rw [Bool.or_eq_true, isLE_compare, isLE_compare]
  exact InOrder.total a b

theorem pairwise_sorted (resources : List Resource) : (sorted resources).Pairwise InOrder :=
  (List.pairwise_mergeSort isLE_compare_trans isLE_compare_total resources).imp isLE_compare.1

/-! ## Slots -/

theorem unslotted_eq_self {r : Resource} (h : r.index = none) : r.unslotted = r := by
  cases r
  cases h
  rfl

theorem pairwise_inOrder_of_map_unslotted {as bs : List Resource}
    (h : as.map unslotted = bs.map unslotted) (hb : bs.Pairwise InOrder) : as.Pairwise InOrder := by
  have hmap : (bs.map unslotted).Pairwise InOrder := hb.map unslotted fun _ _ hab => hab
  rw [← h] at hmap
  exact (List.pairwise_map.1 hmap).imp fun hab => hab

theorem index_of_isConstants {n : Nat} {resources : List Resource} {r : Resource}
    (hr : r ∈ withSlots n resources) (hc : r.isConstants = true) : r.index = none := by
  fun_induction withSlots n resources with
  | case1 => cases hr
  | case2 n first rest _ ih =>
    rcases List.mem_cons.1 hr with rfl | hr
    · rfl
    · exact ih hr
  | case3 n first rest hf ih =>
    rcases List.mem_cons.1 hr with rfl | hr
    · exact absurd hc hf
    · exact ih hr

theorem slots_withSlots (n : Nat) (resources : List Resource) :
    (slotted (withSlots n resources)).map index =
      (List.range' n (slotted resources).length).map fun i => some i.toUInt32 := by
  fun_induction withSlots n resources with
  | case1 => rfl
  | case2 n r rest hc ih =>
    have hc' : isConstants { r with index := none } = true := hc
    simpa [slotted, hc, hc'] using ih
  | case3 n r rest hc ih =>
    have hc' : isConstants { r with index := some n.toUInt32 } = isConstants r := rfl
    simpa [slotted, hc, hc', List.range'_succ] using ih

end Resource

/-- Tables that can be laid out have few enough slots to number them. -/
theorem ConstantsLayout.length_slotted_lt {resources : List Resource} {size : UInt32}
    {layout : Option ConstantsLayout} (h : ofResources resources size = .ok layout) :
    (Resource.slotted resources).length < Word.bound := by
  rw [ofResources, Stop.bind_eq_ok] at h
  obtain ⟨count, hc, _⟩ := h
  rw [← Word.toNat_of_ofNat? (Stop.fitting_eq_ok.1 hc)]
  exact count.toNat_lt

/-- An index table of declared resources, for bind groups in the order in which they are listed. -/
structure Resource.IsTable (declared : List Resource) (groups : List BindGroup)
    (table : List Resource) : Prop where
  perm : (table.map unslotted).Perm declared
  ordered : table.Pairwise InOrder
  groups_ordered : groups.Pairwise BindGroup.Precedes
  default_mem : .default ∈ groups
  group_mem : ∀ r ∈ table, r.group ∈ groups
  slots : (table.filter fun r => !r.isConstants).map (fun r => r.index.map UInt32.toNat) =
    (List.range (table.filter fun r => !r.isConstants).length).map some
  constants : ∀ r ∈ table, r.isConstants = true → r.index = none

namespace Resource

/-- Slots are numbered from zero on without a gap. -/
theorem slots_table {declared : List Resource}
    (hlt : (slotted (table declared)).length < Word.bound) :
    (slotted (table declared)).map (fun r => r.index.map UInt32.toNat) =
      (List.range (slotted (table declared)).length).map some := by
  have hlen : (slotted (sorted declared)).length = (slotted (table declared)).length := by
    rw [length_slotted_table]
    exact ((List.mergeSort_perm ..).filter _).length_eq
  have hnumber : ∀ i ∈ List.range (slotted (table declared)).length,
      (some i.toUInt32).map UInt32.toNat = some i := by
    intro i hi
    have := List.mem_range.1 hi
    simp only [Option.map_some, Option.some.injEq]
    exact Nat.mod_eq_of_lt (by simpa [Word.bound] using Nat.lt_trans this hlt)
  calc
    _ = ((slotted (table declared)).map index).map (Option.map UInt32.toNat) := by
      rw [List.map_map]
      rfl
    _ = (List.range (slotted (table declared)).length).map
        fun i => (some i.toUInt32).map UInt32.toNat := by
      rw [table, slots_withSlots, ← table, hlen, List.map_map, ← List.range_eq_range']
      rfl
    _ = _ := List.map_congr_left hnumber

/-- A table holds the declared resources. -/
theorem table_perm {declared : List Resource} (h : ∀ r ∈ declared, r.index = none) :
    ((table declared).map unslotted).Perm declared := by
  have hid : declared.map unslotted = declared := by
    rw [List.map_congr_left fun r hr => unslotted_eq_self (h r hr), List.map_id']
  rw [table, map_unslotted_withSlots]
  exact ((List.mergeSort_perm ..).map unslotted).trans (.of_eq hid)

/-- Putting resources in table order gives a table if their slots can be numbered. -/
theorem isTable_table {declared : List Resource} {groups : List BindGroup}
    (hindex : ∀ r ∈ declared, r.index = none) (hg : groups.Pairwise BindGroup.Precedes)
    (hdefault : .default ∈ groups) (hmem : ∀ r ∈ declared, r.group ∈ groups)
    (hlt : (slotted (table declared)).length < Word.bound) :
    IsTable declared groups (table declared) := by
  have hmap := map_unslotted_withSlots 0 (sorted declared)
  have hperm := table_perm hindex
  exact {
    perm := hperm
    ordered := pairwise_inOrder_of_map_unslotted hmap (pairwise_sorted declared)
    groups_ordered := hg
    default_mem := hdefault
    group_mem := fun r hr => hmem (unslotted r) (hperm.mem_iff.1 (List.mem_map_of_mem hr))
    slots := slots_table hlt
    constants := fun r hr hc => index_of_isConstants hr hc }

/-- Resources that no other order sorts have one table. -/
theorem table_eq_withSlots {declared ordered : List Resource} (hp : declared.Perm ordered)
    (h : ordered.Pairwise fun a b => ¬b.InOrder a) : table declared = withSlots 0 ordered := by
  have hsorted : ordered.Pairwise InOrder := h.imp fun hn => (InOrder.total _ _).resolve_right hn
  have hsymm : Std.Symm fun a b : Resource => a.InOrder b → b.InOrder a → a = b :=
    ⟨fun _ _ hab hle hge => (hab hge hle).symm⟩
  have hunique : ∀ ⦃a⦄, a ∈ ordered → ∀ ⦃b⦄, b ∈ ordered → a.InOrder b → b.InOrder a → a = b :=
    List.Pairwise.forall_of_forall (fun _ _ _ _ => rfl) (h.imp fun hn _ hge => absurd hge hn)
  have hperm : (sorted declared).Perm ordered := (List.mergeSort_perm ..).trans hp
  have heq : sorted declared = ordered :=
    hperm.eq_of_pairwise (fun a b ha hb => hunique (hperm.mem_iff.1 ha) hb)
      (pairwise_sorted declared) hsorted
  rw [table, heq]

end Resource

/-- What can be computed of the shader of a text. Sorting is left out of the computation: it is
enough to know what it comes to. -/
theorem Shader.exists_of_ordered {includes : Includes} {file source : String}
    {P : Declarations → Preamble → Prop} {ordered : List Resource}
    (h : ∃ d ∈ (Declarations.ofRoot includes file source).toOption,
      d.resources.Perm ordered ∧ ordered.Pairwise (fun a b => ¬b.InOrder a) ∧
      ∃ u ∈ (UserConstants.ofDeclarations file d).toOption,
      ∃ layout ∈ (ConstantsLayout.ofResources (Resource.withSlots 0 ordered) u.size).toOption,
        P d ⟨u, layout, Resource.withSlots 0 ordered, d.samplers⟩) :
    ∃ shader d p, ofSource includes file source = .ok shader ∧
      Declarations.ofRoot includes file source = .ok d ∧ P d p ∧
      (p.edits source d.functions).edited? source = some shader.output ∧
      shader = {
        d with
        resources := p.resources
        functions := d.functions.map (moveFunction (p.edits source d.functions))
        structs := d.structs.map (moveStruct (p.edits source d.functions))
        constantsSize := p.constants.size
        layout := p.layout
        output := shader.output } := by
  obtain ⟨d, hd, hperm, hordered, u, hu, layout, hl, hp⟩ := h
  have hd := eq_ok_of_mem_toOption hd
  have hu := eq_ok_of_mem_toOption hu
  have hl := eq_ok_of_mem_toOption hl
  have htable := Resource.table_eq_withSlots hperm hordered
  have hplan : planned includes file source = .ok layout := by
    rw [← htable, ConstantsLayout.ofResources_table] at hl
    rw [planned, Stop.mapError_eq_ok.2 hd]
    simp only [bind, Except.bind, hu, hl]
  obtain ⟨shader, hshader⟩ := exists_ofSource hplan
  obtain ⟨d', hd', hgen⟩ := ofSource_eq_ok hshader
  rw [hd] at hd'
  cases hd'
  obtain ⟨⟨constants, layout', resources, samplers⟩, hc, hres, hsamplers, hl', ho, heq⟩ :=
    generate_eq_ok hgen
  dsimp only at hc hres hsamplers hl'
  rw [htable] at hres
  subst hres hsamplers
  rw [hu] at hc
  cases hc
  rw [hl] at hl'
  cases hl'
  exact ⟨shader, d, _, hshader, hd, hp, ho, heq⟩

theorem Shader.isTable_ofSource {includes : Includes} {file source : String} {shader : Shader}
    (h : ofSource includes file source = .ok shader) :
    Resource.IsTable
      ((Expansion.ofRoot includes file source).entries.filterMap fun e => e.item.resource?)
      shader.groups.groups shader.resources := by
  obtain ⟨d, hd, hgen⟩ := ofSource_eq_ok h
  obtain ⟨p, _, hres, _, hl, _, hshader⟩ := generate_eq_ok hgen
  obtain ⟨_, hg⟩ := Declarations.gathers_of_ofRoot hd
  have hdeclared : d.resources =
      (Expansion.ofRoot includes file source).entries.filterMap fun e => e.item.resource? :=
    hg.resources
  have hmem : ∀ r ∈ d.resources, r.group ∈ d.groups.groups := fun r hr =>
    Declarations.group_mem hd hr
  rw [hshader, hres, ← hdeclared]
  rw [hres] at hl
  exact Resource.isTable_table (fun r hr => Declarations.index_eq_none hd hr)
    (hg.groups_ordered (List.pairwise_singleton ..)) (hg.mem_groups List.mem_cons_self)
    hmem (ConstantsLayout.length_slotted_lt hl)

theorem Shader.exists_isTable :
    let includes := Includes.ofFiles
      [("i", "#pragma bindgroup \"a\"\n[bindgroup(Group=\"a\")] Texture2D q;\n")]
    let source := "#pragma bindgroup \"b\"\n#include \"i\"\n" ++
      "[bindgroup(Group=\"b\")] Texture2D z;\nstruct S \x7b float x; \x7d;\n" ++
      "[constants] ConstantBuffer<S> c;\nTexture2D a;\n"
    let declared : List Resource := [
      ⟨.texture2D, none, "q", ⟨"a"⟩, none, [], ⟨2, 24⟩⟩,
      ⟨.texture2D, none, "z", ⟨"b"⟩, none, [], ⟨3, 24⟩⟩,
      ⟨.constantBuffer, some "S", "c", .default, none, [.constants], ⟨5, 13⟩⟩,
      ⟨.texture2D, none, "a", .default, none, [], ⟨6, 1⟩⟩]
    let table : List Resource := [
      ⟨.texture2D, none, "a", .default, some 0, [], ⟨6, 1⟩⟩,
      ⟨.constantBuffer, some "S", "c", .default, none, [.constants], ⟨5, 13⟩⟩,
      ⟨.texture2D, none, "q", ⟨"a"⟩, some 1, [], ⟨2, 24⟩⟩,
      ⟨.texture2D, none, "z", ⟨"b"⟩, some 2, [], ⟨3, 24⟩⟩]
    ∃ shader, ofSource includes "f" source = .ok shader ∧ shader.resources = table ∧
      shader.groups.groups = [.default, ⟨"a"⟩, ⟨"b"⟩] ∧
      ((Expansion.ofRoot includes "f" source).entries.filterMap fun e => e.item.resource?) =
        declared ∧
      Resource.IsTable declared [.default, ⟨"a"⟩, ⟨"b"⟩] table := by
  intro includes source declared table
  have hdeclared : ((Expansion.ofRoot includes "f" source).entries.filterMap
      fun e => e.item.resource?) = declared := by
    decide +kernel
  obtain ⟨shader, d, p, h, -, ⟨htable, hgroups⟩, -, hshader⟩ :=
    @exists_of_ordered includes "f" source
      (fun d p => p.resources = table ∧ d.groups.groups = [.default, ⟨"a"⟩, ⟨"b"⟩])
      (table.map Resource.unslotted) (by decide +kernel)
  have hresources : shader.resources = table := by rw [hshader, htable]
  have hlisted : shader.groups.groups = [.default, ⟨"a"⟩, ⟨"b"⟩] := by rw [hshader, hgroups]
  refine ⟨shader, h, hresources, hlisted, hdeclared, ?_⟩
  have hsorted := isTable_ofSource h
  rwa [hdeclared, hlisted, hresources] at hsorted

end BindlessHlsl
