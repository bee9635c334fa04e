import BindlessHlsl.Proofs.Editing
import BindlessHlsl.Proofs.Gathering
import BindlessHlsl.Shader.Basic

/-!
What generating a shader does when it comes to an end: the declarations are gathered, the resources
are put in table order, and the text is edited once (`Shader.ofSource_eq_ok`). The edits blank what
was consumed and insert the preamble and the lookups (`Preamble.blanks_edits`,
`Preamble.insertions_edits`). They stay between characters, so that generation stops only where a
size does not fit (`Shader.exists_ofSource`).
-/

namespace BindlessHlsl

open Utf8

instance decidableEqExcept {ε α : Type} [DecidableEq ε] [DecidableEq α] :
    DecidableEq (Except ε α)
  | .ok a, .ok b => decidable_of_iff (a = b) ⟨congrArg _, Except.ok.inj⟩
  | .error a, .error b => decidable_of_iff (a = b) ⟨congrArg _, Except.error.inj⟩
  | .ok _, .error _ => isFalse nofun
  | .error _, .ok _ => isFalse nofun

/-! ## Tables -/

namespace Resource

/-- A resource without its slot. -/
def unslotted (r : Resource) : Resource := { r with index := none }

theorem map_unslotted_withSlots (n : Nat) (resources : List Resource) :
    (withSlots n resources).map unslotted = resources.map unslotted := by
  fun_induction withSlots n resources with
  | case1 => rfl
  | case2 n r rest _ ih => rw [List.map_cons, ih]; rfl
  | case3 n r rest _ ih => rw [List.map_cons, ih]; rfl

theorem length_table (resources : List Resource) :
    (table resources).length = resources.length := by
  simpa [table, sorted] using congrArg List.length (map_unslotted_withSlots 0 (sorted resources))

theorem exists_of_mem_table {resources : List Resource} {r : Resource} (h : r ∈ table resources) :
    ∃ declared ∈ resources, declared.unslotted = r.unslotted := by
  have hm : r.unslotted ∈ (table resources).map unslotted := List.mem_map_of_mem h
  rw [table, map_unslotted_withSlots] at hm
  obtain ⟨declared, hd, he⟩ := List.mem_map.1 hm
  exact ⟨declared, List.mem_mergeSort.1 hd, he⟩

theorem slotted_map_unslotted (resources : List Resource) :
    slotted (resources.map unslotted) = (slotted resources).map unslotted :=
  List.filter_map

theorem length_slotted_table (resources : List Resource) :
    (slotted (table resources)).length = (slotted resources).length := by
  have h := congrArg (fun rs => (slotted rs).length)
    (map_unslotted_withSlots 0 (sorted resources))
  simp only [slotted_map_unslotted, List.length_map] at h
  rw [table, h]
  exact ((List.mergeSort_perm ..).filter _).length_eq

end Resource

/-- The layout depends on how many resources there are and not on their order. -/
theorem ConstantsLayout.ofResources_table (resources : List Resource) (size : UInt32) :
    ofResources (Resource.table resources) size = ofResources resources size := by
  have he : (Resource.table resources).isEmpty = resources.isEmpty := by
    rw [Bool.eq_iff_iff, List.isEmpty_iff_length_eq_zero, List.isEmpty_iff_length_eq_zero,
      Resource.length_table]
  rw [ofResources, ofResources, Resource.length_slotted_table, he]

/-! ## The edits of a shader -/

namespace EditList

variable (list : EditList)

@[simp] theorem insertions_blank (range : ByteRange) :
    (list.blank range).insertions = list.insertions := by
  unfold blank
  split
  · rfl
  · simp [insertions]

@[simp] theorem insertions_insert (offset : Nat) (text : String) :
    (list.insert offset text).insertions = list.insertions ++ [(offset, text)] := by
  simp [insert, insertions]

@[simp] theorem blanks_blank (range : ByteRange) (offset : Nat) :
    (list.blank range).blanks offset = (list.blanks offset || range.contains offset) := by
  unfold blank
  split
  next he =>
    have : range.contains offset = false := by
      simp only [ByteRange.isEmpty, decide_eq_true_eq] at he
      simp [ByteRange.contains]
      omega
    rw [this, Bool.or_false]
  next => simp [blanks]

@[simp] theorem blanks_insert (place : Nat) (text : String) (offset : Nat) :
    (list.insert place text).blanks offset = list.blanks offset := by
  simp [insert, blanks]

end EditList

namespace Shader

/-- Whether an offset lies in something that was consumed: an item that is blanked, or one of the
given structs. -/
def consumed (items : List Item) (structs : List Struct) (offset : Nat) : Bool :=
  (items.filterMap Item.blanked?).any (fun range => range.contains offset) ||
    (structs.filterMap Struct.range).any fun range => range.contains offset

/-- What a function gets inserted: the lookups that its body needs, if there are any. -/
def lookupInsertion (resources : List Resource) (source : List UInt8) (f : Function) :
    Option (Nat × String) :=
  f.body.bind fun body =>
    let text := lookups resources (body.slice source)
    if text = "" then none else some (body.start, text)

theorem foldl_blank (ranges : List ByteRange) (edits : EditList) :
    (ranges.foldl EditList.blank edits).insertions = edits.insertions ∧
      ∀ offset, (ranges.foldl EditList.blank edits).blanks offset =
        (edits.blanks offset || ranges.any fun range => range.contains offset) := by
  induction ranges generalizing edits with
  | nil => simp
  | cons range rest ih =>
    obtain ⟨hi, hb⟩ := ih (edits.blank range)
    refine ⟨by simpa using hi, fun offset => ?_⟩
    rw [List.foldl_cons, hb, EditList.blanks_blank, List.any_cons, Bool.or_assoc]

theorem blankStructs_eq (structs : List Struct) (edits : EditList) :
    blankStructs edits structs = (structs.filterMap Struct.range).foldl EditList.blank edits := by
  unfold blankStructs
  induction structs generalizing edits with
  | nil => rfl
  | cons s rest ih =>
    rw [List.foldl_cons, ih, List.filterMap_cons]
    cases s.range <;> rfl

theorem insertions_insertLookups (resources : List Resource) (source : List UInt8)
    (functions : List Function) (edits : EditList) :
    (insertLookups edits resources source functions).insertions =
      edits.insertions ++ functions.filterMap (lookupInsertion resources source) := by
  unfold insertLookups
  induction functions generalizing edits with
  | nil => simp
  | cons f rest ih =>
    rw [List.foldl_cons, ih, List.filterMap_cons, lookupInsertion]
    cases f.body with
    | none => rfl
    | some body =>
      simp only [insertNonempty, Option.bind_some]
      split <;> simp

theorem blanks_insertLookups (resources : List Resource) (source : List UInt8)
    (functions : List Function) (edits : EditList) (offset : Nat) :
    (insertLookups edits resources source functions).blanks offset = edits.blanks offset := by
  unfold insertLookups
  induction functions generalizing edits with
  | nil => rfl
  | cons f rest ih =>
    rw [List.foldl_cons, ih]
    cases f.body with
    | none => rfl
    | some body =>
      simp only [insertNonempty]
      split <;> simp

end Shader

theorem Stop.fitting_eq_ok {α : Type} {x : Option α} {a : α} : fitting x = .ok a ↔ x = some a := by
  cases x <;> simp [fitting]

theorem Stop.bind_eq_ok {α β : Type} {x : Except Stop α} {f : α → Except Stop β} {b : β} :
    (x >>= f) = .ok b ↔ ∃ a, x = .ok a ∧ f a = .ok b := by
  cases x <;> simp [bind, Except.bind]

theorem Stop.mapError_eq_ok {α : Type} {x : Except Rejection α} {a : α} :
    x.mapError Stop.rejected = .ok a ↔ x = .ok a := by
  cases x with
  | error rejection => exact ⟨nofun, nofun⟩
  | ok b =>
    constructor <;>
    · intro h
      cases h
      rfl

/-- The edits that generation makes to a text. -/
def Preamble.edits (p : Preamble) (source : String) (functions : List Function) : EditList :=
  Shader.insertLookups
    (Shader.insertNonempty
      (Shader.blankStructs (Shader.blankItems (Outline.ofText source).items) p.constants.structs)
      0 p.text)
    p.resources (Utf8.encode source) functions

/-- What comes in front of a text: the preamble, if there is one. -/
def Preamble.insertion (p : Preamble) : List (Nat × String) :=
  if p.text = "" then [] else [(0, p.text)]

theorem Preamble.insertions_edits (p : Preamble) (source : String) (functions : List Function) :
    (p.edits source functions).insertions =
      p.insertion ++ functions.filterMap (Shader.lookupInsertion p.resources (encode source)) := by
  have hnone : (Shader.blankStructs (Shader.blankItems (Outline.ofText source).items)
      p.constants.structs).insertions = [] := by
    rw [Shader.blankStructs_eq, (Shader.foldl_blank ..).1]
    exact (Shader.foldl_blank ..).1
  rw [edits, Shader.insertions_insertLookups, Shader.insertNonempty, insertion]
  split <;> simp [hnone]

theorem Preamble.blanks_edits (p : Preamble) (source : String) (functions : List Function) :
    (p.edits source functions).blanks =
      Shader.consumed (Outline.ofText source).items p.constants.structs := by
  funext offset
  have hblank : (Shader.blankStructs (Shader.blankItems (Outline.ofText source).items)
      p.constants.structs).blanks offset =
      Shader.consumed (Outline.ofText source).items p.constants.structs offset := by
    rw [Shader.blankStructs_eq, (Shader.foldl_blank ..).2, Shader.blankItems,
      (Shader.foldl_blank ..).2]
    rfl
  rw [edits, Shader.blanks_insertLookups, Shader.insertNonempty]
  split <;> simp [hblank]

theorem eq_ok_of_mem_toOption {ε α : Type} {x : Except ε α} {a : α} (h : a ∈ x.toOption) :
    x = .ok a := by
  cases x with
  | error => cases h
  | ok =>
    cases h
    rfl

namespace Shader

theorem generate_eq_ok {file source : String} {d : Declarations} {shader : Shader}
    (h : generate file source d = .ok shader) :
    ∃ p : Preamble, UserConstants.ofDeclarations file d = .ok p.constants ∧
      p.resources = Resource.table d.resources ∧ p.samplers = d.samplers ∧
      ConstantsLayout.ofResources p.resources p.constants.size = .ok p.layout ∧
      (p.edits source d.functions).edited? source = some shader.output ∧
      shader = {
        d with
        resources := p.resources
        functions := d.functions.map (moveFunction (p.edits source d.functions))
        structs := d.structs.map (moveStruct (p.edits source d.functions))
        constantsSize := p.constants.size
        layout := p.layout
        output := shader.output } := by
  simp only [generate, Stop.bind_eq_ok] at h
  obtain ⟨constants, hc, layout, hl, h⟩ := h
  split at h
  · cases h
  next output ho =>
    cases h
    exact ⟨⟨constants, layout, _, _⟩, hc, rfl, rfl, hl, ho, rfl⟩

/-- A generated shader comes from declarations that were gathered and a preamble for them. -/
theorem ofSource_eq_ok {includes : Includes} {file source : String} {shader : Shader}
    (h : ofSource includes file source = .ok shader) :
    ∃ d, Declarations.ofRoot includes file source = .ok d ∧
      generate file source d = .ok shader := by
  rw [ofSource, Stop.bind_eq_ok] at h
  obtain ⟨d, hd, h⟩ := h
  exact ⟨d, Stop.mapError_eq_ok.1 hd, h⟩

variable {includes : Includes} {file source : String} {d : Declarations}

/-- Nothing is inserted inside a character. -/
theorem boundary_edits (h : Declarations.ofRoot includes file source = .ok d) (p : Preamble)
    {i : Nat × String} (hi : i ∈ (p.edits source d.functions).insertions) :
    IsBoundary source.toList i.1 := by
  rw [p.insertions_edits] at hi
  rcases List.mem_append.1 hi with hi | hi
  · unfold Preamble.insertion at hi
    split at hi
    · cases hi
    · obtain rfl := List.mem_singleton.1 hi
      exact ⟨[], _, rfl, rfl⟩
  · obtain ⟨f, hf, hi⟩ := List.mem_filterMap.1 hi
    obtain ⟨body, hb, hi⟩ := Option.bind_eq_some_iff.1 hi
    dsimp only at hi
    split at hi
    · cases hi
    · cases hi
      exact (Declarations.lies_of_item h (Declarations.function_mem h hf hb) rfl).start_boundary

/-- The words of the resources of a shader are identifiers. -/
theorem resource_identifiers (h : Declarations.ofRoot includes file source = .ok d) {r : Resource}
    (hr : r ∈ Resource.table d.resources) :
    IsIdentifier r.name ∧ ∀ element, r.element = some element → IsIdentifier element := by
  obtain ⟨declared, hm, he⟩ := Resource.exists_of_mem_table hr
  obtain ⟨hn, hel⟩ := Declarations.resource_identifiers h hm
  have hname : declared.unslotted.name = r.unslotted.name := by rw [he]
  have helement : declared.unslotted.element = r.unslotted.element := by rw [he]
  exact ⟨hname ▸ hn, fun element hr => hel element (helement.trans hr)⟩

/-- The layout that a shader gets, without its text. -/
def planned (includes : Includes) (file source : String) :
    Except Stop (Option ConstantsLayout) := do
  let d ← (Declarations.ofRoot includes file source).mapError Stop.rejected
  let constants ← UserConstants.ofDeclarations file d
  ConstantsLayout.ofResources d.resources constants.size

/-- Nothing stops generation after the layout is found. -/
theorem exists_ofSource {layout : Option ConstantsLayout}
    (h : planned includes file source = .ok layout) :
    ∃ shader, ofSource includes file source = .ok shader := by
  simp only [planned, Stop.bind_eq_ok] at h
  obtain ⟨d, hd, constants, hc, hl⟩ := h
  rw [← ConstantsLayout.ofResources_table] at hl
  have he := EditList.edited?_eq_woven fun i hi => boundary_edits (Stop.mapError_eq_ok.1 hd)
    ⟨constants, layout, Resource.table d.resources, d.samplers⟩ hi
  simp only [Preamble.edits] at he
  simp only [ofSource, hd, generate, hc, hl, bind, Except.bind, he]
  exact ⟨_, rfl⟩

theorem groups_ofRoot {shader : Shader} (h : ofSource includes file source = .ok shader) :
    (Declarations.ofRoot includes file source).map Declarations.groups = .ok shader.groups := by
  obtain ⟨d, hroot, hgenerate⟩ := ofSource_eq_ok h
  obtain ⟨p, _, _, _, _, _, hshader⟩ := generate_eq_ok hgenerate
  rw [hroot, hshader]
  rfl

theorem resources_ofRoot {shader : Shader} (h : ofSource includes file source = .ok shader) :
    (Declarations.ofRoot includes file source).map (fun d => Resource.table d.resources) =
      .ok shader.resources := by
  obtain ⟨d, hroot, hgenerate⟩ := ofSource_eq_ok h
  obtain ⟨p, _, hresources, _, _, _, hshader⟩ := generate_eq_ok hgenerate
  rw [hroot, hshader]
  exact congrArg Except.ok hresources.symm

/-- A resource of a shader is one that was declared, up to its slot. -/
theorem exists_declared {shader : Shader} {r : Resource}
    (h : generate file source d = .ok shader) (hr : r ∈ shader.resources) :
    ∃ declared ∈ d.resources, declared.unslotted = r.unslotted := by
  obtain ⟨p, _, hresources, _, _, _, hshader⟩ := generate_eq_ok h
  rw [hshader] at hr
  exact Resource.exists_of_mem_table (hresources ▸ hr)

end Shader

end BindlessHlsl
