import BindlessHlsl.Declarations
import BindlessHlsl.Proofs.OutlineItems

/-!
What gathering the declarations of a shader comes to when nothing is rejected. The expansion is then
complete: it holds every item of the root file in order (`Expansion.rootItems_ofRoot`), and around
each entry all items of the file that the entry comes from (`Expansion.origin_ofFile`). Taking in an
entry is described by `Declarations.Adds`, one case for each item, and taking in all of them by
`Declarations.Gathers`; what is gathered can be read off the entries.
-/

namespace BindlessHlsl

/-! ## Complete expansions -/

/-- The scan of one text comes to a directive under whose path the other text is found. -/
def Includes.Links (includes : Includes) (outer inner : String) : Prop :=
  ∃ path place, .inclusion path place ∈ (Outline.ofText outer).items ∧
    includes.find path = .found inner

namespace Expansion

theorem append_rejection {x y : Expansion} (h : (x.append y).rejection = none) :
    x.rejection = none ∧ y.rejection = none ∧ (x.append y).entries = x.entries ++ y.entries := by
  unfold append at h ⊢
  cases hx : x.rejection with
  | some r => simp [hx] at h
  | none => exact ⟨rfl, by simpa [hx] using h, rfl⟩

theorem complete_ofItems {enter : String → Location → Expansion} {file : String} {depth : Nat}
    {failure : Option Failure} {items : List Item}
    (h : (ofItems enter file depth failure items).rejection = none) :
    failure = none ∧ (∀ item ∈ items, (expanded enter item).rejection = none) ∧
      (ofItems enter file depth failure items).entries =
        items.flatMap fun item => ⟨file, depth, item⟩ :: (expanded enter item).entries := by
  induction items with
  | nil => exact ⟨by simpa [ofItems] using h, by simp, rfl⟩
  | cons item rest ih =>
    obtain ⟨_, h, he⟩ := append_rejection h
    obtain ⟨hi, h, he'⟩ := append_rejection h
    obtain ⟨hf, hr, hrest⟩ := ih h
    refine ⟨hf, List.forall_mem_cons.2 ⟨hi, hr⟩, ?_⟩
    rw [ofItems, he, he', hrest, List.flatMap_cons]
    rfl

/-- A complete expansion of a file puts complete expansions of other files after its items. -/
theorem complete_ofFile {includes : Includes} {levels depth : Nat} {file text : String}
    (h : (ofFile includes levels depth file text).rejection = none) :
    (Outline.ofText text).failure = none ∧ ∃ inner : Item → List Entry,
      (ofFile includes levels depth file text).entries =
        ((Outline.ofText text).items.flatMap fun item => ⟨file, depth, item⟩ :: inner item) ∧
      ∀ item ∈ (Outline.ofText text).items, inner item = [] ∨
        ∃ below path text', levels = below + 1 ∧ includes.Links text text' ∧
          (ofFile includes below (depth + 1) path text').rejection = none ∧
          inner item = (ofFile includes below (depth + 1) path text').entries := by
  cases levels with
  | zero =>
    obtain ⟨hf, hi, he⟩ := complete_ofItems h
    refine ⟨hf, _, he, fun item hm => ?_⟩
    cases item with
    | inclusion path place => exact absurd (hi _ hm) (by simp [expanded, stopped])
    | _ => exact .inl rfl
  | succ levels =>
    obtain ⟨hf, hi, he⟩ := complete_ofItems h
    refine ⟨hf, _, he, fun item hm => ?_⟩
    cases item with
    | inclusion path place =>
      have hr := hi _ hm
      simp only [expanded] at hr ⊢
      cases hs : includes.find path with
      | found text' =>
        rw [hs] at hr
        exact .inr ⟨levels, path, text', rfl, ⟨path, place, hm, hs⟩, hr, rfl⟩
      | missing | unreadable =>
        rw [hs] at hr
        cases hr
    | _ => exact .inl rfl

/-- An entry of a complete expansion comes from the file itself or from a file that it includes. -/
theorem mem_ofFile {includes : Includes} {levels depth : Nat} {file text : String} {e : Entry}
    (h : (ofFile includes levels depth file text).rejection = none)
    (hm : e ∈ (ofFile includes levels depth file text).entries) :
    (e.depth = depth ∧ e.item ∈ (Outline.ofText text).items) ∨
      ∃ below path text', levels = below + 1 ∧ includes.Links text text' ∧
        (ofFile includes below (depth + 1) path text').rejection = none ∧
        e ∈ (ofFile includes below (depth + 1) path text').entries ∧
        (ofFile includes below (depth + 1) path text').entries ⊆
          (ofFile includes levels depth file text).entries := by
  obtain ⟨_, inner, he, hi⟩ := complete_ofFile h
  rw [he] at hm ⊢
  obtain ⟨item, hitem, hm⟩ := List.mem_flatMap.1 hm
  rcases List.mem_cons.1 hm with rfl | hm
  · exact .inl ⟨rfl, hitem⟩
  · rcases hi item hitem with hnil | ⟨below, path, text', hl, hlink, hr, heq⟩
    · rw [hnil] at hm
      cases hm
    · refine .inr ⟨below, path, text', hl, hlink, hr, heq ▸ hm, fun e' he' => ?_⟩
      exact List.mem_flatMap.2 ⟨item, hitem, List.mem_cons_of_mem _ (heq ▸ he')⟩

theorem depth_le_of_mem {includes : Includes} {levels depth : Nat} {file text : String} {e : Entry}
    (h : (ofFile includes levels depth file text).rejection = none)
    (hm : e ∈ (ofFile includes levels depth file text).entries) : depth ≤ e.depth := by
  induction levels using Nat.strongRecOn generalizing depth file text with
  | ind levels ih =>
    rcases mem_ofFile h hm with ⟨hd, _⟩ | ⟨below, path, text', rfl, _, hr, hm', _⟩
    · exact Nat.le_of_eq hd.symm
    · exact Nat.le_of_succ_le (ih below (Nat.lt_succ_self _) hr hm')

/-- Every entry of a complete expansion comes from a text whose scan did not fail and whose items
are all in the expansion. -/
theorem origin_ofFile {includes : Includes} {levels depth : Nat} {file text : String} {e : Entry}
    (h : (ofFile includes levels depth file text).rejection = none)
    (hm : e ∈ (ofFile includes levels depth file text).entries) :
    ∃ text', (Outline.ofText text').failure = none ∧ e.item ∈ (Outline.ofText text').items ∧
      ∀ item ∈ (Outline.ofText text').items,
        ∃ e' ∈ (ofFile includes levels depth file text).entries, e'.item = item := by
  induction levels using Nat.strongRecOn generalizing depth file text with
  | ind levels ih =>
    rcases mem_ofFile h hm with ⟨_, hi⟩ | ⟨below, path, text', rfl, _, hr, hm', hsub⟩
    · obtain ⟨hf, inner, he, _⟩ := complete_ofFile h
      refine ⟨text, hf, hi, fun item hitem => ⟨⟨file, depth, item⟩, ?_, rfl⟩⟩
      rw [he]
      exact List.mem_flatMap.2 ⟨item, hitem, List.mem_cons_self⟩
    · obtain ⟨text'', hf, hi, hall⟩ := ih below (Nat.lt_succ_self _) hr hm'
      refine ⟨text'', hf, hi, fun item hitem => ?_⟩
      obtain ⟨e', he', hitem⟩ := hall item hitem
      exact ⟨e', hsub he', hitem⟩

/-- The entries of the root file in a complete expansion are the items of its text in order. -/
theorem rootItems_ofRoot {includes : Includes} {file text : String}
    (h : (ofRoot includes file text).rejection = none) :
    ((ofRoot includes file text).entries.filter Entry.inRoot).map Entry.item =
      (Outline.ofText text).items := by
  obtain ⟨_, inner, he, hi⟩ := complete_ofFile h
  have hinner : ∀ item ∈ (Outline.ofText text).items, (inner item).filter Entry.inRoot = [] := by
    intro item hitem
    rcases hi item hitem with hnil | ⟨below, path, text', _, _, hr, heq⟩
    · rw [hnil]
      rfl
    · refine List.filter_eq_nil_iff.2 fun e hm => ?_
      have := depth_le_of_mem hr (heq ▸ hm)
      simp [Entry.inRoot]
      omega
  have hone : ∀ item ∈ (Outline.ofText text).items,
      ((Entry.mk file 0 item :: inner item).filter Entry.inRoot).map Entry.item = [item] := by
    intro item hitem
    rw [List.filter_cons_of_pos rfl, hinner item hitem]
    rfl
  rw [ofRoot, he, List.filter_flatMap, List.map_flatMap, List.flatMap_def,
    List.map_congr_left hone, ← List.flatMap_def, List.flatMap_singleton']

end Expansion

/-! ## Taking in entries -/

/-- The resource that an item declares, without a slot. -/
def Item.resource? : Item → Option Resource
  | .resource kind element name place attributes _ => some {
      kind := kind
      element := element
      name := name
      group := Declarations.groupOf attributes
      index := none
      marks := Declarations.marksOf attributes
      location := place }
  | _ => none

/-- The function that an item of the root file or of another file declares. -/
def Item.function? (inRoot : Bool) : Item → Option Function
  | .function name body => some ⟨name, Declarations.rootRange inRoot body⟩
  | _ => none

theorem BindGroups.mem_place {g h : BindGroup} {groups : List BindGroup} :
    h ∈ place g groups ↔ h = g ∨ h ∈ groups := by
  fun_induction place g groups with
  | case1 => simp
  | case2 => simp
  | case3 first rest _ ih =>
    rw [List.mem_cons, List.mem_cons, ih]
    exact or_left_comm

theorem BindGroups.mem_of_insert? {s t : BindGroups} {g h : BindGroup} (hi : s.insert? g = some t)
    (hm : h ∈ s.groups) : h ∈ t.groups := by
  unfold insert? at hi
  split at hi
  · cases hi
  · cases hi
    exact mem_place.2 (.inr hm)

namespace Declarations

/-- What taking in an item that is not rejected leads to. -/
inductive Adds (d : Declarations) (inRoot : Bool) : Item → Declarations → Prop
  | pathDirective {place : Location} : inRoot = true → d.path = none →
    Adds d inRoot (.pathDirective place) d
  | contentPath {path : String} {range : ByteRange} :
    Adds d inRoot (.contentPath path range) { d with path := some path }
  | bindGroup {name : String} {place : Location} {range : ByteRange} {groups : BindGroups} :
    d.groups.insert? ⟨name⟩ = some groups →
    Adds d inRoot (.bindGroup name place range) { d with groups := groups }
  | inclusion {path : String} {place : Location} : Adds d inRoot (.inclusion path place) d
  | groupUse {group : BindGroup} {place : Location} : group ∈ d.groups.groups →
    Adds d inRoot (.groupUse group place) d
  | bracketed {placed : PlacedAttribute} {range : ByteRange} :
    Adds d inRoot (.bracketed placed range) d
  | resource {kind : ResourceKind} {element : Option String} {name : String} {place : Location}
      {attributes : List PlacedAttribute} {range : ByteRange} :
    attributes.forM (fun placed => d.check placed (.resource kind) name) = .ok () →
    Adds d inRoot (.resource kind element name place attributes range) {
      d with
      resources := d.resources ++
        [⟨kind, element, name, groupOf attributes, none, marksOf attributes, place⟩] }
  | sampler {name : String} {settings : SamplerSettings} {range : ByteRange} :
    Adds d inRoot (.sampler name settings range) (d.addSampler name settings)
  | struct {definition : Struct.Definition} {place : Location} {range : ByteRange} :
    d.struct? (d.structName definition.name) = none →
    Adds d inRoot (.struct definition place range) {
      d with
      structs := d.structs ++
        [⟨d.structName definition.name, definition.members, rootRange inRoot range⟩] }
  | functionStart {name : String} {attributes : List PlacedAttribute}
      {vertex pixel : Option String} {layout : List InputElement} :
    attributes.foldlM (fun d placed => d.mark name placed) d =
      .ok { d with vertexEntry := vertex, pixelEntry := pixel, inputLayout := layout } →
    Adds d inRoot (.functionStart name attributes)
      { d with vertexEntry := vertex, pixelEntry := pixel, inputLayout := layout }
  | function {name : String} {body : ByteRange} :
    Adds d inRoot (.function name body)
      { d with functions := d.functions ++ [⟨name, rootRange inRoot body⟩] }

/-- Marking a function changes entry points and input layout alone. -/
theorem mark_frame {d d' : Declarations} {name : String} {placed : PlacedAttribute}
    (h : d.mark name placed = .ok d') :
    ∃ vertex pixel layout,
      d' = { d with vertexEntry := vertex, pixelEntry := pixel, inputLayout := layout } := by
  simp only [mark, Reading.bind_eq_ok] at h
  obtain ⟨_, _, h⟩ := h
  cases h
  split <;> exact ⟨_, _, _, rfl⟩

theorem marks_frame {d d' : Declarations} {name : String} {attributes : List PlacedAttribute}
    (h : attributes.foldlM (fun d placed => d.mark name placed) d = .ok d') :
    ∃ vertex pixel layout,
      d' = { d with vertexEntry := vertex, pixelEntry := pixel, inputLayout := layout } := by
  induction attributes generalizing d with
  | nil =>
    cases h
    exact ⟨_, _, _, rfl⟩
  | cons placed rest ih =>
    rw [List.foldlM_cons, Reading.bind_eq_ok] at h
    obtain ⟨d₁, h₁, h⟩ := h
    obtain ⟨_, _, _, rfl⟩ := mark_frame h₁
    obtain ⟨vertex, pixel, layout, rfl⟩ := ih h
    exact ⟨vertex, pixel, layout, rfl⟩

theorem adds_of_addItem {d d' : Declarations} {inRoot : Bool} {item : Item}
    (h : d.addItem inRoot item = .ok d') : Adds d inRoot item d' := by
  cases item with
  | pathDirective place =>
    simp only [addItem, checkPath] at h
    split at h
    · split at h
      · cases h
      · cases h
        exact .pathDirective ‹_› ‹_›
    · cases h
  | contentPath | inclusion | bracketed | sampler | function =>
    cases h
    constructor
  | bindGroup name place range =>
    simp only [addItem] at h
    split at h
    · cases h
      exact .bindGroup ‹_›
    · cases h
  | groupUse group place =>
    simp only [addItem] at h
    split at h
    next hg =>
      cases h
      exact .groupUse (by simpa [BindGroups.contains] using hg)
    next => cases h
  | resource kind element name place attributes range =>
    simp only [addItem, addResource, Reading.bind_eq_ok] at h
    obtain ⟨_, hc, h⟩ := h
    cases h
    exact .resource hc
  | struct definition place range =>
    simp only [addItem, addStruct] at h
    split at h
    · cases h
    next hs =>
      cases h
      exact .struct (by simpa using hs)
  | functionStart name attributes =>
    obtain ⟨_, _, _, rfl⟩ := marks_frame h
    exact .functionStart h

/-- Takes in entries in order, none of which is rejected. -/
inductive Gathers : Declarations → List Entry → Declarations → Prop
  | nil {d : Declarations} : Gathers d [] d
  | cons {d d₁ d₂ : Declarations} {e : Entry} {rest : List Entry} :
    Adds d e.inRoot e.item d₁ → Gathers d₁ rest d₂ → Gathers d (e :: rest) d₂

theorem gathers_of_foldlM {d d' : Declarations} {entries : List Entry}
    (h : entries.foldlM add d = .ok d') : Gathers d entries d' := by
  induction entries generalizing d with
  | nil =>
    cases h
    exact .nil
  | cons e rest ih =>
    rw [List.foldlM_cons] at h
    cases hi : d.addItem e.inRoot e.item with
    | error f =>
      rw [add, hi] at h
      cases h
    | ok d₁ =>
      rw [add, hi] at h
      exact .cons (adds_of_addItem hi) (ih h)

/-- Declarations are gathered from all entries of a complete expansion. -/
theorem gathers_of_ofRoot {includes : Includes} {file text : String} {d : Declarations}
    (h : ofRoot includes file text = .ok d) :
    (Expansion.ofRoot includes file text).rejection = none ∧
      Gathers {} (Expansion.ofRoot includes file text).entries d := by
  rw [ofRoot_eq, ofExpansion, Visitor.through] at h
  split at h
  · cases h
  next d' hf =>
    split at h
    · cases h
    next hr =>
      cases h
      exact ⟨hr, gathers_of_foldlM hf⟩

namespace Gathers

variable {d d' : Declarations} {entries : List Entry}

theorem resources (h : Gathers d entries d') :
    d'.resources = d.resources ++ entries.filterMap fun e => e.item.resource? := by
  induction h with
  | nil => simp
  | @cons d d₁ d₂ e rest ha _ ih =>
    rw [ih, List.filterMap_cons]
    generalize e.item = item at ha
    cases ha with
    | resource => exact List.append_assoc ..
    | _ => rfl

theorem functions (h : Gathers d entries d') :
    d'.functions = d.functions ++ entries.filterMap fun e => e.item.function? e.inRoot := by
  induction h with
  | nil => simp
  | @cons d d₁ d₂ e rest ha _ ih =>
    rw [ih, List.filterMap_cons]
    generalize e.item = item at ha
    cases ha with
    | function => exact List.append_assoc ..
    | _ => rfl

/-- A struct is defined by an item. -/
theorem mem_structs {s : Struct} (h : Gathers d entries d') (hs : s ∈ d'.structs) :
    s ∈ d.structs ∨ ∃ e ∈ entries, ∃ definition place range,
      e.item = .struct definition place range ∧
      (definition.name = s.name ∨ definition.name = "") ∧ s.members = definition.members ∧
      s.range = rootRange e.inRoot range := by
  induction h with
  | nil => exact .inl hs
  | @cons d d₁ d₂ e rest ha _ ih =>
    rcases ih hs with hs | ⟨e', he', horigin⟩
    · generalize hi : e.item = item at ha
      cases ha with
      | @struct definition =>
        rcases List.mem_append.1 hs with hs | hs
        · exact .inl hs
        · obtain rfl := List.mem_singleton.1 hs
          refine .inr ⟨e, List.mem_cons_self, definition, _, _, hi, ?_, rfl, rfl⟩
          by_cases hname : definition.name = ""
          · exact .inr hname
          · exact .inl (if_neg hname).symm
      | _ => exact .inl hs
    · exact .inr ⟨e', List.mem_cons_of_mem _ he', horigin⟩

/-- A struct that has a range is defined in the root file. -/
theorem struct_mem {s : Struct} {r : ByteRange} (h : Gathers d entries d') (hs : s ∈ d'.structs)
    (hr : s.range = some r) :
    s ∈ d.structs ∨ ∃ e ∈ entries, e.inRoot = true ∧
      ∃ definition place, e.item = .struct definition place r := by
  refine (h.mem_structs hs).imp_right fun ⟨e, he, definition, place, range, hi, _, _, hrange⟩ => ?_
  rw [hr] at hrange
  cases hroot : e.inRoot with
  | false => simp [rootRange, hroot] at hrange
  | true =>
    obtain rfl : r = range := by simpa [rootRange, hroot] using hrange
    exact ⟨e, he, hroot, definition, place, hi⟩

theorem mem_groups (h : Gathers d entries d') {g : BindGroup} (hg : g ∈ d.groups.groups) :
    g ∈ d'.groups.groups := by
  induction h with
  | nil => exact hg
  | @cons d d₁ d₂ e rest ha _ ih =>
    refine ih ?_
    generalize e.item = item at ha
    cases ha with
    | bindGroup hi => exact BindGroups.mem_of_insert? hi hg
    | _ => exact hg

/-- A bind group that is referred to is declared. -/
theorem groupUse_mem (h : Gathers d entries d') {e : Entry} {g : BindGroup} {place : Location}
    (he : e ∈ entries) (hi : e.item = .groupUse g place) : g ∈ d'.groups.groups := by
  induction h with
  | nil => cases he
  | cons ha hrest ih =>
    rcases List.mem_cons.1 he with rfl | he
    · rw [hi] at ha
      cases ha with
      | groupUse hg => exact hrest.mem_groups hg
    · exact ih he

end Gathers

theorem groupOf_mem (attributes : List PlacedAttribute) :
    groupOf attributes = .default ∨ groupOf attributes ∈ Scan.groupsNamed attributes := by
  unfold groupOf
  generalize BindGroup.default = start
  induction attributes generalizing start with
  | nil => exact .inl rfl
  | cons placed rest ih =>
    rw [List.foldl_cons, Scan.groupsNamed, List.filterMap_cons]
    cases placed.value with
    | bindGroup g =>
      refine .inr (List.mem_cons.2 ?_)
      exact ih g
    | _ => exact ih start

section OfRoot

variable {includes : Includes} {file text : String} {d : Declarations} {r : Resource}

theorem run_of_ofRoot (h : ofRoot includes file text = .ok d) :
    (Scan.ofText text).Run (Outline.ofText text).items :=
  Outline.run_of_ofScan (Expansion.complete_ofFile (gathers_of_ofRoot h).1).1

/-- The range of an item of the root file cuts no character apart. -/
theorem lies_of_item {item : Item} {range : ByteRange} (h : ofRoot includes file text = .ok d)
    (hi : item ∈ (Outline.ofText text).items) (hr : item.range? = some range) :
    range.Lies text 0 :=
  ((run_of_ofRoot h).ranges (Cursor.within_ofText text)).2 range
    (List.mem_filterMap.2 ⟨item, hi, hr⟩)

/-- The functions with a body are those of the root file in order. -/
theorem bodies_eq (h : ofRoot includes file text = .ok d) :
    d.functions.filterMap (fun f => f.body.map (f.name, ·)) =
      (Outline.ofText text).items.filterMap Item.body? := by
  obtain ⟨hcomplete, hg⟩ := gathers_of_ofRoot h
  have hone : ∀ e : Entry, (e.item.function? e.inRoot).bind (fun f => f.body.map (f.name, ·)) =
      if e.inRoot then e.item.body? else none := by
    intro e
    cases e.item with
    | function name body => cases e.inRoot <;> rfl
    | _ => cases e.inRoot <;> rfl
  rw [hg.functions, ← Expansion.rootItems_ofRoot hcomplete, List.filterMap_map,
    List.filterMap_filter, List.nil_append, List.filterMap_filterMap]
  exact congrArg (List.filterMap · _) (funext hone)

theorem function_mem {f : Function} {body : ByteRange} (h : ofRoot includes file text = .ok d)
    (hf : f ∈ d.functions) (hb : f.body = some body) :
    .function f.name body ∈ (Outline.ofText text).items := by
  have hm : (f.name, body) ∈ d.functions.filterMap (fun f => f.body.map (f.name, ·)) :=
    List.mem_filterMap.2 ⟨f, hf, by rw [hb]; rfl⟩
  rw [bodies_eq h] at hm
  obtain ⟨item, hi, he⟩ := List.mem_filterMap.1 hm
  cases item with
  | function =>
    cases he
    exact hi
  | _ => cases he

/-- The bodies of functions lie one behind the other, with a brace on each side. -/
theorem bodies_apart (h : ofRoot includes file text = .ok d) :
    d.functions.Pairwise fun f g =>
      ∀ a, f.body = some a → ∀ b, g.body = some b → a.stop < b.start := by
  have hp := (run_of_ofRoot h).bodies.1
  rw [← bodies_eq h] at hp
  refine (List.pairwise_filterMap.1 hp).imp fun {f g} hfg a ha b hb => ?_
  exact hfg (f.name, a) (by rw [ha]; rfl) (g.name, b) (by rw [hb]; rfl)

theorem body_start_pos {f : Function} {body : ByteRange} (h : ofRoot includes file text = .ok d)
    (hf : f ∈ d.functions) (hb : f.body = some body) :
    0 < body.start ∧ body.start ≤ body.stop := by
  have hm : (f.name, body) ∈ (Outline.ofText text).items.filterMap Item.body? :=
    List.mem_filterMap.2 ⟨_, function_mem h hf hb, rfl⟩
  obtain ⟨hpos, hle⟩ := (run_of_ofRoot h).bodies.2 _ hm
  exact ⟨Nat.zero_lt_of_lt hpos, hle⟩

theorem struct_range_mem {s : Struct} {range : ByteRange} (h : ofRoot includes file text = .ok d)
    (hs : s ∈ d.structs) (hr : s.range = some range) :
    ∃ definition place, .struct definition place range ∈ (Outline.ofText text).items := by
  obtain ⟨hcomplete, hg⟩ := gathers_of_ofRoot h
  rcases hg.struct_mem hs hr with hs | ⟨e, he, hroot, definition, place, hi⟩
  · cases hs
  · refine ⟨definition, place, ?_⟩
    rw [← Expansion.rootItems_ofRoot hcomplete]
    exact List.mem_map.2 ⟨e, List.mem_filter.2 ⟨he, hroot⟩, hi⟩

/-- The members of a gathered struct have dimensions that can be written. -/
theorem shaped_of_mem {s : Struct} (h : ofRoot includes file text = .ok d) (hs : s ∈ d.structs) :
    ∀ m ∈ s.members, m.type.Shaped := by
  obtain ⟨hcomplete, hg⟩ := gathers_of_ofRoot h
  rcases hg.mem_structs hs with hs | ⟨e, he, definition, place, range, hi, _, hmembers, _⟩
  · cases hs
  · obtain ⟨text', hf, hitem, _⟩ := Expansion.origin_ofFile hcomplete he
    rw [hmembers]
    exact (Outline.run_of_ofScan hf).struct_shaped (hi ▸ hitem)

/-- A gathered resource is declared by an item of a text that was scanned to its end. -/
theorem origin_of_resource (h : ofRoot includes file text = .ok d) (hr : r ∈ d.resources) :
    ∃ text' item, item ∈ (Outline.ofText text').items ∧ item.resource? = some r ∧
      (Scan.ofText text').Run (Outline.ofText text').items ∧
      ∀ g place, .groupUse g place ∈ (Outline.ofText text').items → g ∈ d.groups.groups := by
  obtain ⟨hcomplete, hg⟩ := gathers_of_ofRoot h
  rw [hg.resources] at hr
  obtain ⟨e, he, hr⟩ : ∃ e ∈ (Expansion.ofRoot includes file text).entries,
      e.item.resource? = some r := by simpa using hr
  obtain ⟨text', hf, hi, hall⟩ := Expansion.origin_ofFile hcomplete he
  refine ⟨text', e.item, hi, hr, Outline.run_of_ofScan hf, fun g place hu => ?_⟩
  obtain ⟨e', he', hi'⟩ := hall _ hu
  exact hg.groupUse_mem he' hi'

theorem resource_identifiers (h : ofRoot includes file text = .ok d) (hr : r ∈ d.resources) :
    IsIdentifier r.name ∧ ∀ element, r.element = some element → IsIdentifier element := by
  obtain ⟨text', item, hi, hr, hrun, _⟩ := origin_of_resource h hr
  cases item with
  | resource =>
    cases hr
    exact hrun.resource_identifiers hi
  | _ => cases hr

theorem index_eq_none (h : ofRoot includes file text = .ok d) (hr : r ∈ d.resources) :
    r.index = none := by
  obtain ⟨_, item, _, hr, _⟩ := origin_of_resource h hr
  cases item with
  | resource =>
    cases hr
    rfl
  | _ => cases hr

/-- The bind group of every resource is declared. -/
theorem group_mem (h : ofRoot includes file text = .ok d) (hr : r ∈ d.resources) :
    r.group ∈ d.groups.groups := by
  obtain ⟨text', item, hi, hr, hrun, huse⟩ := origin_of_resource h hr
  cases item with
  | resource kind element name place attributes range =>
    cases hr
    rcases groupOf_mem attributes with hd | hn
    · rw [hd]
      exact (gathers_of_ofRoot h).2.mem_groups List.mem_cons_self
    · rcases hrun.groupUse_of_resource hi hn with hp | ⟨place, hu⟩
      · cases hp
      · exact huse _ place hu
  | _ => cases hr

end OfRoot

end Declarations

end BindlessHlsl
