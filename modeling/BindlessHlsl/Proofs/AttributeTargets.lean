import BindlessHlsl.Proofs.RejectionPlaces
import Mathlib.Data.List.DropRight

/-!
What becomes of attributes. In each file an attribute waits for the next resource or function of
that file, whatever stands or is included in between, and is taken by it (`Item.Resolved`); an
attribute that still waits at the end of a file leads to a rejection. A declaration takes only
attributes that fit it, so entry points, input layout and the marks of resources are consistent
(`Declarations.AttributesFit`).
-/

namespace BindlessHlsl

open Relation

/-! ## Attributes that wait -/

namespace Item

/-- The attributes that a declaration takes. -/
def attributes? : Item → Option (List PlacedAttribute)
  | .resource _ _ _ _ attributes _ => some attributes
  | .functionStart _ attributes => some attributes
  | _ => none

/-- The attribute of an item that waits for a declaration. -/
def awaited : Item → List PlacedAttribute
  | .bracketed placed _ => Scan.awaited placed
  | _ => []

/-- What waits behind an item. -/
def waiting (pending : List PlacedAttribute) (item : Item) : List PlacedAttribute :=
  match item.attributes? with
  | some _ => []
  | none => pending ++ item.awaited

/-- What waits behind items. -/
def waitingAfter (pending : List PlacedAttribute) (items : List Item) : List PlacedAttribute :=
  items.foldl waiting pending

/-- Every declaration takes what waits in front of it. -/
def Takes : List PlacedAttribute → List Item → Prop
  | _, [] => True
  | pending, item :: rest =>
    (∀ attributes, item.attributes? = some attributes → attributes = pending) ∧
      Takes (item.waiting pending) rest

variable {pending attributes : List PlacedAttribute} {front back items : List Item} {item : Item}
  {placed : PlacedAttribute}

theorem waitingAfter_append :
    waitingAfter pending (front ++ back) = waitingAfter (waitingAfter pending front) back :=
  List.foldl_append

theorem takes_append :
    Takes pending (front ++ back) ↔
      Takes pending front ∧ Takes (waitingAfter pending front) back := by
  induction front generalizing pending with
  | nil => exact ⟨fun h => ⟨trivial, h⟩, And.right⟩
  | cons item front ih =>
    rw [List.cons_append, Takes, Takes, ih, and_assoc]
    rfl

/-- Items that neither take nor bring attributes change nothing. -/
theorem takes_of_quiet (h : ∀ item ∈ items, item.attributes? = none ∧ item.awaited = []) :
    Takes pending items ∧ waitingAfter pending items = pending := by
  induction items with
  | nil => exact ⟨trivial, rfl⟩
  | cons item items ih =>
    obtain ⟨⟨ha, hw⟩, hrest⟩ := List.forall_mem_cons.1 h
    have hwaiting : item.waiting pending = pending := by
      simp only [waiting, ha, hw, List.append_nil]
    rw [Takes, waitingAfter, List.foldl_cons, hwaiting, ha]
    exact ⟨⟨nofun, (ih hrest).1⟩, (ih hrest).2⟩

/-- What waits behind items are the attributes since the last declaration among them. -/
theorem waitingAfter_nil_eq (items : List Item) :
    waitingAfter [] items =
      (items.rtakeWhile fun item => item.attributes?.isNone).flatMap awaited := by
  induction items using List.reverseRecOn with
  | nil => rfl
  | append_singleton items item ih =>
    rw [waitingAfter_append, ih, List.rtakeWhile_concat]
    change waiting _ item = _
    unfold waiting
    cases item.attributes? with
    | some attributes => rfl
    | none =>
      simp only [Option.isNone_none, if_true, List.flatMap_append, List.flatMap_singleton]

/-- What waits is taken by the first declaration, if nothing is left in the end. -/
theorem exists_of_waiting (h : Takes pending items) (hend : waitingAfter pending items = [])
    (hp : placed ∈ pending) :
    ∃ mid target rest attributes, items = mid ++ target :: rest ∧
      (∀ item ∈ mid, item.attributes? = none) ∧ target.attributes? = some attributes ∧
      placed ∈ attributes := by
  induction items generalizing pending with
  | nil =>
    obtain rfl : pending = [] := hend
    cases hp
  | cons item items ih =>
    obtain ⟨hitem, hrest⟩ := h
    cases ha : item.attributes? with
    | some attributes =>
      refine ⟨[], item, items, attributes, rfl, List.forall_mem_nil _, ha, ?_⟩
      rwa [hitem attributes ha]
    | none =>
      have hmem : placed ∈ item.waiting pending := by
        rw [waiting, ha]
        exact List.mem_append_left _ hp
      obtain ⟨mid, target, rest, attributes, rfl, hmid, htarget⟩ := ih hrest hend hmem
      exact ⟨item :: mid, target, rest, attributes, rfl, List.forall_mem_cons.2 ⟨ha, hmid⟩, htarget⟩

/-- In the items of a file, each attribute other than that of the default group is taken by the
first declaration behind it, and each declaration takes the attributes since the declaration before
it. -/
structure Resolved (items : List Item) : Prop where
  taken : ∀ front placed range back, items = front ++ .bracketed placed range :: back →
    placed.value ≠ .bindGroup .default →
    ∃ mid target rest attributes, back = mid ++ target :: rest ∧
      (∀ item ∈ mid, item.attributes? = none) ∧ target.attributes? = some attributes ∧
      placed ∈ attributes
  attributes_eq : ∀ front target back attributes, items = front ++ target :: back →
    target.attributes? = some attributes →
    attributes = (front.rtakeWhile fun item => item.attributes?.isNone).flatMap awaited

theorem awaited_eq (h : placed.value ≠ .bindGroup .default) : Scan.awaited placed = [placed] := by
  unfold Scan.awaited
  split
  next group hg =>
    split
    next hd =>
      rw [BindGroup.isDefault, beq_iff_eq] at hd
      exact absurd (hg.trans (by rw [hd])) h
    next => rfl
  next => rfl

theorem resolved_of_takes (h : Takes [] items) (hend : waitingAfter [] items = []) :
    Resolved items where
  taken := by
    rintro front placed range back rfl hplaced
    obtain ⟨-, -, hback⟩ := takes_append.1 h
    rw [waitingAfter_append] at hend
    refine exists_of_waiting hback hend ?_
    change placed ∈ waitingAfter [] front ++ Scan.awaited placed
    rw [awaited_eq hplaced]
    exact List.mem_append_right _ (List.mem_singleton_self _)
  attributes_eq := by
    rintro front target back attributes rfl htarget
    obtain ⟨-, htakes, -⟩ := takes_append.1 h
    rw [← waitingAfter_nil_eq]
    exact htakes attributes htarget

end Item

namespace Scan

open Item

variable {s next : Scan} {items : List Item}

/-- A step takes what was pending, and leaves pending what waits behind it. -/
theorem Notices.takes (h : Notices s next items) :
    Takes s.pending items ∧ next.pending = waitingAfter s.pending items := by
  cases h with
  | nothing hn => exact ⟨trivial, hn⟩
  | contentPath hn =>
    rw [hn]
    exact (takes_of_quiet (by simp [attributes?, Item.awaited])).imp_right Eq.symm
  | bindGroup hn | inclusion hn | sampler hn | struct hn =>
    rw [hn]
    exact (takes_of_quiet (List.forall_mem_singleton.2 ⟨rfl, rfl⟩)).imp_right Eq.symm
  | resource hn =>
    refine ⟨⟨?_, trivial⟩, hn⟩
    rintro attributes ⟨⟩
    rfl
  | function hn =>
    refine ⟨⟨?_, nofun, trivial⟩, hn⟩
    rintro attributes ⟨⟩
    rfl
  | @bracket placed hn =>
    have huses : ∀ item ∈ groupUses placed.value s.cursor.location,
        item.attributes? = none ∧ item.awaited = [] := by
      intro item hi
      obtain ⟨group, _, _, rfl⟩ := mem_groupUses.1 hi
      exact ⟨rfl, rfl⟩
    obtain ⟨htakes, hwaiting⟩ := takes_of_quiet huses
    rw [takes_append, waitingAfter_append, hwaiting, hn]
    exact ⟨⟨htakes, nofun, trivial⟩, rfl⟩

/-- A scan up to the end of a text leaves nothing that waits. -/
theorem Run.takes (h : Run s items) :
    Takes s.pending items ∧ waitingAfter s.pending items = [] := by
  induction h with
  | done _ hn => exact ⟨trivial, hn⟩
  | step _ hnotices _ ih =>
    obtain ⟨htakes, hpending⟩ := hnotices.takes
    rw [hpending] at ih
    rw [takes_append, waitingAfter_append]
    exact ⟨⟨htakes, ih.1⟩, ih.2⟩

end Scan

/-! ## Attributes that fit -/

namespace Declarations

/-- The names of the functions that were declared. -/
def functionNames (d : Declarations) : List String := d.functions.map Function.name

/-- Attributes fit what took them: user constants are constant buffers and properties are textures,
the entry points are among the names of functions, and there is an input layout only for a vertex
entry point. -/
structure AttributesFit (names : List String) (d : Declarations) : Prop where
  constants : ∀ r ∈ d.resources, .constants ∈ r.marks → r.kind = .constantBuffer
  properties : ∀ r ∈ d.resources, ∀ p, .property p ∈ r.marks → r.kind = .texture2D
  vertex : ∀ name, d.vertexEntry = some name → name ∈ names
  pixel : ∀ name, d.pixelEntry = some name → name ∈ names
  layout : d.inputLayout ≠ [] → d.vertexEntry ≠ none

variable {d d' : Declarations} {names : List String} {name : String} {placed : PlacedAttribute}
  {attributes : List PlacedAttribute} {kind : ResourceKind} {inRoot : Bool} {item : Item}

theorem allows_of_check {target : Target} (h : d.check placed target name = .ok ()) :
    d.allows placed.value.kind target name = true := by
  unfold check require at h
  split at h
  · assumption
  · cases h

theorem allows_of_forM {target : Target}
    (h : attributes.forM (fun placed => d.check placed target name) = .ok ()) :
    ∀ placed ∈ attributes, d.allows placed.value.kind target name = true := by
  induction attributes with
  | nil => nofun
  | cons placed rest ih =>
    rw [List.forM_eq_forM, List.forM_cons, Reading.bind_eq_ok] at h
    obtain ⟨_, hcheck, hrest⟩ := h
    exact List.forall_mem_cons.2 ⟨allows_of_check hcheck, ih hrest⟩

theorem exists_of_mem_marksOf {mark : ResourceMark} (h : mark ∈ marksOf attributes) :
    ∃ placed ∈ attributes, (mark = .constants ∧ placed.value = .constants) ∨
      ∃ p, mark = .property p ∧ placed.value = .property p := by
  obtain ⟨placed, hp, hm⟩ := List.mem_filterMap.1 h
  refine ⟨placed, hp, ?_⟩
  cases hv : placed.value with
  | constants =>
    rw [hv] at hm
    cases hm
    exact .inl ⟨rfl, rfl⟩
  | property p =>
    rw [hv] at hm
    cases hm
    exact .inr ⟨p, rfl, rfl⟩
  | vertex | pixel | inputLayout | bindGroup =>
    rw [hv] at hm
    cases hm

namespace AttributesFit

theorem mono {more : List String} (h : AttributesFit names d) (hn : names ⊆ more) :
    AttributesFit more d :=
  { h with
    vertex := fun name he => hn (h.vertex name he)
    pixel := fun name he => hn (h.pixel name he) }

/-- Marking a function by an attribute. -/
theorem mark (h : AttributesFit names d) (hn : name ∈ names)
    (hm : d.mark name placed = .ok d') : AttributesFit names d' := by
  simp only [Declarations.mark, Reading.bind_eq_ok] at hm
  obtain ⟨_, hcheck, hm⟩ := hm
  have hallows := allows_of_check hcheck
  cases hm
  cases hv : placed.value with
  | vertex =>
    exact { h with
      vertex := by
        rintro _ ⟨⟩
        exact hn
      layout := fun _ => Option.some_ne_none name }
  | pixel =>
    exact { h with
      pixel := by
        rintro _ ⟨⟩
        exact hn }
  | inputLayout element =>
    rw [hv] at hallows
    have hentry : d.vertexEntry = some name := beq_iff_eq.1 hallows
    have hne : d.vertexEntry ≠ none := hentry ▸ Option.some_ne_none name
    exact { h with layout := fun _ => hne }
  | constants | property | bindGroup => exact h

theorem marks (h : AttributesFit names d) (hn : name ∈ names)
    (hm : attributes.foldlM (fun d placed => d.mark name placed) d = .ok d') :
    AttributesFit names d' := by
  induction attributes generalizing d with
  | nil =>
    cases hm
    exact h
  | cons placed rest ih =>
    rw [List.foldlM_cons, Reading.bind_eq_ok] at hm
    obtain ⟨d₁, h₁, hm⟩ := hm
    exact ih (h.mark hn h₁) hm

/-- Declaring a resource that takes attributes. -/
theorem resource {element : Option String} {place : Location} (h : AttributesFit names d)
    (hc : attributes.forM (fun placed => d.check placed (.resource kind) name) = .ok ()) :
    AttributesFit names { d with
      resources := d.resources ++
        [⟨kind, element, name, groupOf attributes, none, marksOf attributes, place⟩] } := by
  have hallows := allows_of_forM hc
  refine { h with constants := ?_, properties := ?_ }
  · intro r hr hmark
    rcases List.mem_append.1 hr with hr | hr
    · exact h.constants r hr hmark
    · cases List.mem_singleton.1 hr
      obtain ⟨placed, hp, ⟨_, hv⟩ | ⟨p, he, _⟩⟩ := exists_of_mem_marksOf hmark
      · have hkind := hallows placed hp
        rw [hv] at hkind
        exact beq_iff_eq.1 hkind
      · cases he
  · intro r hr p hmark
    rcases List.mem_append.1 hr with hr | hr
    · exact h.properties r hr p hmark
    · cases List.mem_singleton.1 hr
      obtain ⟨placed, hp, ⟨he, _⟩ | ⟨q, _, hv⟩⟩ := exists_of_mem_marksOf hmark
      · cases he
      · have hkind := hallows placed hp
        rw [hv] at hkind
        exact beq_iff_eq.1 hkind

/-- Taking in an item other than the start of a function. -/
theorem adds (h : AttributesFit d.functionNames d) (ha : Adds d inRoot item d')
    (hi : ∀ name attributes, item ≠ .functionStart name attributes) :
    AttributesFit d'.functionNames d' := by
  cases ha with
  | functionStart => exact absurd rfl (hi _ _)
  | resource hc => exact h.resource hc
  | @function name body =>
    have hmore := h.mono (List.subset_append_left d.functionNames [name])
    rw [functionNames, List.map_append]
    exact ⟨hmore.constants, hmore.properties, hmore.vertex, hmore.pixel, hmore.layout⟩
  | pathDirective | contentPath | bindGroup | inclusion | groupUse | bracketed | sampler | struct =>
    exact ⟨h.constants, h.properties, h.vertex, h.pixel, h.layout⟩

/-- Taking in a function, from its start on. -/
theorem function {body : ByteRange} {d₁ : Declarations} (h : AttributesFit d.functionNames d)
    (hstart : Adds d inRoot (.functionStart name attributes) d₁)
    (hbody : Adds d₁ inRoot (.function name body) d') : AttributesFit d'.functionNames d' := by
  cases hstart with
  | functionStart hm =>
    have hmore := h.mono (List.subset_append_left d.functionNames [name])
    have hmarks := hmore.marks (List.mem_append_right _ (List.mem_singleton_self name)) hm
    cases hbody with
    | function =>
      rw [functionNames, List.map_append]
      exact ⟨hmarks.constants, hmarks.properties, hmarks.vertex, hmarks.pixel, hmarks.layout⟩

theorem gathers {entries : List Entry} (h : AttributesFit d.functionNames d)
    (hg : Gathers d entries d')
    (hi : ∀ e ∈ entries, ∀ name attributes, e.item ≠ .functionStart name attributes) :
    AttributesFit d'.functionNames d' := by
  induction hg with
  | nil => exact h
  | cons ha _ ih =>
    obtain ⟨hfirst, hrest⟩ := List.forall_mem_cons.1 hi
    exact ih (h.adds ha hfirst) hrest

/-- Taking in what a step of the scan notices. A function is noticed in one step. -/
theorem take {f : Frame} {depth : Nat} {items : List Item} {s next : Scan}
    (h : AttributesFit d.functionNames d) (hn : Scan.Notices s next items)
    (ht : f.take depth items d = .ok d') : AttributesFit d'.functionNames d' := by
  have hg := Frame.gathers_of_take ht
  cases hn with
  | function =>
    cases hg with
    | cons hstart hg =>
      cases hg with
      | cons hbody hg =>
        cases hg
        exact h.function hstart hbody
  | bracket =>
    refine h.gathers hg fun e he => ?_
    obtain ⟨item, hi, rfl⟩ := List.mem_map.1 he
    rcases List.mem_append.1 hi with hi | hi
    · obtain ⟨_, _, _, rfl⟩ := Scan.mem_groupUses.1 hi
      exact nofun
    · cases List.mem_singleton.1 hi
      exact nofun
  | nothing | contentPath | bindGroup | inclusion | resource | sampler | struct =>
    exact h.gathers hg (by simp)

end AttributesFit

end Declarations

namespace Moment

variable {includes : Includes} {file source : String} {m : Moment}

theorem attributesFit_of_reachable (h : Reachable includes file source m) :
    m.declarations.AttributesFit m.declarations.functionNames := by
  induction h with
  | refl => exact ⟨nofun, nofun, nofun, nofun, nofun⟩
  | tail _ hf ih =>
    cases hf with
    | leave | enter => exact ih
    | notice hp hs _ ht => exact ih.take (Scan.notices_of_step hp hs) ht

/-- The items of a file that was scanned are resolved, if all files were left. -/
theorem Scanned.resolved {name text : String} {d : Declarations}
    (h : Scanned includes file source name text)
    (hd : Declarations.ofRoot includes file source = .ok d) :
    Item.Resolved (Outline.ofText text).items := by
  obtain ⟨m, hm, f, hf, rfl, rfl⟩ := h
  have hlinks := (stacked_of_reachable hm).reached f hf
  have hcomplete := (Declarations.gathers_of_ofRoot hd).1
  have hend := Expansion.failure_eq_none_of_links hcomplete hlinks
  obtain ⟨htakes, hnone⟩ := (Outline.run_of_ofScan hend).takes
  exact Item.resolved_of_takes htakes hnone

/-- An attribute that waits at the end of a file leads to a rejection. -/
theorem ofRoot_of_pending {f : Frame} {below : List Frame} {d : Declarations}
    {first : PlacedAttribute} {rest : List PlacedAttribute}
    (h : Reachable includes file source ⟨f :: below, d⟩) (hend : f.scan.cursor.peek = none)
    (hp : f.scan.pending = first :: rest) :
    Declarations.ofRoot includes file source =
      .error ⟨f.file, first.span,
        .unresolvedAttributes ((first :: rest).map fun placed => placed.value.kind)⟩ := by
  have hfailure : Scan.unresolved? f.scan.pending = some ⟨first.span,
      .unresolvedAttributes ((first :: rest).map fun placed => placed.value.kind)⟩ := by
    rw [hp]
    rfl
  exact ofRoot_eq_error_iff.2 ⟨_, h, .unresolved hend hfailure⟩

end Moment

namespace Shader

open Moment

variable {includes : Includes} {file source : String}

/-- Generation leaves attributes with what took them. -/
theorem attributesFit_of_generate {d : Declarations} {shader : Shader}
    (h : d.AttributesFit d.functionNames) (hg : generate file source d = .ok shader) :
    shader.toDeclarations.AttributesFit shader.functionNames := by
  obtain ⟨p, _, _, _, _, _, hshader⟩ := generate_eq_ok hg
  have hnames : shader.functionNames = d.functionNames := by
    rw [hshader, Declarations.functionNames, List.map_map]
    rfl
  have hdeclared : ∀ r ∈ shader.resources,
      ∃ declared ∈ d.resources, declared.marks = r.marks ∧ declared.kind = r.kind := by
    intro r hr
    obtain ⟨declared, hm, hslot⟩ := exists_declared hg hr
    have hmarks : declared.unslotted.marks = r.unslotted.marks := by rw [hslot]
    have hkind : declared.unslotted.kind = r.unslotted.kind := by rw [hslot]
    exact ⟨declared, hm, hmarks, hkind⟩
  rw [hnames]
  refine ⟨?constants, ?properties, ?vertex, ?pixel, ?layout⟩
  case constants =>
    intro r hr hmark
    obtain ⟨declared, hm, hmarks, hkind⟩ := hdeclared r hr
    exact hkind ▸ h.constants declared hm (hmarks ▸ hmark)
  case properties =>
    intro r hr q hmark
    obtain ⟨declared, hm, hmarks, hkind⟩ := hdeclared r hr
    exact hkind ▸ h.properties declared hm q (hmarks ▸ hmark)
  case vertex =>
    rw [hshader]
    exact h.vertex
  case pixel =>
    rw [hshader]
    exact h.pixel
  case layout =>
    rw [hshader]
    exact h.layout

/-- What becomes of the attributes of a shader. If it is generated, they are taken in each file that
was scanned, and fit what took them. If one still waits at the end of a file, the shader is
rejected. -/
structure ResolvesAttributes (includes : Includes) (file source : String) : Prop where
  resolved : ∀ shader, ofSource includes file source = .ok shader →
    ∀ name text, Scanned includes file source name text → Item.Resolved (Outline.ofText text).items
  origin : ∀ shader, ofSource includes file source = .ok shader → ∀ r ∈ shader.resources,
    ∃ name text, Scanned includes file source name text ∧
      ∃ item ∈ (Outline.ofText text).items, item.resource? = some r.unslotted
  fit : ∀ shader, ofSource includes file source = .ok shader →
    shader.toDeclarations.AttributesFit shader.functionNames
  left : ∀ f below d, Reachable includes file source ⟨f :: below, d⟩ →
    f.scan.cursor.peek = none → ∀ first rest, f.scan.pending = first :: rest →
    ofSource includes file source = .error (.rejected ⟨f.file, first.span,
      .unresolvedAttributes ((first :: rest).map fun placed => placed.value.kind)⟩)

theorem resolvesAttributes_ofSource (includes : Includes) (file source : String) :
    ResolvesAttributes includes file source where
  resolved shader h name text hscanned := by
    obtain ⟨d, hd, _⟩ := ofSource_eq_ok h
    exact hscanned.resolved hd
  origin shader h r hr := by
    obtain ⟨d, hd, hg⟩ := ofSource_eq_ok h
    obtain ⟨declared, hm, hslot⟩ := exists_declared hg hr
    obtain ⟨name, text, hscanned, ⟨item, hi, hitem⟩, _⟩ :=
      exists_scanned_of_mem (ofRoot_eq_ok_iff.1 hd) hm
    refine ⟨name, text, hscanned, item, hi, ?_⟩
    rw [hitem, ← hslot, Resource.unslotted, ← Declarations.index_eq_none hd hm]
  fit shader h := by
    obtain ⟨d, hd, hg⟩ := ofSource_eq_ok h
    exact attributesFit_of_generate (attributesFit_of_reachable (ofRoot_eq_ok_iff.1 hd)) hg
  left f below d hr hend first rest hp :=
    ofSource_eq_rejected (ofRoot_of_pending hr hend hp)

/-- An attribute waits while an included file declares a texture, which does not take it. -/
theorem exists_resolvesAttributes :
    let includes := Includes.ofFiles [("t.hlsli", "Texture2D t;\n")]
    let source := "struct S \x7b float x; \x7d;\n[constants]\n#include \"t.hlsli\"\n" ++
      "ConstantBuffer<S> c;\n"
    ∃ shader, ofSource includes "f.hlsl" source = .ok shader ∧
      Item.Resolved (Outline.ofText source).items ∧
      (Declarations.ofRoot includes "f.hlsl" source).map
        (fun d => d.resources.map fun r => (r.kind, r.name, r.marks)) =
        .ok [(.texture2D, "t", []), (.constantBuffer, "c", [.constants])] := by
  intro includes source
  have hplan : planned includes "f.hlsl" source = .ok (some ⟨.combined, 4, 4⟩) := by
    decide +kernel
  obtain ⟨shader, h⟩ := exists_ofSource hplan
  have hscanned : Scanned includes "f.hlsl" source "f.hlsl" source :=
    ⟨_, .refl, _, List.mem_singleton_self _, rfl, rfl⟩
  have hresolved := (resolvesAttributes_ofSource includes "f.hlsl" source).resolved shader h
  exact ⟨shader, h, hresolved "f.hlsl" source hscanned, by decide +kernel⟩

end Shader

end BindlessHlsl
