import BindlessHlsl.Proofs.ConstantsBudget
import BindlessHlsl.Proofs.FailurePlaces
import BindlessHlsl.Proofs.IncludeStack

/-!
Where shaders are rejected. A step of a scan notices items and leaves attributes only at places of
the text that is scanned (`Scan.marked_step`), and so does every file on the stack of a run
(`Moment.located_of_reachable`). A rejection while files are scanned names the file whose text its
span lies in. User constants are collected after all files are left and are always rejected in the
name of the root file, also those that an included file declares (`Shader.Locates`).
-/

namespace BindlessHlsl

/-! ## Places of items -/

/-- The places for which an item, or what it declares, can be rejected. -/
def Item.spans : Item → List Span
  | .pathDirective place => [.point place]
  | .bindGroup _ place _ => [.point place]
  | .inclusion _ place => [.point place]
  | .groupUse _ place => [.point place]
  | .resource _ _ _ place attributes _ => .point place :: attributes.map PlacedAttribute.span
  | .struct _ place _ => [.point place]
  | .functionStart _ attributes => attributes.map PlacedAttribute.span
  | _ => []

theorem exists_of_foldlM {α β ε : Type} {f : β → α → Except ε β} {xs : List α} {b : β} {e : ε}
    (h : xs.foldlM f b = .error e) : ∃ b', ∃ x ∈ xs, f b' x = .error e := by
  induction xs generalizing b with
  | nil => cases h
  | cons x rest ih =>
    rw [List.foldlM_cons] at h
    cases hx : f b x with
    | error e' =>
      rw [hx] at h
      cases h
      exact ⟨b, x, List.mem_cons_self, hx⟩
    | ok b₁ =>
      rw [hx] at h
      obtain ⟨b', y, hy, he⟩ := ih h
      exact ⟨b', y, List.mem_cons_of_mem _ hy, he⟩

theorem exists_of_forM {α ε : Type} {f : α → Except ε PUnit} {xs : List α} {e : ε}
    (h : xs.forM f = .error e) : ∃ x ∈ xs, f x = .error e := by
  induction xs with
  | nil => cases h
  | cons x rest ih =>
    rw [List.forM_eq_forM, List.forM_cons] at h
    cases hx : f x with
    | error e' =>
      rw [hx] at h
      cases h
      exact ⟨x, List.mem_cons_self, hx⟩
    | ok _ =>
      rw [hx] at h
      obtain ⟨y, hy, he⟩ := ih h
      exact ⟨y, List.mem_cons_of_mem _ hy, he⟩

namespace Declarations

variable {d : Declarations} {placed : PlacedAttribute} {name : String} {failure : Failure}

theorem span_of_check {target : Target} (h : d.check placed target name = .error failure) :
    failure.span = placed.span := by
  unfold check require at h
  split at h <;> cases h
  rfl

theorem span_of_mark (h : d.mark name placed = .error failure) : failure.span = placed.span := by
  cases hc : d.check placed .function name with
  | error failure' =>
    rw [mark, hc] at h
    cases h
    exact span_of_check hc
  | ok _ =>
    rw [mark, hc] at h
    cases h

/-- An item is rejected at one of its places. -/
theorem span_mem_of_addItem {inRoot : Bool} {item : Item}
    (h : d.addItem inRoot item = .error failure) : failure.span ∈ item.spans := by
  cases item with
  | contentPath | inclusion | bracketed | sampler | function => cases h
  | pathDirective place =>
    simp only [addItem, checkPath] at h
    split at h
    · split at h <;> cases h
      exact List.mem_singleton_self _
    · cases h
      exact List.mem_singleton_self _
  | bindGroup | groupUse =>
    simp only [addItem] at h
    split at h <;> cases h
    exact List.mem_singleton_self _
  | struct =>
    simp only [addItem, addStruct] at h
    split at h <;> cases h
    exact List.mem_singleton_self _
  | resource kind element name place attributes range =>
    cases hc : attributes.forM fun placed => d.check placed (.resource kind) name with
    | ok _ =>
      rw [addItem, addResource, hc] at h
      cases h
    | error failure' =>
      rw [addItem, addResource, hc] at h
      cases h
      obtain ⟨placed, hp, he⟩ := exists_of_forM hc
      rw [span_of_check he]
      exact List.mem_cons_of_mem _ (List.mem_map_of_mem hp)
  | functionStart name attributes =>
    obtain ⟨d', placed, hp, he⟩ := exists_of_foldlM h
    rw [span_of_mark he]
    exact List.mem_map_of_mem hp

end Declarations

/-! ## Steps of a scan -/

namespace Item

variable {o : Cursor} {items more : List Item} {item : Item}

/-- The items have their places where a cursor reaches. -/
def Marked (o : Cursor) (items : List Item) : Prop :=
  ∀ item ∈ items, ∀ span ∈ item.spans, o.Marks span

theorem marked_nil : Marked o [] := by
  intro item h
  cases h

theorem marked_singleton : Marked o [item] ↔ ∀ span ∈ item.spans, o.Marks span :=
  List.forall_mem_singleton

theorem Marked.append (h : Marked o items) (h' : Marked o more) : Marked o (items ++ more) :=
  List.forall_mem_append.2 ⟨h, h'⟩

theorem marked_of_point {c : Cursor} (h : o.Reaches c) (hi : item.spans = [.point c.location]) :
    Marked o [item] := by
  rw [marked_singleton, hi]
  exact List.forall_mem_singleton.2 (.point h)

theorem marked_of_nil (hi : item.spans = []) : Marked o [item] := by
  rw [marked_singleton, hi]
  intro span h
  cases h

end Item

/-- The scan stands at a place that a cursor reaches, and so do the attributes that wait. -/
structure Scan.Marked (o : Cursor) (s : Scan) : Prop where
  cursor : o.Reaches s.cursor
  pending : ∀ placed ∈ s.pending, o.Marks placed.span

/-- Everything that a step notices stands at places that a cursor reaches, and so does its
failure. -/
structure Step.Marked (o : Cursor) (step : Step) : Prop where
  items : Item.Marked o step.items
  failure : Reading.FailsIn o step.next
  scan : ∀ s, step.next = .ok s → s.Marked o

namespace Step.Marked

variable {o : Cursor} {items : List Item}

theorem of_ok {s : Scan} (hi : Item.Marked o items) (hs : s.Marked o) :
    Step.Marked o ⟨items, .ok s⟩ where
  items := hi
  failure := Reading.failsIn_ok
  scan := by
    rintro _ ⟨⟩
    exact hs

theorem of_error {α : Type} {x : Reading α} {failure : Failure} (hi : Item.Marked o items)
    (hx : Reading.FailsIn o x) (h : x = .error failure) :
    Step.Marked o ⟨items, .error failure⟩ where
  items := hi
  failure := hx.of_error h
  scan := by
    intro s hs
    cases hs

end Step.Marked

theorem Cursor.Reaches.skipLine_of_expectQuoted {o c next : Cursor} {what : Expectation}
    {content : String} (h : o.Reaches c) (hq : c.expectQuoted what = .ok (content, next)) :
    o.Reaches next.skipLine :=
  (h.trans (reaches_of_expectQuoted hq)).trans next.reaches_skipLine

namespace Scan

open Item (marked_nil marked_of_point marked_of_nil)
open Step.Marked (of_ok of_error)

variable {s : Scan} {o c : Cursor}

theorem marked_declared (hc : o.Reaches c) : (declared c).Marked o :=
  ⟨hc, List.forall_mem_nil _⟩

theorem marked_ofText (text : String) : (ofText text).Marked (.ofText text) :=
  marked_declared (.refl _)

theorem Marked.moved (h : s.Marked o) (hc : o.Reaches c) (atDeclaration : Bool) :
    (s.moved c atDeclaration).Marked o := ⟨hc, h.pending⟩

theorem marked_contentPath (h : s.Marked o) (hc : o.Reaches c) : (s.contentPath c).Marked o := by
  have hplace : Item.Marked o [.pathDirective s.cursor.location] := marked_of_point h.cursor rfl
  unfold contentPath
  dsimp only
  split
  next hq => exact of_error hplace (Cursor.failsIn_expectQuoted hc) hq
  next hq =>
    exact of_ok (hplace.append (marked_of_nil rfl)) (h.moved (hc.skipLine_of_expectQuoted hq) true)

theorem marked_bindGroup (h : s.Marked o) (hc : o.Reaches c) : (s.bindGroup c).Marked o := by
  unfold bindGroup
  split
  next hq => exact of_error marked_nil (Cursor.failsIn_expectQuoted hc) hq
  next hq =>
    exact of_ok (marked_of_point h.cursor rfl) (h.moved (hc.skipLine_of_expectQuoted hq) true)

theorem marked_inclusion (h : s.Marked o) (hc : o.Reaches c) : (s.inclusion c).Marked o := by
  unfold inclusion
  split
  next hq => exact of_error marked_nil (Cursor.failsIn_expectQuoted hc) hq
  next hq =>
    exact of_ok (marked_of_point h.cursor rfl) (h.moved (hc.skipLine_of_expectQuoted hq) true)

theorem marked_pragma (h : s.Marked o) (hc : o.Reaches c) : (s.pragma c).Marked o := by
  have hn := (hc.trans c.reaches_skipInline).trans (Cursor.reaches_identifier _)
  unfold pragma
  dsimp only
  split
  · exact marked_contentPath h hn
  split
  · exact marked_bindGroup h hn
  · exact of_ok marked_nil (h.moved (hn.trans (Cursor.reaches_skipLine _)) true)

theorem marked_directive (h : s.Marked o) : s.directive.Marked o := by
  have hinline := (h.cursor.trans (s.cursor.reaches_advance 1)).trans (Cursor.reaches_skipInline _)
  have hn := hinline.trans (Cursor.reaches_identifier _)
  unfold directive
  dsimp only
  split
  · exact marked_inclusion h hn
  split
  · exact marked_pragma h hn
  · exact of_ok marked_nil (h.moved (hn.trans (Cursor.reaches_skipLine _)) true)

theorem marked_groupUses (h : s.Marked o) (a : Attribute) :
    Item.Marked o (groupUses a s.cursor.location) := by
  intro item hi
  obtain ⟨group, _, _, rfl⟩ := mem_groupUses.1 hi
  exact List.forall_mem_singleton.2 (.point h.cursor)

theorem eq_of_mem_awaited {placed waiting : PlacedAttribute} (h : waiting ∈ awaited placed) :
    waiting = placed := by
  unfold awaited at h
  split at h
  · split at h
    · cases h
    · exact List.mem_singleton.1 h
  · exact List.mem_singleton.1 h

theorem marked_bracket {b : UInt8} (h : s.Marked o) (hp : s.cursor.peek = some b) :
    s.bracket.Marked o := by
  unfold bracket
  dsimp only
  split
  next ha => exact of_error marked_nil (Attribute.failsIn_read h.cursor) ha
  next a next ha =>
    have huses := marked_groupUses h a
    -- The opening bracket is passed, so the attribute ends behind its start.
    have hpasses := (Cursor.passes_of_peek hp).trans (Attribute.reaches_of_read ha)
    split
    next he => exact of_error huses (Cursor.failsIn_expectByte (h.cursor.trans hpasses.reaches)) he
    next stop he =>
      have hstop := hpasses.trans (Cursor.passes_of_expectByte he).reaches
      refine of_ok (huses.append (marked_of_nil rfl)) ⟨h.cursor.trans hstop.reaches, ?_⟩
      intro placed hm
      rcases List.mem_append.1 hm with hm | hm
      · exact h.pending placed hm
      · rw [eq_of_mem_awaited hm]
        exact .between h.cursor hstop

theorem marked_resource {kind : ResourceKind} (h : s.Marked o) (hc : o.Reaches c) :
    (s.resource kind c).Marked o := by
  unfold resource
  split
  next hr => exact of_error marked_nil (Resource.failsIn_read hc) hr
  next hr =>
    have hstop := (hc.trans (Resource.passes_of_read hr).reaches).trans
      (Resource.reaches_skipDeclaration _)
    refine of_ok (Item.marked_singleton.2 ?_) (marked_declared hstop)
    exact List.forall_mem_cons.2 ⟨.point h.cursor, List.forall_mem_map.2 h.pending⟩

theorem marked_sampler (h : s.Marked o) (hc : o.Reaches c) : (s.sampler c).Marked o := by
  unfold sampler
  split
  next hs => exact of_error marked_nil (Sampler.failsIn_read hc) hs
  next => exact of_ok marked_nil (h.moved hc false)
  next hs =>
    exact of_ok (marked_of_nil rfl) (h.moved (hc.trans (Sampler.reaches_of_read hs)) true)

theorem marked_struct (h : s.Marked o) (hc : o.Reaches c) : (s.struct c).Marked o := by
  unfold struct
  split
  next hs => exact of_error marked_nil (Struct.failsIn_read hc) hs
  next hs => exact of_ok marked_nil (h.moved (hc.trans (Struct.reaches_of_read hs)) false)
  next hs =>
    exact of_ok (marked_of_point h.cursor rfl) (h.moved (hc.trans (Struct.reaches_of_read hs)) true)

theorem marked_function {name : String} (h : s.Marked o) (hc : o.Reaches c) :
    (s.function name c).Marked o := by
  have hstart : Item.Marked o [.functionStart name s.pending] :=
    Item.marked_singleton.2 (List.forall_mem_map.2 h.pending)
  unfold function
  dsimp only
  split
  next => exact of_error (α := Scan) hstart (Reading.failsIn_at h.cursor) rfl
  next stop hb =>
    have hstop := ((hc.trans (c.reaches_advance 1)).trans (Function.reaches_of_closeBody hb)).trans
      (stop.reaches_advance 1)
    exact of_ok (hstart.append (marked_of_nil rfl)) (marked_declared hstop)

theorem marked_word (h : s.Marked o) : s.word.Marked o := by
  have hn := h.cursor.trans s.cursor.reaches_identifier
  unfold word
  dsimp only
  split
  · exact marked_resource h hn
  split
  · exact marked_sampler h hn
  split
  · exact marked_struct h hn
  split
  next hf => exact marked_function h (hn.trans (Function.passes_of_bodyStart? hf).reaches)
  next => exact of_ok marked_nil (h.moved hn false)

/-- A step at a byte of a text keeps to places of that text. -/
theorem marked_step {b : UInt8} (h : s.Marked o) (hp : s.cursor.peek = some b) :
    (s.step b).Marked o := by
  unfold step
  split
  next hc =>
    exact of_ok marked_nil (h.moved (h.cursor.trans (Cursor.passes_skipComment hc).reaches) _)
  split
  next hq =>
    exact of_ok marked_nil (h.moved (h.cursor.trans (Cursor.passes_skipString (hq ▸ hp)).reaches) _)
  split
  · exact marked_directive h
  split
  · exact marked_bracket h hp
  split
  · exact marked_word h
  · exact of_ok marked_nil (h.moved (h.cursor.trans (s.cursor.reaches_advance 1)) _)

end Scan

/-! ## Files of a run -/

theorem Item.point_mem_spans {item : Item} {v : Resource} (h : item.resource? = some v) :
    .point v.location ∈ item.spans := by
  cases item with
  | resource =>
    cases h
    exact List.mem_cons_self
  | _ => cases h

theorem Scan.exists_of_unresolved? {pending : List PlacedAttribute} {failure : Failure}
    (h : unresolved? pending = some failure) : ∃ placed ∈ pending, failure.span = placed.span := by
  cases pending with
  | nil => cases h
  | cons first rest =>
    cases h
    exact ⟨first, List.mem_cons_self, rfl⟩

namespace Frame

/-- What holds of a file while it is scanned: the scan keeps to places of its text, which is that of
the root file or was found under the name of the file. -/
structure Located (includes : Includes) (file source : String) (f : Frame) : Prop where
  marked : f.scan.Marked (.ofText f.text)
  origin : (f.file = file ∧ f.text = source) ∨ includes.find f.file = .found f.text

variable {includes : Includes} {file source : String} {f : Frame} {depth : Nat} {items : List Item}
  {d d' : Declarations}

theorem located_opened {name text : String}
    (h : (name = file ∧ text = source) ∨ includes.find name = .found text) :
    (opened name text).Located includes file source :=
  ⟨Scan.marked_ofText text, h⟩

theorem Located.step {b : UInt8} {step : Step} (h : f.Located includes file source)
    (hp : f.scan.cursor.peek = some b) (hs : f.scan.step b = step) :
    step.Marked (.ofText f.text) :=
  hs ▸ Scan.marked_step h.marked hp

theorem Located.moved {b : UInt8} {scan : Scan} (h : f.Located includes file source)
    (hp : f.scan.cursor.peek = some b) (hs : f.scan.step b = ⟨items, .ok scan⟩) :
    (f.moved scan).Located includes file source :=
  ⟨(h.step hp hs).scan scan rfl, h.origin⟩

theorem exists_of_take {r : Rejection} (h : f.take depth items d = .error r) :
    ∃ item ∈ items, r.file = f.file ∧ r.span ∈ item.spans := by
  obtain ⟨d₁, item, hi, ha⟩ := exists_of_foldlM h
  refine ⟨item, hi, ?_⟩
  unfold Declarations.add at ha
  generalize hx : d₁.addItem (Entry.inRoot ⟨f.file, depth, item⟩) item = x at ha
  cases x with
  | ok _ => cases ha
  | error failure =>
    cases ha
    exact ⟨rfl, Declarations.span_mem_of_addItem hx⟩

theorem gathers_of_take (h : f.take depth items d = .ok d') :
    Declarations.Gathers d (items.map (Entry.mk f.file depth)) d' := by
  refine Declarations.gathers_of_foldlM ?_
  rw [List.foldlM_map]
  exact h

theorem mem_resources_of_take {v : Resource} (h : f.take depth items d = .ok d')
    (hv : v ∈ d'.resources) : v ∈ d.resources ∨ ∃ item ∈ items, item.resource? = some v := by
  rw [(gathers_of_take h).resources] at hv
  rcases List.mem_append.1 hv with hv | hv
  · exact .inl hv
  · obtain ⟨e, he, hr⟩ := List.mem_filterMap.1 hv
    obtain ⟨item, hi, rfl⟩ := List.mem_map.1 he
    exact .inr ⟨item, hi, hr⟩

end Frame

namespace Moment

variable {includes : Includes} {file source name text : String} {m m' : Moment}

/-- In a run from a root file on, a file with a name and a text is scanned. -/
def Scanned (includes : Includes) (file source name text : String) : Prop :=
  ∃ m, Reachable includes file source m ∧ ∃ f ∈ m.stack, f.file = name ∧ f.text = text

theorem located_of_follows (h : Follows includes m m')
    (hm : ∀ f ∈ m.stack, f.Located includes file source) :
    ∀ f ∈ m'.stack, f.Located includes file source := by
  obtain ⟨stack, d⟩ := m
  cases h with
  | leave => exact (List.forall_mem_cons.1 hm).2
  | notice hp hs =>
    obtain ⟨hf, hbelow⟩ := List.forall_mem_cons.1 hm
    exact List.forall_mem_cons.2 ⟨hf.moved hp hs, hbelow⟩
  | enter hp hs _ hfound =>
    obtain ⟨hf, hbelow⟩ := List.forall_mem_cons.1 hm
    exact List.forall_mem_cons.2
      ⟨Frame.located_opened (.inr hfound), List.forall_mem_cons.2 ⟨hf.moved hp hs, hbelow⟩⟩

theorem located_of_reachable (h : Reachable includes file source m) :
    ∀ f ∈ m.stack, f.Located includes file source := by
  induction h with
  | refl => exact List.forall_mem_singleton.2 (Frame.located_opened (.inl ⟨rfl, rfl⟩))
  | tail _ hf ih => exact located_of_follows hf ih

theorem Scanned.origin (h : Scanned includes file source name text) :
    (name = file ∧ text = source) ∨ includes.find name = .found text := by
  obtain ⟨m, hm, f, hf, rfl, rfl⟩ := h
  exact (located_of_reachable hm f hf).origin

/-- A moment is rejected in the name of a file that is being scanned, at a place of its text. -/
theorem Stops.exists_marks {r : Rejection} (h : Stops includes m r)
    (hm : ∀ f ∈ m.stack, f.Located includes file source) :
    ∃ f ∈ m.stack, r.file = f.file ∧ (Cursor.ofText f.text).Marks r.span := by
  cases h with
  | @unresolved f below d failure hp hu =>
    have hf := hm f List.mem_cons_self
    obtain ⟨placed, hmem, hspan⟩ := Scan.exists_of_unresolved? hu
    refine ⟨f, List.mem_cons_self, rfl, ?_⟩
    change Cursor.Marks _ failure.span
    rw [hspan]
    exact hf.marked.pending placed hmem
  | @item f below d b items next r hp hs ht =>
    have hstep := (hm f List.mem_cons_self).step hp hs
    obtain ⟨item, hi, hfile, hspan⟩ := Frame.exists_of_take ht
    exact ⟨f, List.mem_cons_self, hfile, hstep.items item hi _ hspan⟩
  | @reading f below d d' b items failure hp hs ht =>
    have hstep := (hm f List.mem_cons_self).step hp hs
    exact ⟨f, List.mem_cons_self, rfl, hstep.failure failure rfl⟩
  | @inclusion f below d b scan path place cause hp hs hr =>
    have hstep := (hm f List.mem_cons_self).step hp hs
    exact ⟨f, List.mem_cons_self, rfl,
      hstep.items _ List.mem_cons_self _ (List.mem_singleton_self _)⟩

/-- A resource was declared by a file that was scanned, at a place of its text. -/
theorem exists_scanned_of_mem {v : Resource} (h : Reachable includes file source m)
    (hv : v ∈ m.declarations.resources) :
    ∃ name text, Scanned includes file source name text ∧
      (∃ item ∈ (Outline.ofText text).items, item.resource? = some v) ∧
      (Cursor.ofText text).Marks (.point v.location) := by
  induction h with
  | refl => cases hv
  | @tail m m' hm hf ih =>
    cases hf with
    | leave => exact ih hv
    | enter => exact ih hv
    | @notice f below d d' b items scan hp hs _ ht =>
      rcases Frame.mem_resources_of_take ht hv with hv | ⟨item, hi, hr⟩
      · exact ih hv
      · have hstep := (located_of_reachable hm f List.mem_cons_self).step hp hs
        have hscanning := (stacked_of_reachable hm).scanning f List.mem_cons_self
        exact ⟨f.file, f.text, ⟨_, hm, f, List.mem_cons_self, rfl, rfl⟩,
          ⟨item, hscanning.mem_items hp hs hi, hr⟩, hstep.items item hi _ (item.point_mem_spans hr)⟩

end Moment

/-! ## User constants -/

namespace UserConstants

/-- A constant buffer is rejected in the name of a file. -/
structure Refuses (file : String) (v : Resource) (r : Rejection) : Prop where
  file_eq : r.file = file
  span_eq : r.span = .point v.location
  cause_eq : (∃ name, r.cause = .constantsStructInInclude name) ∨
    ∃ total, r.cause = .constantsOverflow total budget

variable {file : String} {u : UserConstants} {v : Resource} {r : Rejection} {d : Declarations}

theorem refuses_of_addField {s : Struct} (h : u.addField file v s = .error (.rejected r)) :
    Refuses file v r := by
  unfold addField at h
  split at h
  · cases h
    exact ⟨rfl, rfl, .inl ⟨_, rfl⟩⟩
  · rcases Stop.eq_overflow_or_of_bind h with h | ⟨size, _, h⟩
    · cases h
    rcases Stop.eq_overflow_or_of_bind h with h | ⟨total, _, h⟩
    · cases h
    split at h <;> cases h
    exact ⟨rfl, rfl, .inr ⟨_, rfl⟩⟩

theorem exists_of_ofDeclarations (h : ofDeclarations file d = .error (.rejected r)) :
    ∃ v ∈ d.resources, v.isConstants = true ∧ Refuses file v r := by
  obtain ⟨u, v, hv, ha⟩ := exists_of_foldlM h
  obtain ⟨hmem, hconstants⟩ := List.mem_filter.1 hv
  refine ⟨v, hmem, hconstants, ?_⟩
  unfold add at ha
  split at ha
  · cases ha
  · exact refuses_of_addField ha

end UserConstants

/-! ## Rejections of a shader -/

namespace Shader

open Moment

variable {includes : Includes} {file source : String} {r : Rejection} {d : Declarations}

theorem constants_of_generate (h : generate file source d = .error (.rejected r)) :
    UserConstants.ofDeclarations file d = .error (.rejected r) := by
  cases hc : UserConstants.ofDeclarations file d with
  | error stop =>
    rw [generate_eq_error_of_constants hc] at h
    cases h
    rfl
  | ok u =>
    cases hl : ConstantsLayout.ofResources (Resource.table d.resources) u.size with
    | error stop =>
      rw [ConstantsLayout.eq_overflow_of_ofResources hl] at hl
      simp only [generate, hc, bind, Except.bind, hl] at h
      cases h
    | ok layout =>
      simp only [generate, hc, bind, Except.bind, hl] at h
      split at h <;> cases h

/-- A rejection lies in the text of a file that is scanned. It names that file, unless it refuses a
constant buffer that an included file declares. -/
structure Locates (includes : Includes) (file source : String) (r : Rejection)
    (name text : String) : Prop where
  scanned : Scanned includes file source name text
  origin : (name = file ∧ text = source) ∨ includes.find name = .found text
  lies : r.span.LiesIn text
  named : r.file = name ∨
    includes.find name = .found text ∧ ∃ d v, Declarations.ofRoot includes file source = .ok d ∧
      v ∈ d.resources ∧ v.isConstants = true ∧ UserConstants.Refuses file v r ∧
      ∃ item ∈ (Outline.ofText text).items, item.resource? = some v

theorem locates_of_ofRoot (h : Declarations.ofRoot includes file source = .error r) :
    ∃ text, Locates includes file source r r.file text := by
  obtain ⟨m, hm, hs⟩ := ofRoot_eq_error_iff.1 h
  obtain ⟨f, hf, hfile, hmarks⟩ := hs.exists_marks (located_of_reachable hm)
  have hscanned : Scanned includes file source r.file f.text := ⟨m, hm, f, hf, hfile.symm, rfl⟩
  exact ⟨f.text, hscanned, hscanned.origin, hmarks.liesIn, .inl rfl⟩

theorem locates_of_generate (hd : Declarations.ofRoot includes file source = .ok d)
    (h : generate file source d = .error (.rejected r)) :
    ∃ name text, Locates includes file source r name text := by
  obtain ⟨v, hv, hconstants, hr⟩ := UserConstants.exists_of_ofDeclarations (constants_of_generate h)
  obtain ⟨name, text, hscanned, hdeclared, hmarks⟩ :=
    exists_scanned_of_mem (ofRoot_eq_ok_iff.1 hd) hv
  refine ⟨name, text, hscanned, hscanned.origin, hr.span_eq ▸ hmarks.liesIn, ?_⟩
  -- The resource does not say which file declared it: the root file is named in both cases.
  rcases hscanned.origin with ⟨hname, _⟩ | hfound
  · exact .inl (hr.file_eq.trans hname.symm)
  · exact .inr ⟨hfound, d, v, hd, hv, hconstants, hr, hdeclared⟩

theorem locates_ofSource (h : ofSource includes file source = .error (.rejected r)) :
    ∃ name text, Locates includes file source r name text := by
  cases hd : Declarations.ofRoot includes file source with
  | error r' =>
    rw [ofSource_eq_rejected hd] at h
    cases h
    obtain ⟨text, hl⟩ := locates_of_ofRoot hd
    exact ⟨r.file, text, hl⟩
  | ok d =>
    rw [ofSource_eq_generate hd] at h
    exact locates_of_generate hd h

theorem exists_locates :
    let includes := Includes.ofFiles [("i.hlsl", "float4 f;\n  [vertex]\nTexture2D t;\n")]
    let source := "Texture2D s;\n#include \"i.hlsl\"\n"
    ∃ r, ofSource includes "f.hlsl" source = .error (.rejected r) ∧ r.file = "i.hlsl" ∧
      r.span = .range ⟨2, 3⟩ ⟨2, 11⟩ ∧
        ∃ name text, Locates includes "f.hlsl" source r name text := by
  intro includes source
  have h : ofSource includes "f.hlsl" source = .error (.rejected
      ⟨"i.hlsl", .range ⟨2, 3⟩ ⟨2, 11⟩, .invalidAttribute .vertex (.resource .texture2D)⟩) := by
    decide +kernel
  exact ⟨_, h, rfl, rfl, locates_ofSource h⟩

/-- The struct behind a constant buffer stands in the included file that declares the buffer. The
rejection names the root file, and there is no such place in it. -/
theorem included_constants_misnamed :
    let includes := Includes.ofFiles
      [("i.hlsl", "struct S \x7b float x; \x7d;\n[constants] ConstantBuffer<S> c;\n")]
    let source := "#include \"i.hlsl\"\n"
    ∃ r, ofSource includes "f.hlsl" source = .error (.rejected r) ∧ r.file = "f.hlsl" ∧
      ¬∃ text, Scanned includes "f.hlsl" source r.file text ∧ r.span.LiesIn text := by
  intro includes source
  have h : ofSource includes "f.hlsl" source =
      .error (.rejected ⟨"f.hlsl", .point ⟨2, 13⟩, .constantsStructInInclude "S"⟩) := by
    decide +kernel
  refine ⟨_, h, rfl, ?_⟩
  rintro ⟨text, hscanned, hlies⟩
  have hmissing : includes.find "f.hlsl" = .missing := by decide +kernel
  rcases hscanned.origin with ⟨_, rfl⟩ | hfound
  · have hnone : ¬∃ offset ≤ Utf8.length source, Location.ofOffset source offset = ⟨2, 13⟩ := by
      decide +kernel
    exact hnone hlies
  · rw [hmissing] at hfound
    cases hfound

end Shader

end BindlessHlsl
