import BindlessHlsl.Proofs.ScanSteps

/-!
The items of a text that was scanned to its end. Their ranges lie in the text one behind the other
and cut no character apart (`Scan.Run.ranges`), a function body stands between its braces
(`Scan.Run.function_braces`), the names of resources are identifiers, and a bind group that a
resource takes from an attribute is referred to (`Scan.Run.groupUse_of_resource`).
-/

namespace BindlessHlsl

open Ascii Utf8

/-- The name and the body of the function that an item declares. -/
def Item.body? : Item → Option (String × ByteRange)
  | .function name body => some (name, body)
  | _ => none

theorem Item.range?_of_blanked? {item : Item} {range : ByteRange} (h : item.blanked? = some range) :
    item.range? = some range := by
  cases item with
  | struct => cases h
  | function => cases h
  | _ => exact h

/-- A range inside a text, from an offset on, that cuts no character apart. -/
structure ByteRange.Lies (source : String) (offset : Nat) (r : ByteRange) : Prop where
  le_start : offset ≤ r.start
  start_le : r.start ≤ r.stop
  stop_le : r.stop ≤ length source
  start_boundary : IsBoundary source.toList r.start
  stop_boundary : IsBoundary source.toList r.stop

theorem ByteRange.Lies.mono {source : String} {m n : Nat} {r : ByteRange} (h : r.Lies source n)
    (hm : m ≤ n) : r.Lies source m :=
  { h with le_start := Nat.le_trans hm h.le_start }

namespace Scan

variable {source : String} {s next : Scan} {items : List Item}

theorem lies_rangeUntil (hs : Cursor.Within (encode source) s.cursor)
    (hp : s.cursor.Passes next.cursor) (hw : Whole s next) :
    (s.cursor.rangeUntil next.cursor).Lies source s.cursor.pos where
  le_start := Nat.le_refl _
  start_le := hp.reaches.pos_le
  stop_le := (hs.reaches hp.reaches).pos_le
  start_boundary := hw.1.isBoundary hs
  stop_boundary := hw.2.isBoundary (hs.reaches hp.reaches)

theorem lies_body {brace stop : Cursor} (hs : Cursor.Within (encode source) s.cursor)
    (hb : s.cursor.Passes brace) (ho : brace.peek = some openBrace)
    (hr : (brace.advance 1).Reaches stop) (hc : stop.peek = some closeBrace) :
    ((brace.advance 1).rangeUntil stop).Lies source s.cursor.pos := by
  have hstart := (hs.reaches hb.reaches).advance 1
  have hstop := hstart.reaches hr
  exact {
    le_start := (hb.trans (brace.reaches_advance 1)).reaches.pos_le
    start_le := hr.pos_le
    stop_le := hstop.pos_le
    start_boundary := (Cursor.onBoundary_advance_of_peek ho rfl).isBoundary hstart
    stop_boundary := (Cursor.onBoundary_of_peek hc rfl).isBoundary hstop }

theorem mem_groupUses {a : Attribute} {place : Location} {item : Item} :
    item ∈ groupUses a place ↔
      ∃ group, a = .bindGroup group ∧ group.isDefault = false ∧ item = .groupUse group place := by
  unfold groupUses
  cases a with
  | bindGroup group => by_cases hd : group.isDefault = true <;> simp [hd]
  | _ => simp

/-- A step notices at most one range, and it lies in what the step passed. -/
theorem Notices.ranges (h : Notices s next items) (hs : Cursor.Within (encode source) s.cursor)
    (hp : s.cursor.Passes next.cursor) :
    items.filterMap Item.range? = [] ∨ ∃ r, items.filterMap Item.range? = [r] ∧
      r.Lies source s.cursor.pos ∧ r.stop ≤ next.cursor.pos := by
  cases h with
  | nothing _ | inclusion _ => exact .inl rfl
  | contentPath _ hw | bindGroup _ hw | sampler _ hw | struct _ hw =>
    exact .inr ⟨_, rfl, lies_rangeUntil hs hp hw, Nat.le_refl _⟩
  | resource _ _ _ hw => exact .inr ⟨_, rfl, lies_rangeUntil hs hp hw, Nat.le_refl _⟩
  | @bracket placed _ hw =>
    refine .inr ⟨_, ?_, lies_rangeUntil hs hp hw, Nat.le_refl _⟩
    rw [List.filterMap_append]
    have hu : (groupUses placed.value s.cursor.location).filterMap Item.range? = [] := by
      refine List.filterMap_eq_nil_iff.2 fun item hi => ?_
      obtain ⟨group, _, _, rfl⟩ := mem_groupUses.1 hi
      rfl
    rw [hu]
    rfl
  | function _ hb ho hr hc hn =>
    refine .inr ⟨_, rfl, lies_body hs hb ho hr hc, ?_⟩
    rw [hn]
    exact (Cursor.reaches_advance _ 1).pos_le

/-- The ranges of items lie one behind the other. -/
theorem Run.ranges (h : s.Run items) (hs : Cursor.Within (encode source) s.cursor) :
    (items.filterMap Item.range?).Pairwise (fun a b => a.stop ≤ b.start) ∧
      ∀ r ∈ items.filterMap Item.range?, r.Lies source s.cursor.pos := by
  induction h with
  | done => simp
  | @step s next items more hp hn _ ih =>
    obtain ⟨ho, hl⟩ := ih (hs.reaches hp.reaches)
    have hlater : ∀ r ∈ more.filterMap Item.range?, r.Lies source s.cursor.pos := fun r hr =>
      (hl r hr).mono hp.reaches.pos_le
    rw [List.filterMap_append]
    rcases hn.ranges hs hp with h₀ | ⟨r, hr, hlies, hstop⟩
    · rw [h₀]
      exact ⟨ho, hlater⟩
    · rw [hr]
      refine ⟨List.pairwise_cons.2 ⟨fun r' hr' => ?_, ho⟩, fun r' hr' => ?_⟩
      · exact Nat.le_trans hstop (hl r' hr').le_start
      · rcases List.mem_cons.1 hr' with rfl | hr'
        · exact hlies
        · exact hlater r' hr'

/-- The ranges of two items have no offset in common. -/
theorem Run.disjoint {x y : Item} {a b : ByteRange} (h : s.Run items)
    (hs : Cursor.Within (encode source) s.cursor) (hx : x ∈ items) (hy : y ∈ items) (hne : x ≠ y)
    (ha : x.range? = some a) (hb : y.range? = some b) : a.stop ≤ b.start ∨ b.stop ≤ a.start := by
  have hp := List.pairwise_filterMap.1 (h.ranges hs).1
  refine List.Pairwise.forall_of_forall_of_flip
    (R := fun x y => x ≠ y → ∀ a, x.range? = some a → ∀ b, y.range? = some b →
      a.stop ≤ b.start ∨ b.stop ≤ a.start) ?_ ?_ ?_ hx hy hne a ha b hb
  · exact fun x _ hne => absurd rfl hne
  · exact hp.imp fun hxy _ a ha b hb => .inl (hxy a ha b hb)
  · exact hp.imp fun hxy _ a ha b hb => .inr (hxy b hb a ha)

/-- A step notices at most one function body, and passes its braces. -/
theorem Notices.bodies (h : Notices s next items) :
    items.filterMap Item.body? = [] ∨ ∃ name body, items.filterMap Item.body? = [(name, body)] ∧
      s.cursor.pos < body.start ∧ body.start ≤ body.stop ∧ body.stop < next.cursor.pos := by
  cases h with
  | function _ hb ho hr hc hn =>
    refine .inr ⟨_, _, rfl, ?_, hr.pos_le, ?_⟩
    · exact Nat.lt_of_lt_of_le hb.pos_lt (Cursor.reaches_advance _ 1).pos_le
    · rw [hn]
      exact (Cursor.passes_of_peek hc).pos_lt
  | @bracket placed =>
    refine .inl (List.filterMap_eq_nil_iff.2 fun item hi => ?_)
    rcases List.mem_append.1 hi with hi | hi
    · obtain ⟨group, _, _, rfl⟩ := mem_groupUses.1 hi
      rfl
    · obtain rfl := List.mem_singleton.1 hi
      rfl
  | _ => exact .inl rfl

/-- Function bodies stand apart from each other. -/
theorem Run.bodies (h : s.Run items) :
    (items.filterMap Item.body?).Pairwise (fun a b => a.2.stop < b.2.start) ∧
      ∀ b ∈ items.filterMap Item.body?, s.cursor.pos < b.2.start ∧ b.2.start ≤ b.2.stop := by
  induction h with
  | done => simp
  | @step s next items more hp hn _ ih =>
    obtain ⟨ho, hl⟩ := ih
    have hlater : ∀ b ∈ more.filterMap Item.body?,
        s.cursor.pos < b.2.start ∧ b.2.start ≤ b.2.stop := fun b hb =>
      ⟨Nat.lt_trans hp.pos_lt (hl b hb).1, (hl b hb).2⟩
    rw [List.filterMap_append]
    rcases hn.bodies with h₀ | ⟨name, body, hb, hstart, hle, hstop⟩
    · rw [h₀]
      exact ⟨ho, hlater⟩
    · rw [hb]
      refine ⟨List.pairwise_cons.2 ⟨fun b hb => ?_, ho⟩, ?_⟩
      · exact Nat.lt_trans hstop (hl b hb).1
      · exact List.forall_mem_cons.2 ⟨⟨hstart, hle⟩, hlater⟩

/-- There is a brace between a function body and the range of any other item. -/
theorem Run.body_apart {x : Item} {name : String} {body a : ByteRange} (h : s.Run items)
    (hs : Cursor.Within (encode source) s.cursor) (hx : x ∈ items)
    (hf : .function name body ∈ items) (hne : x ≠ .function name body) (ha : x.range? = some a) :
    a.stop < body.start ∨ body.stop < a.start := by
  induction h with
  | done => cases hx
  | @step s next items more hp hn hmore ih =>
    have hnext := hs.reaches hp.reaches
    rcases List.mem_append.1 hx with hx | hx <;> rcases List.mem_append.1 hf with hf | hf
    · cases hn with
      | function =>
        -- The other item of this step has no range.
        rcases List.mem_cons.1 hx with rfl | hx
        · cases ha
        · simp only [List.mem_cons, reduceCtorEq, false_or, List.not_mem_nil, or_false] at hx hf
          exact absurd (hx.trans hf.symm) hne
      | bracket => simp [mem_groupUses] at hf
      | _ => simp at hf
    · have hm : a ∈ items.filterMap Item.range? := List.mem_filterMap.2 ⟨x, hx, ha⟩
      have hstart := (hmore.bodies.2 (name, body) (List.mem_filterMap.2 ⟨_, hf, rfl⟩)).1
      rcases hn.ranges hs hp with h₀ | ⟨r, hr, -, hstop⟩
      · rw [h₀] at hm
        cases hm
      · rw [hr] at hm
        obtain rfl := List.mem_singleton.1 hm
        exact .inl (Nat.lt_of_le_of_lt hstop hstart)
    · have hm : (name, body) ∈ items.filterMap Item.body? := List.mem_filterMap.2 ⟨_, hf, rfl⟩
      have hle := ((hmore.ranges hnext).2 a (List.mem_filterMap.2 ⟨x, hx, ha⟩)).le_start
      rcases hn.bodies with h₀ | ⟨name', body', hb, -, -, hstop⟩
      · rw [h₀] at hm
        cases hm
      · rw [hb] at hm
        cases List.mem_singleton.1 hm
        exact .inr (Nat.lt_of_lt_of_le hstop hle)
    · exact ih hnext hx hf

/-- A function body stands between its braces. -/
theorem Run.function_braces {name : String} {body : ByteRange} (h : s.Run items)
    (hs : Cursor.Within (encode source) s.cursor) (hf : .function name body ∈ items) :
    0 < body.start ∧ (encode source)[body.start - 1]? = some openBrace ∧
      (encode source)[body.stop]? = some closeBrace := by
  induction h with
  | done => cases hf
  | @step s next items more hp hn _ ih =>
    rcases List.mem_append.1 hf with hf | hf
    · cases hn with
      | function _ hb ho hr hc _ =>
        obtain ⟨rfl, rfl⟩ : name = _ ∧ body = _ := by simpa using hf
        have hstart := (hs.reaches hb.reaches).advance 1
        refine ⟨?_, hstart.getElem?_before (Cursor.head?_before_of_peek ho), ?_⟩
        · exact Nat.zero_lt_of_lt (hb.trans (Cursor.reaches_advance _ 1)).pos_lt
        · exact (hstart.reaches hr).peek_eq.symm.trans hc
      | bracket => simp [mem_groupUses] at hf
      | _ => simp at hf
    · exact ih (hs.reaches hp.reaches) hf

theorem Run.resource_identifiers {kind : ResourceKind} {element : Option String} {name : String}
    {place : Location} {attributes : List PlacedAttribute} {range : ByteRange} (h : s.Run items)
    (hr : .resource kind element name place attributes range ∈ items) :
    IsIdentifier name ∧ ∀ e, element = some e → IsIdentifier e := by
  induction h with
  | done => cases hr
  | step hp hn _ ih =>
    rcases List.mem_append.1 hr with hr | hr
    · cases hn with
      | resource _ hname helement _ =>
        obtain ⟨rfl, rfl, rfl, -⟩ : _ ∧ element = _ ∧ name = _ ∧ _ := by simpa using hr
        exact ⟨hname, helement⟩
      | bracket => simp [mem_groupUses] at hr
      | _ => simp at hr
    · exact ih hr

theorem Run.struct_shaped {definition : Struct.Definition} {place : Location} {range : ByteRange}
    (h : s.Run items) (hm : .struct definition place range ∈ items) :
    ∀ m ∈ definition.members, m.type.Shaped := by
  induction h with
  | done => cases hm
  | step _ hn _ ih =>
    rcases List.mem_append.1 hm with hm | hm
    · cases hn with
      | struct _ _ hshaped =>
        obtain ⟨rfl, -⟩ : definition = _ ∧ _ := by simpa using hm
        exact hshaped
      | bracket => simp [mem_groupUses] at hm
      | _ => simp at hm
    · exact ih hm

/-- The bind groups that attributes name. -/
def groupsNamed (attributes : List PlacedAttribute) : List BindGroup :=
  attributes.filterMap fun placed =>
    match placed.value with
    | .bindGroup group => some group
    | _ => none

theorem groupUse_of_awaited {placed : PlacedAttribute} {g : BindGroup} (place : Location)
    (h : g ∈ groupsNamed (awaited placed)) : .groupUse g place ∈ groupUses placed.value place := by
  unfold awaited at h
  cases hv : placed.value with
  | bindGroup group =>
    by_cases hd : group.isDefault = true
    · simp [hv, hd, groupsNamed] at h
    · obtain rfl : g = group := by simpa [hv, hd, groupsNamed] using h
      exact mem_groupUses.2 ⟨g, rfl, by simpa using hd, rfl⟩
  | _ => simp [hv, groupsNamed] at h

/-- A bind group that is pending after a step was pending before it or is referred to in it. -/
theorem Notices.groupUse_of_pending {g : BindGroup} (h : Notices s next items)
    (hg : g ∈ groupsNamed next.pending) :
    g ∈ groupsNamed s.pending ∨ ∃ use, .groupUse g use ∈ items := by
  cases h with
  | nothing hp | contentPath hp | bindGroup hp | inclusion hp | sampler hp | struct hp =>
    exact .inl (hp ▸ hg)
  | resource hp | function hp =>
    rw [hp] at hg
    cases hg
  | @bracket placed hp =>
    rw [hp, groupsNamed, List.filterMap_append] at hg
    rcases List.mem_append.1 hg with hg | hg
    · exact .inl hg
    · exact .inr ⟨_, List.mem_append_left _ (groupUse_of_awaited s.cursor.location hg)⟩

/-- A bind group that a resource takes from its attributes is pending at first or referred to. -/
theorem Run.groupUse_of_resource {kind : ResourceKind} {element : Option String} {name : String}
    {place : Location} {attributes : List PlacedAttribute} {range : ByteRange} {g : BindGroup}
    (h : s.Run items) (hr : .resource kind element name place attributes range ∈ items)
    (hg : g ∈ groupsNamed attributes) :
    g ∈ groupsNamed s.pending ∨ ∃ use, .groupUse g use ∈ items := by
  induction h with
  | done => cases hr
  | step _ hn _ ih =>
    rcases List.mem_append.1 hr with hr | hr
    · cases hn with
      | resource =>
        obtain ⟨-, -, -, -, rfl, -⟩ :
            _ ∧ element = _ ∧ name = _ ∧ place = _ ∧ attributes = _ ∧ _ := by simpa using hr
        exact .inl hg
      | bracket => simp [mem_groupUses] at hr
      | _ => simp at hr
    · rcases ih hr with hg | ⟨use, hu⟩
      · exact (hn.groupUse_of_pending hg).imp_right fun ⟨use, hu⟩ =>
          ⟨use, List.mem_append_left _ hu⟩
      · exact .inr ⟨use, List.mem_append_right _ hu⟩

end Scan

end BindlessHlsl
