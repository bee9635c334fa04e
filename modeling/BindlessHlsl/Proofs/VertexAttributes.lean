import BindlessHlsl.Pipeline.Vulkan
import Mathlib.Algebra.Ring.Nat
import Mathlib.Data.Nat.Find

/-!
Where the vertex attributes of an input layout lie. Offsets are counted from the last element with
an offset of its own (`InputElement.anchor`), and padding takes part in the count without becoming
an attribute. The offset that the layout is walked with is this one at every element
(`InputElement.placed?_drop`), so that attributes are described exactly
(`PipelineDescription.DescribesVertices`), and do not overlap unless an offset sets the count back.
-/

namespace BindlessHlsl

namespace InputElement

/-! ## Offsets by position -/

/-- The explicit offset of the element at a position. -/
def explicit? (layout : List InputElement) (i : Nat) : Option UInt32 := layout[i]?.bind offset

/-- Bytes of the element at a position. -/
def sizeAt (layout : List InputElement) (i : Nat) : Nat :=
  (layout[i]?.map fun e => e.format.size.toNat).getD 0

/-- Bytes of elements that follow one another. -/
def room (elements : List InputElement) : Nat := (elements.map fun e => e.format.size.toNat).sum

/-- The position from which offsets are counted: that of the last element with an explicit offset up
to here, or the first one. -/
def anchor (layout : List InputElement) (i : Nat) : Nat :=
  Nat.findGreatest (fun k => (explicit? layout k).isSome) i

/-- The offset of the element at a position: that of its anchor, and the elements from there on. -/
def start (layout : List InputElement) (i : Nat) : Nat :=
  ((explicit? layout (anchor layout i)).getD 0).toNat +
    room ((layout.take i).drop (anchor layout i))

/-- The end of every element is a word. -/
def Fits (layout : List InputElement) : Prop :=
  ∀ i < layout.length, start layout i + sizeAt layout i < Word.bound

instance decidableFits (layout : List InputElement) : Decidable (Fits layout) :=
  inferInstanceAs (Decidable (∀ i < layout.length, _))

/-- Where the walk over a layout stands in front of a position. -/
def reached (layout : List InputElement) : Nat → Nat
  | 0 => 0
  | i + 1 => start layout i + sizeAt layout i

variable {layout : List InputElement} {i j : Nat} {e : InputElement} {o : UInt32}

theorem start_of_explicit (h : explicit? layout i = some o) : start layout i = o.toNat := by
  have hanchor : anchor layout i = i := Nat.findGreatest_eq (by rw [h]; rfl)
  have hnone : (layout.take i).drop i = [] :=
    List.drop_eq_nil_of_le (List.length_take_le i layout)
  rw [start, hanchor, h, hnone]
  rfl

theorem anchor_le_length : anchor layout i ≤ (layout.take i).length := by
  rw [List.length_take, Nat.le_min]
  refine ⟨Nat.findGreatest_le i, ?_⟩
  rcases Nat.eq_zero_or_pos (anchor layout i) with hzero | hpos
  · rw [hzero]
    exact Nat.zero_le _
  · have hsome : (explicit? layout (anchor layout i)).isSome :=
      Nat.findGreatest_of_ne_zero rfl (Nat.ne_of_gt hpos)
    obtain ⟨o, ho⟩ := Option.isSome_iff_exists.1 hsome
    obtain ⟨e, he, -⟩ := Option.bind_eq_some_iff.1 ho
    exact Nat.le_of_lt (List.getElem?_eq_some_iff.1 he).1

theorem room_append (front back : List InputElement) :
    room (front ++ back) = room front + room back := by
  rw [room, List.map_append, List.sum_append]
  rfl

theorem room_toList (layout : List InputElement) (i : Nat) :
    room layout[i]?.toList = sizeAt layout i := by
  cases h : layout[i]? <;> simp [room, sizeAt, h]

/-- Without an offset of its own an element lies where the one in front of it ends. -/
theorem start_of_implicit (h : explicit? layout i = none) : start layout i = reached layout i := by
  cases i with
  | zero =>
    have hanchor : anchor layout 0 = 0 := Nat.findGreatest_zero
    rw [start, hanchor, h]
    rfl
  | succ i =>
    have hanchor : anchor layout (i + 1) = anchor layout i :=
      Nat.findGreatest_of_not (by rw [h]; exact Bool.false_ne_true)
    rw [start, hanchor, List.take_add_one, List.drop_append_of_le_length anchor_le_length,
      room_append, room_toList, ← Nat.add_assoc]
    rfl

theorem start_eq (h : layout[i]? = some e) :
    start layout i = (e.offset.map UInt32.toNat).getD (reached layout i) := by
  have hexplicit : explicit? layout i = e.offset := by rw [explicit?, h, Option.bind_some]
  cases ho : e.offset with
  | none => exact start_of_implicit (hexplicit.trans ho)
  | some o => exact start_of_explicit (hexplicit.trans ho)

theorem sizeAt_eq (h : layout[i]? = some e) : sizeAt layout i = e.format.size.toNat := by
  rw [sizeAt, h]
  rfl

/-! ## The walk over a layout -/

theorem toNat_toUInt32 {n : Nat} (h : n < Word.bound) : n.toUInt32.toNat = n :=
  Nat.mod_eq_of_lt h

theorem Fits.start_lt (h : Fits layout) (hi : i < layout.length) : start layout i < Word.bound :=
  Nat.lt_of_le_of_lt (Nat.le_add_right ..) (h i hi)

/-- From a position on, every element is given its offset. -/
theorem placed?_drop (h : Fits layout) {rest : List InputElement} (hrest : layout.drop i = rest)
    {next : UInt32} (hnext : next.toNat = reached layout i) :
    placed? next rest =
      some ((rest.zipIdx i).map fun (e, k) => ((start layout k).toUInt32, e)) := by
  induction rest generalizing i next with
  | nil => rfl
  | cons e rest ih =>
    have hget : layout[i]? = some e := by
      rw [← List.head?_drop, hrest]
      rfl
    have hlt : i < layout.length := (List.getElem?_eq_some_iff.1 hget).1
    have hrest : layout.drop (i + 1) = rest := by rw [← List.tail_drop, hrest]; rfl
    have hoffset : e.offset.getD next = (start layout i).toUInt32 := by
      refine UInt32.toNat_inj.1 ?_
      rw [toNat_toUInt32 (h.start_lt hlt), start_eq hget, ← hnext]
      cases e.offset <;> rfl
    have hadd : Word.add? (start layout i).toUInt32 e.format.size =
        some (reached layout (i + 1)).toUInt32 := by
      have hend : start layout i + e.format.size.toNat < Word.bound := sizeAt_eq hget ▸ h i hlt
      rw [Word.add?, toNat_toUInt32 (h.start_lt hlt), Word.ofNat?, if_pos hend, reached,
        sizeAt_eq hget]
    have hreached : (reached layout (i + 1)).toUInt32.toNat = reached layout (i + 1) :=
      toNat_toUInt32 (h i hlt)
    rw [placed?]
    simp only [hoffset, hadd, Option.bind_eq_bind, Option.bind_some, ih hrest hreached]
    rfl

/-- The elements that become attributes, with their positions. -/
def described (layout : List InputElement) : List (InputElement × Nat) :=
  layout.zipIdx.filter fun p => p.1.format != .padding

theorem attributes?_eq (h : Fits layout) : attributes? layout = some ((described layout).zipIdx.map
    fun ((e, i), location) => e.attributeAt (start layout i).toUInt32 location.toUInt32) := by
  have hplaced := @placed?_drop layout 0 h layout List.drop_zero 0 rfl
  rw [attributes?, hplaced]
  simp only [Option.bind_eq_bind, Option.bind_some, List.filter_map, List.zipIdx_map, List.map_map]
  rfl

/-! ## Ranges that do not overlap -/

theorem getElem?_of_mem_described {p : InputElement × Nat} (h : p ∈ described layout) :
    layout[p.2]? = some p.1 ∧ p.1.format ≠ .padding := by
  obtain ⟨hm, hp⟩ := List.mem_filter.1 h
  exact ⟨List.mem_zipIdx_iff_getElem?.1 hm, by simpa using hp⟩

theorem size_pos {f : InputFormat} (h : f ≠ .padding) : 0 < f.size.toNat := by
  cases f with
  | padding => exact absurd rfl h
  | _ => decide

theorem described_ordered (layout : List InputElement) :
    (described layout).Pairwise fun p q => p.2 < q.2 := by
  refine List.Pairwise.filter _ (List.pairwise_map.1 ?_)
  rw [List.zipIdx_map_snd]
  exact List.pairwise_lt_range'

/-- If no element behind the first has an offset of its own, elements lie one behind the other. -/
theorem end_le_start (h : ∀ i, explicit? layout (i + 1) = none) (hij : i < j) :
    start layout i + sizeAt layout i ≤ start layout j := by
  induction j, hij using Nat.le_induction with
  | base => exact Nat.le_of_eq (start_of_implicit (h i)).symm
  | succ j _ ih =>
    rw [start_of_implicit (h j)]
    exact Nat.le_trans ih (Nat.le_add_right ..)

end InputElement

/-! ## Described attributes -/

namespace PipelineDescription

open InputElement

/-- What an attribute says of an element and its position. -/
structure DescribesVertex (layout : List InputElement) (location : Nat) (e : InputElement) (i : Nat)
    (a : Vulkan.VertexAttribute) : Prop where
  location_eq : a.location = location.toUInt32
  location_toNat : location < Word.bound → a.location.toNat = location
  binding_eq : a.binding = e.slot.getD 0
  format_eq : a.format = e.format.number
  offset_eq : a.offset.toNat = start layout i

/-- The byte range of an attribute for an element. -/
def vertexRange (a : Vulkan.VertexAttribute) (p : InputElement × Nat) : ByteRange :=
  ⟨a.offset.toNat, a.offset.toNat + p.1.format.size.toNat⟩

/-- The attributes are those of the elements of a layout that are no padding, in order. If only the
first element may have an offset of its own, their byte ranges follow one another. -/
structure DescribesVertices (layout : List InputElement)
    (attributes : List Vulkan.VertexAttribute) : Prop where
  length_eq : attributes.length = (described layout).length
  each : ∀ n (a : Vulkan.VertexAttribute), attributes[n]? = some a →
    ∃ e i, (described layout)[n]? = some (e, i) ∧ DescribesVertex layout n e i a
  apart : (∀ i, explicit? layout (i + 1) = none) →
    (attributes.zipWith vertexRange (described layout)).Pairwise fun r s =>
      r.start < r.stop ∧ r.stop ≤ s.start ∧ s.start < s.stop

variable {layout : List InputElement} {n i : Nat} {e : InputElement}
  {attributes : List Vulkan.VertexAttribute}

theorem describesVertex (h : Fits layout) (he : (described layout)[n]? = some (e, i)) :
    DescribesVertex layout n e i (e.attributeAt (start layout i).toUInt32 n.toUInt32) where
  location_eq := rfl
  location_toNat := toNat_toUInt32
  binding_eq := rfl
  format_eq := rfl
  offset_eq := by
    have hi := (getElem?_of_mem_described (List.mem_of_getElem? he)).1
    exact toNat_toUInt32 (h.start_lt (List.getElem?_eq_some_iff.1 hi).1)

theorem exists_describesVertex (h : Fits layout) (ha : attributes? layout = some attributes)
    {a : Vulkan.VertexAttribute} (hn : attributes[n]? = some a) :
    ∃ e i, (described layout)[n]? = some (e, i) ∧ DescribesVertex layout n e i a := by
  obtain rfl := Option.some.inj ((attributes?_eq h).symm.trans ha)
  rw [List.getElem?_map, List.getElem?_zipIdx, Option.map_map] at hn
  obtain ⟨⟨e, i⟩, he, rfl⟩ := Option.map_eq_some_iff.1 hn
  simp only [Function.comp_apply, Nat.zero_add]
  exact ⟨e, i, he, describesVertex h he⟩

theorem length_attributes (h : Fits layout) (ha : attributes? layout = some attributes) :
    attributes.length = (described layout).length := by
  obtain rfl := Option.some.inj ((attributes?_eq h).symm.trans ha)
  simp

/-- The byte ranges of attributes are those of the elements. -/
theorem vertexRanges_eq (h : Fits layout) (ha : attributes? layout = some attributes) :
    attributes.zipWith vertexRange (described layout) = (described layout).map fun p =>
      ⟨start layout p.2, start layout p.2 + p.1.format.size.toNat⟩ := by
  refine List.ext_getElem (by simp [length_attributes h ha]) fun n hn hn' => ?_
  rw [List.length_zipWith, Nat.lt_min] at hn
  obtain ⟨e, i, he, hdescribes⟩ := exists_describesVertex h ha (List.getElem?_eq_getElem hn.1)
  have hget : (described layout)[n] = (e, i) :=
    Option.some.inj ((List.getElem?_eq_getElem hn.2).symm.trans he)
  simp only [List.getElem_zipWith, List.getElem_map, vertexRange, hget, hdescribes.offset_eq]

theorem vertexRanges_apart (h : Fits layout) (ha : attributes? layout = some attributes)
    (hexplicit : ∀ i, explicit? layout (i + 1) = none) :
    (attributes.zipWith vertexRange (described layout)).Pairwise fun r s =>
      r.start < r.stop ∧ r.stop ≤ s.start ∧ s.start < s.stop := by
  rw [vertexRanges_eq h ha, List.pairwise_map]
  refine (described_ordered layout).imp_of_mem fun {p q} hp hq hpq => ?_
  obtain ⟨hget, hpadding⟩ := getElem?_of_mem_described hp
  have hend := end_le_start hexplicit hpq
  rw [sizeAt_eq hget] at hend
  exact ⟨Nat.lt_add_of_pos_right (size_pos hpadding), hend,
    Nat.lt_add_of_pos_right (size_pos (getElem?_of_mem_described hq).2)⟩

/-- The vertex attributes of a description, whatever its input layout is, as long as the end of
every element is a word. -/
theorem describesVertices_of_fits (d : PipelineDescription) (h : Fits d.inputLayout) :
    ∃ attributes, d.vertexAttributes? = some attributes ∧
      DescribesVertices d.inputLayout attributes := by
  have ha := attributes?_eq h
  exact ⟨_, ha, {
    length_eq := length_attributes h ha
    each := fun _ _ hn => exists_describesVertex h ha hn
    apart := vertexRanges_apart h ha }⟩

/-- A layout in which padding carries the offset that the elements behind it count from. -/
theorem exists_describesVertices :
    ∃ d : PipelineDescription, d.inputLayout = [
        ⟨"POSITION", none, none, .perVertex, .float3⟩,
        ⟨"GAP", some 16, none, .perVertex, .padding⟩,
        ⟨"COLOR", none, some 1, .perInstance, .byte4⟩,
        ⟨"NORMAL", none, none, .perVertex, .float3⟩] ∧
      Fits d.inputLayout ∧ ∃ attributes, d.vertexAttributes? = some attributes ∧
        attributes = [⟨0, 0, 106, 0⟩, ⟨1, 1, 37, 16⟩, ⟨2, 0, 106, 20⟩] ∧
        DescribesVertices d.inputLayout attributes := by
  let d : PipelineDescription := {
    (default : PipelineDescription) with
    inputLayout := [
      ⟨"POSITION", none, none, .perVertex, .float3⟩,
      ⟨"GAP", some 16, none, .perVertex, .padding⟩,
      ⟨"COLOR", none, some 1, .perInstance, .byte4⟩,
      ⟨"NORMAL", none, none, .perVertex, .float3⟩] }
  have hfits : Fits d.inputLayout := by decide
  obtain ⟨attributes, ha, hdescribes⟩ := describesVertices_of_fits d hfits
  refine ⟨d, rfl, hfits, attributes, ha, ?_, hdescribes⟩
  have heval : d.vertexAttributes? =
      some [⟨0, 0, 106, 0⟩, ⟨1, 1, 37, 16⟩, ⟨2, 0, 106, 20⟩] := by decide
  exact Option.some.inj (ha.symm.trans heval)

end PipelineDescription

end BindlessHlsl
