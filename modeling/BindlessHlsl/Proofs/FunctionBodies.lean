import BindlessHlsl.Proofs.TableOrder
import BindlessHlsl.Proofs.UserConstants
import BindlessHlsl.Proofs.WordSearch

/-!
Function bodies of a generated shader. Each body of the root file is there unchanged, behind the
lookups of exactly those resources that it names (`Shader.KeepsBody`): nothing that is blanked
and nothing else that is inserted falls into it.
-/

namespace BindlessHlsl

open Utf8 EditList

namespace Shader

/-- The statement that looks a resource up. -/
def lookupStatement (r : Resource) : String :=
  r.signature ++ " " ++ r.name ++ " = (" ++ r.signature ++
    ")ResourceDescriptorHeap[__BINDLESS_CB.IDX_" ++ r.name ++ "]; "

/-- What a body needs in front: a space and a statement for every resource that it names, apart from
the user constants. -/
def lookupsNeeded (resources : List Resource) (body : List UInt8) : String :=
  let named := (resources.filter fun r => !r.isConstants).filter fun r =>
    WordSearch.Occurs (encode r.name) body
  if named = [] then "" else " " ++ String.join (named.map lookupStatement)

theorem lookup_eq_lookupStatement (r : Resource) : lookup r = lookupStatement r := by
  rw [← String.toList_inj]
  simp [lookup, lookupStatement, Preamble.tableBuffer]

theorem lookups_eq_lookupsNeeded {resources : List Resource}
    (h : ∀ r ∈ resources, IsIdentifier r.name) (body : List UInt8) :
    lookups resources body = lookupsNeeded resources body := by
  have hfilter : ((Resource.slotted resources).filter fun r =>
      WordSearch.contains (encode r.name) body) =
      (resources.filter fun r => !r.isConstants).filter fun r =>
        WordSearch.Occurs (encode r.name) body := by
    refine List.filter_congr fun r hr => ?_
    have hn := h r (List.mem_filter.1 hr).1
    rw [Bool.eq_iff_iff, decide_eq_true_eq]
    exact WordSearch.contains_iff_occurs hn.forall_mem hn.encode_ne_nil
  simp only [lookups, lookupsNeeded, hfilter, List.isEmpty_iff, funext lookup_eq_lookupStatement]

theorem eq_of_lookupInsertion {resources : List Resource} {source : List UInt8} {f : Function}
    {i : Nat × String} (h : lookupInsertion resources source f = some i) :
    ∃ body, f.body = some body ∧ i = (body.start, lookups resources (body.slice source)) := by
  obtain ⟨body, hb, h⟩ := Option.bind_eq_some_iff.1 h
  dsimp only at h
  split at h
  · cases h
  · cases h
    exact ⟨body, hb, rfl⟩

variable {includes : Includes} {file source : String} {d : Declarations} {f : Function}
  {body : ByteRange}

/-- What a body gets in front, and where, if it needs anything. -/
def neededAt? (resources : List Resource) (source : List UInt8) (body : ByteRange) :
    Option (Nat × String) :=
  let text := lookupsNeeded resources (body.slice source)
  if text = "" then none else some (body.start, text)

/-- What the function bodies of a text get in front, in the order of the text. -/
def neededLookups (resources : List Resource) (source : String) : List (Nat × String) :=
  ((Outline.ofText source).items.filterMap Item.body?).filterMap fun b =>
    neededAt? resources (encode source) b.2

theorem filterMap_lookupInsertion (hd : Declarations.ofRoot includes file source = .ok d)
    {resources : List Resource} (h : ∀ r ∈ resources, IsIdentifier r.name) :
    d.functions.filterMap (lookupInsertion resources (encode source)) =
      neededLookups resources source := by
  rw [neededLookups, ← Declarations.bodies_eq hd, List.filterMap_filterMap]
  refine congrArg (List.filterMap · _) (funext fun f => ?_)
  cases hb : f.body <;> simp [lookupInsertion, neededAt?, hb, lookups_eq_lookupsNeeded h]

/-- Every insertion lies in front of a body, behind it, or is its own. -/
theorem insertions_around (hd : Declarations.ofRoot includes file source = .ok d) (p : Preamble)
    (hf : f ∈ d.functions) (hb : f.body = some body) :
    ∃ front back, (p.edits source d.functions).insertions =
        front ++ ((lookupInsertion p.resources (encode source) f).toList ++ back) ∧
      (∀ i ∈ front, i.1 < body.start) ∧ ∀ i ∈ back, body.stop < i.1 := by
  obtain ⟨pre, post, hsplit⟩ := List.append_of_mem hf
  have hapart := Declarations.bodies_apart hd
  rw [hsplit, List.pairwise_append] at hapart
  obtain ⟨-, hpost, hpre⟩ := hapart
  refine ⟨p.insertion ++ pre.filterMap (lookupInsertion p.resources (encode source)),
    post.filterMap (lookupInsertion p.resources (encode source)), ?_, fun i hi => ?_,
    fun i hi => ?_⟩
  · rw [p.insertions_edits, hsplit, List.filterMap_append, List.filterMap_cons, List.append_assoc]
    cases lookupInsertion p.resources (encode source) f <;> rfl
  · rcases List.mem_append.1 hi with hi | hi
    · unfold Preamble.insertion at hi
      split at hi
      · cases hi
      · obtain rfl := List.mem_singleton.1 hi
        exact (Declarations.body_start_pos hd hf hb).1
    · obtain ⟨g, hg, hi⟩ := List.mem_filterMap.1 hi
      obtain ⟨b, hgb, rfl⟩ := eq_of_lookupInsertion hi
      have hlt := hpre g hg f List.mem_cons_self b hgb body hb
      have hle := (Declarations.body_start_pos hd (hsplit ▸ List.mem_append_left _ hg) hgb).2
      exact Nat.lt_of_le_of_lt hle hlt
  · obtain ⟨g, hg, hi⟩ := List.mem_filterMap.1 hi
    obtain ⟨b, hgb, rfl⟩ := eq_of_lookupInsertion hi
    exact (List.pairwise_cons.1 hpost).1 g hg body hb b hgb

/-- Inside a body and at its end, nothing is inserted but its own lookups at its start. -/
theorem textAt_body (hd : Declarations.ofRoot includes file source = .ok d) (p : Preamble)
    (hf : f ∈ d.functions) (hb : f.body = some body) {place : Nat} (hs : body.start ≤ place)
    (he : place ≤ body.stop) :
    textAt (p.edits source d.functions).insertions place =
      textAt [(body.start, lookups p.resources (body.slice (encode source)))] place := by
  obtain ⟨front, back, hi, hfront, hback⟩ := insertions_around hd p hf hb
  rw [hi, textAt_append, textAt_append,
    textAt_eq_nil fun i hi => Nat.ne_of_lt (Nat.lt_of_lt_of_le (hfront i hi) hs),
    textAt_eq_nil fun i hi => Nat.ne_of_gt (Nat.lt_of_le_of_lt he (hback i hi)),
    List.nil_append, List.append_nil, lookupInsertion, hb, Option.bind_some]
  dsimp only
  split
  next hempty => simp [hempty, textAt]
  next => rfl

/-- Nothing in a body is blanked. -/
theorem consumed_body (hd : Declarations.ofRoot includes file source = .ok d)
    {structs : List Struct} (hstructs : structs ⊆ d.structs) (hf : f ∈ d.functions)
    (hb : f.body = some body) {place : Nat} (hs : body.start ≤ place) (he : place < body.stop) :
    consumed (Outline.ofText source).items structs place = false := by
  have hfun := Declarations.function_mem hd hf hb
  have hout : ∀ item ∈ (Outline.ofText source).items, item ≠ .function f.name body →
      ∀ range, item.range? = some range → range.contains place = false := by
    intro item hi hne range hr
    have hdisjoint := (Declarations.run_of_ofRoot hd).disjoint (Cursor.within_ofText source)
      hi hfun hne hr rfl
    refine Bool.eq_false_iff.2 fun hc => ?_
    have := ByteRange.contains_iff.1 hc
    omega
  simp only [consumed, Bool.or_eq_false_iff, List.any_eq_false, List.mem_filterMap]
  constructor
  · rintro range ⟨item, hi, hr⟩
    refine Bool.eq_false_iff.1 (hout item hi ?_ range (Item.range?_of_blanked? hr))
    rintro rfl
    cases hr
  · rintro range ⟨s, hs, hr⟩
    obtain ⟨definition, place, hi⟩ := Declarations.struct_range_mem hd (hstructs hs) hr
    exact Bool.eq_false_iff.1 (hout _ hi nofun range rfl)

/-- A body of the root file is at its mapped range, behind the lookups that it needs. -/
theorem holds_body (hd : Declarations.ofRoot includes file source = .ok d) {p : Preamble}
    (hstructs : p.constants.structs ⊆ d.structs)
    (hnames : ∀ r ∈ p.resources, IsIdentifier r.name) {output : String}
    (ho : (p.edits source d.functions).edited? source = some output) (hf : f ∈ d.functions)
    (hb : f.body = some body) :
    ((p.edits source d.functions).mapRange body).Holds (encode output)
      (encode (lookupsNeeded p.resources (body.slice (encode source))) ++
        body.slice (encode source)) := by
  have hlies := Declarations.lies_of_item hd (Declarations.function_mem hd hf hb) rfl
  obtain ⟨start, stop⟩ := body
  obtain ⟨front, mid, back, hs, rfl, rfl⟩ :=
    exists_parts hlies.start_boundary hlies.stop_boundary hlies.start_le
  have hwoven := woven_eq_append
    (fun place h₁ h₂ => p.blanks_edits source d.functions ▸ consumed_body hd hstructs hf hb h₁ h₂)
    fun place h₁ h₂ => textAt_body hd p hf hb h₁ h₂
  have hholds := holds_mapRange (fun i hi => boundary_edits hd p hi) hs ho
  rw [hwoven, encodeChars_append, lookups_eq_lookupsNeeded hnames,
    ← encode_eq_encodeChars] at hholds
  have hslice : ByteRange.slice ⟨charsLength front, charsLength front + charsLength mid⟩
      (encode source) = encodeChars mid := by
    rw [encode_eq_encodeChars, hs, ByteRange.slice_encodeChars]
  rw [hslice] at hholds ⊢
  exact hholds

/-- A body of a text, and where it is reported in the shader: it stands between its braces, and is
in the generated text behind the lookups that it needs. -/
structure KeepsBody (source : String) (shader : Shader) (body reported : ByteRange) : Prop where
  start_pos : 0 < body.start
  openBrace : (encode source)[body.start - 1]? = some Ascii.openBrace
  closeBrace : (encode source)[body.stop]? = some Ascii.closeBrace
  holds : reported.Holds (encode shader.output)
    (encode (lookupsNeeded shader.resources (body.slice (encode source))) ++
      body.slice (encode source))

theorem bodies_ofSource {shader : Shader} (h : ofSource includes file source = .ok shader) :
    (shader.resources.filter fun r => !r.isConstants).map (fun r => r.index.map UInt32.toNat) =
      (List.range (shader.resources.filter fun r => !r.isConstants).length).map some ∧
    ∃ place : ByteRange → ByteRange,
      shader.functions.filterMap (fun f => f.body.map (f.name, ·)) =
        ((Outline.ofText source).items.filterMap Item.body?).map (fun b => (b.1, place b.2)) ∧
      ∀ name body, .function name body ∈ (Outline.ofText source).items →
        KeepsBody source shader body (place body) := by
  obtain ⟨d, hd, hgen⟩ := ofSource_eq_ok h
  obtain ⟨p, hc, hres, _, hl, ho, hshader⟩ := generate_eq_ok hgen
  have hnames : ∀ r ∈ p.resources, IsIdentifier r.name := fun r hr =>
    (resource_identifiers hd (hres ▸ hr)).1
  refine ⟨?_, (p.edits source d.functions).mapRange, ?_, fun name body hi => ?_⟩
  · rw [hshader, hres]
    exact Resource.slots_table (hres ▸ ConstantsLayout.length_slotted_lt hl)
  · rw [hshader, ← Declarations.bodies_eq hd, List.filterMap_map, List.map_filterMap]
    refine congrArg (List.filterMap · _) (funext fun f => ?_)
    cases hb : f.body <;> simp [moveFunction, hb]
  · obtain ⟨hpos, hopen, hclose⟩ :=
      (Declarations.run_of_ofRoot hd).function_braces (Cursor.within_ofText source) hi
    have hm : (name, body) ∈ d.functions.filterMap fun f => f.body.map (f.name, ·) := by
      rw [Declarations.bodies_eq hd]
      exact List.mem_filterMap.2 ⟨_, hi, rfl⟩
    obtain ⟨f, hf, hb⟩ := List.mem_filterMap.1 hm
    obtain ⟨_, hb, he⟩ := Option.map_eq_some_iff.1 hb
    cases he
    have hholds := holds_body hd (UserConstants.structs_subset hc) hnames ho hf hb
    rw [hshader]
    exact ⟨hpos, hopen, hclose, hholds⟩

theorem exists_keepsBody :
    let source := "[constants] ConstantBuffer<S> c;\nTexture2D t;\n" ++
      "struct S \x7b float x; \x7d;\n" ++
      "float4 f() \x7b\n  return t.Load(c.x); // tt\n\x7d\nvoid g() \x7b\x7d\n"
    ∃ shader, ofSource (.ofFiles []) "f" source = .ok shader ∧
      shader.functions = [⟨"f", some ⟨446, 546⟩⟩, ⟨"g", some ⟨558, 558⟩⟩] ∧
      KeepsBody source shader ⟨81, 110⟩ ⟨446, 546⟩ ∧
      KeepsBody source shader ⟨122, 122⟩ ⟨558, 558⟩ ∧
      ByteRange.Holds ⟨446, 546⟩ (encode shader.output)
        (encode (" Texture2D t = (Texture2D)ResourceDescriptorHeap[__BINDLESS_CB.IDX_t]; " ++
          "\n  return t.Load(c.x); // tt\n")) ∧
      ByteRange.Holds ⟨558, 558⟩ (encode shader.output) [] := by
  intro source
  let c : Resource := ⟨.constantBuffer, some "S", "c", .default, none, [.constants], ⟨1, 13⟩⟩
  let t : Resource := ⟨.texture2D, none, "t", .default, none, [], ⟨2, 1⟩⟩
  have hitems : .function "f" ⟨81, 110⟩ ∈ (Outline.ofText source).items ∧
      .function "g" ⟨122, 122⟩ ∈ (Outline.ofText source).items ∧
      (Outline.ofText source).items.filterMap Item.body? =
        [("f", ⟨81, 110⟩), ("g", ⟨122, 122⟩)] := by
    decide +kernel
  obtain ⟨shader, d, p, h, -, ⟨hmoved, hf, hg⟩, -, hshader⟩ :=
    @exists_of_ordered (.ofFiles []) "f" source
      (fun d p => d.functions.map (moveFunction (p.edits source d.functions)) =
          [⟨"f", some ⟨446, 546⟩⟩, ⟨"g", some ⟨558, 558⟩⟩] ∧
        encode (lookupsNeeded p.resources (ByteRange.slice ⟨81, 110⟩ (encode source))) ++
            ByteRange.slice ⟨81, 110⟩ (encode source) =
          encode (" Texture2D t = (Texture2D)ResourceDescriptorHeap[__BINDLESS_CB.IDX_t]; " ++
            "\n  return t.Load(c.x); // tt\n") ∧
        encode (lookupsNeeded p.resources (ByteRange.slice ⟨122, 122⟩ (encode source))) ++
            ByteRange.slice ⟨122, 122⟩ (encode source) = [])
      [c, t] (by decide +kernel)
  have hfunctions : shader.functions = [⟨"f", some ⟨446, 546⟩⟩, ⟨"g", some ⟨558, 558⟩⟩] := by
    rw [hshader, hmoved]
  have hresources : shader.resources = p.resources := by rw [hshader]
  obtain ⟨-, place, hplace, hkeeps⟩ := bodies_ofSource h
  obtain ⟨hplacef, hplaceg⟩ : (⟨446, 546⟩ : ByteRange) = place ⟨81, 110⟩ ∧
      (⟨558, 558⟩ : ByteRange) = place ⟨122, 122⟩ := by
    rw [hfunctions, hitems.2.2] at hplace
    simpa using hplace
  have hkeepsf := hkeeps _ _ hitems.1
  have hkeepsg := hkeeps _ _ hitems.2.1
  rw [← hplacef] at hkeepsf
  rw [← hplaceg] at hkeepsg
  refine ⟨shader, h, hfunctions, hkeepsf, hkeepsg, ?_, ?_⟩
  · rw [← hf, ← hresources]
    exact hkeepsf.holds
  · rw [← hg, ← hresources]
    exact hkeepsg.holds

end Shader

end BindlessHlsl
