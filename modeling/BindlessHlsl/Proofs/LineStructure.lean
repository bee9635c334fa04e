import BindlessHlsl.Proofs.FunctionBodies

/-!
What a generated text is as a whole (`Shader.KeepsLines`): a preamble that ends by
resetting the line count, and then the text of the root file character by character. What was
consumed is overwritten with spaces, lookups are put in without a new line, and everything else is
kept, so that every line is where it was.
-/

namespace BindlessHlsl

open Utf8

/-! ## Lines of edited texts -/

namespace EditList

/-- Lines of a text that begin at an offset, each one edited on its own. -/
def wovenLines (blanked : Nat → Bool) (insertions : List (Nat × String)) :
    Nat → List (List Char) → List (List Char)
  | _, [] => []
  | offset, line :: rest =>
    (woven blanked insertions offset line ++ textAt insertions (offset + charsLength line)) ::
      wovenLines blanked insertions (offset + charsLength line + 1) rest

variable {blanked : Nat → Bool} {insertions : List (Nat × String)}

theorem splitOn_append_of_not_mem {front : List Char} (h : '\n' ∉ front) (back : List Char) :
    (front ++ back).splitOn '\n' = (back.splitOn '\n').modifyHead (front ++ ·) := by
  induction front with
  | nil =>
    cases hb : back.splitOn '\n' <;> simp [hb]
  | cons c front ih =>
    obtain ⟨hc, hf⟩ := not_or.1 (mt List.mem_cons.2 h)
    have hne : (c == '\n') = false := by simpa using Ne.symm hc
    rw [List.cons_append, List.splitOn_cons_eq_if_modifyHead, hne, if_neg Bool.false_ne_true,
      ih hf, List.modifyHead_modifyHead]
    rfl

theorem not_mem_overwritten {c : Char} (h : c ≠ '\n') : '\n' ∉ overwritten c := by
  unfold overwritten
  split
  · simpa using Ne.symm h
  · simp

theorem not_mem_overwritten_or_self {c : Char} (h : c ≠ '\n') (b : Bool) :
    '\n' ∉ (if b then overwritten c else [c]) := by
  split
  · exact not_mem_overwritten h
  · simpa using Ne.symm h

theorem not_mem_textAt (h : ∀ i ∈ insertions, '\n' ∉ i.2.toList) (offset : Nat) :
    '\n' ∉ textAt insertions offset := by
  intro hm
  obtain ⟨i, hi, hn⟩ := List.mem_flatMap.1 hm
  exact h i (List.mem_filter.1 hi).1 hn

/-- If no insertion breaks a line, the lines of an edited text are the edited lines of the text. -/
theorem splitOn_woven (h : ∀ i ∈ insertions, '\n' ∉ i.2.toList) (offset : Nat) (cs : List Char) :
    (woven blanked insertions offset cs ++ textAt insertions (offset + charsLength cs)).splitOn
      '\n' = wovenLines blanked insertions offset (cs.splitOn '\n') := by
  induction cs generalizing offset with
  | nil => simp [woven, wovenLines, List.splitOn_eq_singleton (not_mem_textAt h offset)]
  | cons c cs ih =>
    have ih := ih (offset + c.utf8Size)
    rw [List.splitOn_cons_eq_if_modifyHead, woven, charsLength_cons, ← Nat.add_assoc,
      List.append_assoc]
    by_cases hc : c = '\n'
    · subst hc
      have hkept : (if blanked offset then overwritten '\n' else ['\n']) = ['\n'] := by
        split <;> rfl
      rw [hkept, List.append_assoc, List.singleton_append,
        List.splitOn_append_cons_self_of_not_mem (not_mem_textAt h offset), ih]
      simp [wovenLines, woven]
      rfl
    · have hfront : '\n' ∉ textAt insertions offset ++
          (if blanked offset then overwritten c else [c]) := fun hm =>
        (List.mem_append.1 hm).elim (not_mem_textAt h offset) (not_mem_overwritten_or_self hc _)
      obtain ⟨line, rest, hl⟩ := List.exists_cons_of_ne_nil (List.splitOn_ne_nil '\n' cs)
      rw [splitOn_append_of_not_mem hfront, ih, hl]
      simp [hc, wovenLines, woven, Nat.add_assoc]

end EditList

/-! ## Lookups break no line -/

theorem IsIdentifier.newline_not_mem {word : String} (h : IsIdentifier word) :
    '\n' ∉ word.toList := by
  intro hm
  have hb : Ascii.newline ∈ encode word := by
    rw [encode_eq_encodeChars]
    exact List.mem_flatMap.2 ⟨'\n', hm, List.mem_singleton.2 rfl⟩
  exact absurd (h.forall_mem _ hb) (by decide)

namespace Shader

open EditList

theorem newline_not_mem_signature {r : Resource}
    (h : ∀ element, r.element = some element → IsIdentifier element) :
    '\n' ∉ r.signature.toList := by
  have hk : '\n' ∉ (Keyword.word r.kind).toList := by
    cases r.kind <;> decide +kernel
  unfold Resource.signature
  cases he : r.element with
  | none => exact hk
  | some element =>
    have := (h element he).newline_not_mem
    simp [hk, this]

theorem newline_not_mem_lookup {r : Resource} (hn : IsIdentifier r.name)
    (he : ∀ element, r.element = some element → IsIdentifier element) :
    '\n' ∉ (lookup r).toList := by
  have hs := newline_not_mem_signature he
  have hn := hn.newline_not_mem
  simp [lookup, Preamble.tableBuffer, hs, hn]

theorem newline_not_mem_lookups {resources : List Resource}
    (h : ∀ r ∈ resources, IsIdentifier r.name ∧
      ∀ element, r.element = some element → IsIdentifier element) (body : List UInt8) :
    '\n' ∉ (lookups resources body).toList := by
  unfold lookups
  dsimp only
  split
  · simp
  · simp only [String.toList_append, String.toList_join, List.mem_append, List.mem_flatMap,
      List.mem_map, not_or, not_exists, not_and]
    refine ⟨by decide, ?_⟩
    rintro _ ⟨r, hr, rfl⟩
    have hr := (List.mem_filter.1 (List.mem_filter.1 hr).1).1
    exact newline_not_mem_lookup (h r hr).1 (h r hr).2

end Shader

/-! ## The parts of a generated text -/

theorem Preamble.text_end {p : Preamble} (h : ¬(p.resources = [] ∧ p.samplers = [])) :
    ∃ front, p.text = front ++ "#line 1\n" := by
  unfold text
  rw [if_neg (by simpa [List.isEmpty_iff] using h), lines, List.map_append, String.join_append]
  exact ⟨_, rfl⟩

theorem Preamble.text_eq_empty {p : Preamble} :
    p.text = "" ↔ p.resources = [] ∧ p.samplers = [] := by
  refine ⟨fun h => Decidable.byContradiction fun hn => ?_, fun h => ?_⟩
  · obtain ⟨front, ht⟩ := text_end hn
    rw [h] at ht
    have := congrArg String.toList ht
    simp at this
  · simp [text, h.1, h.2]

namespace Shader

open EditList

/-- The stretches of the root file that are consumed: attributes, the directives for the content
path and for bind groups, resources, samplers, and the structs behind user constants. -/
inductive Consumes (items : List Item) (d : Declarations) : ByteRange → Prop
  | bracketed {placed : PlacedAttribute} {range : ByteRange} :
    .bracketed placed range ∈ items → Consumes items d range
  | contentPath {path : String} {range : ByteRange} :
    .contentPath path range ∈ items → Consumes items d range
  | bindGroup {name : String} {place : Location} {range : ByteRange} :
    .bindGroup name place range ∈ items → Consumes items d range
  | resource {kind : ResourceKind} {element : Option String} {name : String} {place : Location}
      {attributes : List PlacedAttribute} {range : ByteRange} :
    .resource kind element name place attributes range ∈ items → Consumes items d range
  | sampler {name : String} {settings : SamplerSettings} {range : ByteRange} :
    .sampler name settings range ∈ items → Consumes items d range
  | constantsStruct {r : Resource} {s : Struct} {range : ByteRange} : r ∈ d.resources →
    r.isConstants = true → d.elementStruct? r = some s → s.range = some range →
    Consumes items d range

theorem consumes_of_blanked? {items : List Item} {d : Declarations} {item : Item}
    {range : ByteRange} (hi : item ∈ items) (h : item.blanked? = some range) :
    Consumes items d range := by
  cases item with
  | bracketed =>
    cases h
    exact .bracketed hi
  | contentPath =>
    cases h
    exact .contentPath hi
  | bindGroup =>
    cases h
    exact .bindGroup hi
  | resource =>
    cases h
    exact .resource hi
  | sampler =>
    cases h
    exact .sampler hi
  | _ => cases h

theorem consumes_iff {items : List Item} {d : Declarations} {range : ByteRange} :
    Consumes items d range ↔ (∃ item ∈ items, item.blanked? = some range) ∨
      ∃ m ∈ d.backed d.resources, m.2.range = some range := by
  constructor
  · intro h
    cases h with
    | bracketed h | contentPath h | bindGroup h | resource h | sampler h => exact .inl ⟨_, h, rfl⟩
    | @constantsStruct r s _ hr hc hs hrange =>
      exact .inr ⟨(r, s), Declarations.mem_backed.2 ⟨hr, hc, hs⟩, hrange⟩
  · rintro (⟨item, hi, h⟩ | ⟨m, hm, h⟩)
    · exact consumes_of_blanked? hi h
    · obtain ⟨hr, hc, hs⟩ := Declarations.mem_backed.1 hm
      exact .constantsStruct hr hc hs h

theorem consumed_iff {file : String} {d : Declarations} {u : UserConstants} {items : List Item}
    (h : UserConstants.ofDeclarations file d = .ok u) {offset : Nat} :
    consumed items u.structs offset = true ↔
      ∃ range, Consumes items d range ∧ range.start ≤ offset ∧ offset < range.stop := by
  have hstructs := (UserConstants.collects_of_ofDeclarations h).structs
  simp only [consumed, Bool.or_eq_true, List.any_eq_true, List.mem_filterMap, consumes_iff]
  constructor
  · rintro (⟨range, ⟨item, hi, hr⟩, hc⟩ | ⟨range, ⟨s, hs, hr⟩, hc⟩)
    · exact ⟨range, .inl ⟨item, hi, hr⟩, ByteRange.contains_iff.1 hc⟩
    · obtain ⟨m, hm, rfl⟩ := (hstructs s).1 hs
      exact ⟨range, .inr ⟨m, hm, hr⟩, ByteRange.contains_iff.1 hc⟩
  · rintro ⟨range, ⟨item, hi, hr⟩ | ⟨m, hm, hr⟩, hc⟩
    · exact .inl ⟨range, ⟨item, hi, hr⟩, ByteRange.contains_iff.2 hc⟩
    · exact .inr ⟨range, ⟨m.2, (hstructs m.2).2 ⟨m, hm, rfl⟩, hr⟩, ByteRange.contains_iff.2 hc⟩

variable {includes : Includes} {file source : String} {d : Declarations}

theorem lies_of_consumes (hd : Declarations.ofRoot includes file source = .ok d)
    {range : ByteRange} (h : Consumes (Outline.ofText source).items d range) :
    range.Lies source 0 := by
  rcases consumes_iff.1 h with ⟨item, hi, hr⟩ | ⟨m, hm, hr⟩
  · exact Declarations.lies_of_item hd hi (Item.range?_of_blanked? hr)
  · have hs := Declarations.mem_of_elementStruct? (Declarations.mem_backed.1 hm).2.2
    obtain ⟨definition, place, hi⟩ := Declarations.struct_range_mem hd hs hr
    exact Declarations.lies_of_item hd hi rfl

/-- A shader whose text is a preamble followed by the root file, line by line: consumed characters
are overwritten, and lookups are put in behind opening braces. -/
structure KeepsLines (source : String) (d : Declarations) (shader : Shader) (preamble : String)
    (consumed : Nat → Bool) (lookups : List (Nat × String)) : Prop where
  output : shader.output = preamble ++ String.ofList (woven consumed lookups 0 source.toList)
  preamble_empty : preamble = "" ↔ shader.resources = [] ∧ shader.samplers = []
  preamble_end : preamble ≠ "" → ∃ front, preamble = front ++ "#line 1\n"
  lookups_eq : lookups = neededLookups shader.resources source
  lookup_place : ∀ i ∈ lookups, ∃ name body,
    .function name body ∈ (Outline.ofText source).items ∧ i.1 = body.start ∧ 0 < i.1 ∧
      (encode source)[i.1 - 1]? = some Ascii.openBrace
  lookup_line : ∀ i ∈ lookups, '\n' ∉ i.2.toList
  consumed_iff : ∀ offset, consumed offset = true ↔
    ∃ range, Consumes (Outline.ofText source).items d range ∧
      range.start ≤ offset ∧ offset < range.stop
  whole : ∀ range, Consumes (Outline.ofText source).items d range → range.Lies source 0
  length : charsLength (woven consumed [] 0 source.toList) = Utf8.length source
  lines : (woven consumed lookups 0 source.toList).splitOn '\n' =
    wovenLines consumed lookups 0 (source.toList.splitOn '\n')

theorem lookup_place_of_mem (hd : Declarations.ofRoot includes file source = .ok d)
    {resources : List Resource} {i : Nat × String}
    (hi : i ∈ d.functions.filterMap (lookupInsertion resources (encode source))) :
    ∃ name body, .function name body ∈ (Outline.ofText source).items ∧
      i = (body.start, lookups resources (body.slice (encode source))) ∧
      0 < body.start ∧ (encode source)[body.start - 1]? = some Ascii.openBrace ∧
      body.start < Utf8.length source := by
  obtain ⟨f, hf, hi⟩ := List.mem_filterMap.1 hi
  obtain ⟨body, hb, rfl⟩ := eq_of_lookupInsertion hi
  have hm := Declarations.function_mem hd hf hb
  obtain ⟨hpos, hopen, hclose⟩ :=
    (Declarations.run_of_ofRoot hd).function_braces (Cursor.within_ofText source) hm
  refine ⟨f.name, body, hm, rfl, hpos, hopen, ?_⟩
  have hle := (Declarations.body_start_pos hd hf hb).2
  have hlt : body.stop < (encode source).length := (List.getElem?_eq_some_iff.1 hclose).1
  exact Nat.lt_of_le_of_lt hle (length_encode source ▸ hlt)

theorem textAt_length (hd : Declarations.ofRoot includes file source = .ok d)
    (resources : List Resource) :
    textAt (d.functions.filterMap (lookupInsertion resources (encode source)))
      (Utf8.length source) = [] := by
  refine textAt_eq_nil fun i hi => ?_
  obtain ⟨_, body, _, rfl, _, _, hlt⟩ := lookup_place_of_mem hd hi
  exact Nat.ne_of_lt hlt

/-- A preamble comes in front of a stretch at the start of the text and nowhere else. -/
theorem woven_insertion {blanked : Nat → Bool} (p : Preamble) (lookups : List (Nat × String))
    (offset : Nat) (cs : List Char) :
    woven blanked (p.insertion ++ lookups) offset cs ++
        textAt (p.insertion ++ lookups) (offset + charsLength cs) =
      (if offset = 0 then p.text else "").toList ++
        (woven blanked lookups offset cs ++ textAt lookups (offset + charsLength cs)) := by
  unfold Preamble.insertion
  split
  next he => simp [he]
  next =>
    split
    next hzero =>
      subst hzero
      exact woven_cons_self 0 p.text cs
    next hpos =>
      rw [List.singleton_append, woven_cons_of_lt (Nat.pos_of_ne_zero hpos),
        textAt_cons_of_ne (by omega)]
      rfl

/-- A generated text is its preamble and then the edited text of the root file. -/
theorem output_eq (hd : Declarations.ofRoot includes file source = .ok d) {p : Preamble}
    {output : String} (ho : (p.edits source d.functions).edited? source = some output) :
    output = p.text ++ String.ofList
      (woven (consumed (Outline.ofText source).items p.constants.structs)
        (d.functions.filterMap (lookupInsertion p.resources (encode source))) 0 source.toList) := by
  have hend := textAt_length hd p.resources
  rw [length_eq_charsLength, ← Nat.zero_add (charsLength _)] at hend
  rw [edited?_eq_woven fun i hi => boundary_edits hd p hi, p.blanks_edits, p.insertions_edits,
    length_eq_charsLength, ← Nat.zero_add (charsLength _), woven_insertion, hend, if_pos rfl,
    List.append_nil] at ho
  cases ho
  rw [String.ofList_append, String.ofList_toList]

theorem keepsLines_ofSource {shader : Shader} (h : ofSource includes file source = .ok shader) :
    ∃ d, Declarations.ofRoot includes file source = .ok d ∧
      ∃ preamble consumed lookups, KeepsLines source d shader preamble consumed lookups := by
  obtain ⟨d, hd, hgen⟩ := ofSource_eq_ok h
  obtain ⟨p, hc, hres, hsamplers, _, ho, hshader⟩ := generate_eq_ok hgen
  refine ⟨d, hd, p.text, consumed (Outline.ofText source).items p.constants.structs,
    d.functions.filterMap (lookupInsertion p.resources (encode source)), ?_⟩
  have hidentifiers : ∀ r ∈ p.resources, IsIdentifier r.name ∧
      ∀ element, r.element = some element → IsIdentifier element := fun r hr =>
    resource_identifiers hd (hres ▸ hr)
  have hresources : shader.resources = p.resources := by rw [hshader]
  have hsamplers' : shader.samplers = p.samplers := by rw [hshader, hsamplers]
  have hline : ∀ i ∈ d.functions.filterMap (lookupInsertion p.resources (encode source)),
      '\n' ∉ i.2.toList := by
    intro i hi
    obtain ⟨_, body, _, rfl, _⟩ := lookup_place_of_mem hd hi
    exact newline_not_mem_lookups hidentifiers _
  exact {
    output := output_eq hd ho
    preamble_empty := by rw [hresources, hsamplers', Preamble.text_eq_empty]
    preamble_end := fun hne => Preamble.text_end (mt Preamble.text_eq_empty.2 hne)
    lookups_eq := by
      rw [hresources]
      exact filterMap_lookupInsertion hd fun r hr => (hidentifiers r hr).1
    lookup_place := fun i hi => by
      obtain ⟨name, body, hm, rfl, hpos, hopen, _⟩ := lookup_place_of_mem hd hi
      exact ⟨name, body, hm, rfl, hpos, hopen⟩
    lookup_line := hline
    consumed_iff := fun offset => consumed_iff hc
    whole := fun range hr => lies_of_consumes hd hr
    length := by rw [length_woven_nil, length_eq_charsLength]
    lines := by
      have hsplit := @splitOn_woven
        (consumed (Outline.ofText source).items p.constants.structs) _ hline 0 source.toList
      rwa [Nat.zero_add, ← length_eq_charsLength, textAt_length hd, List.append_nil] at hsplit }

/-- The text of a shader with this preamble. -/
def textWith (source : String) (d : Declarations) (p : Preamble) : String :=
  p.text ++ String.ofList
    (woven (consumed (Outline.ofText source).items p.constants.structs)
      (d.functions.filterMap (lookupInsertion p.resources (encode source))) 0 source.toList)

/-- The text of a shader can be computed, as far as it is known how its resources are sorted. -/
theorem exists_output_of_ordered {output : String} {ordered : List Resource}
    (h : ∃ d ∈ (Declarations.ofRoot includes file source).toOption,
      d.resources.Perm ordered ∧ ordered.Pairwise (fun a b => ¬b.InOrder a) ∧
      ∃ u ∈ (UserConstants.ofDeclarations file d).toOption,
      ∃ layout ∈ (ConstantsLayout.ofResources (Resource.withSlots 0 ordered) u.size).toOption,
        textWith source d ⟨u, layout, Resource.withSlots 0 ordered, d.samplers⟩ = output) :
    ∃ shader, ofSource includes file source = .ok shader ∧ shader.output = output := by
  obtain ⟨shader, d, p, hshader, hd, htext, ho, -⟩ :=
    @exists_of_ordered _ _ _ (fun d p => textWith source d p = output) ordered h
  exact ⟨shader, hshader, (output_eq hd ho).trans htext⟩

theorem exists_keepsLines :
    let source := "#pragma path \"é\"\n[constants] ConstantBuffer<S> c; // ü\n" ++
      "struct S \x7b\n  float x; // é\n\x7d;\nTexture2D t;\nSamplerState s : default;\n" ++
      "float4 f() \x7b\n  return t.Sample(s, c.x);\n\x7d\n"
    let preamble := "struct S\n\x7b\n    float x;\n\x7d;\n" ++
      "struct __USER_CONSTANTS_GENERATED\n\x7b\n    S USER_c;\n\x7d;\n" ++
      "struct __BINDLESS_GENERATED\n\x7b\n    __USER_CONSTANTS_GENERATED USER_ConstantsData;\n" ++
      "    uint IDX_t; //__Default:0\n\x7d;\n" ++
      "#ifdef __spirv__\n[[vk::push_constant]]\n#endif\n" ++
      "ConstantBuffer<__BINDLESS_GENERATED> __BINDLESS_CB : register(b0);\n" ++
      "#define c __BINDLESS_CB.USER_ConstantsData.USER_c\nSamplerState s : register(s0);\n#line 1\n"
    let edited := "                 \n                                 // ü\n" ++
      "          \n                \n  \n            \n                         \n" ++
      "float4 f() \x7b Texture2D t = (Texture2D)ResourceDescriptorHeap[__BINDLESS_CB.IDX_t]; \n" ++
      "  return t.Sample(s, c.x);\n\x7d\n"
    ∃ shader, ofSource (.ofFiles []) "f" source = .ok shader ∧ shader.output = preamble ++ edited ∧
      ∃ d, Declarations.ofRoot (.ofFiles []) "f" source = .ok d ∧
        ∃ preamble consumed lookups, KeepsLines source d shader preamble consumed lookups := by
  intro source preamble edited
  let c : Resource := ⟨.constantBuffer, some "S", "c", .default, none, [.constants], ⟨2, 13⟩⟩
  let t : Resource := ⟨.texture2D, none, "t", .default, none, [], ⟨6, 1⟩⟩
  obtain ⟨shader, h, houtput⟩ := @exists_output_of_ordered (.ofFiles []) "f" source
    (preamble ++ edited) [c, t] (by decide +kernel)
  exact ⟨shader, h, houtput, keepsLines_ofSource h⟩

end Shader

end BindlessHlsl
