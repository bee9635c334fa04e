import BindlessHlsl.Proofs.ConstantsStructs

/-!
Where the structs of a root file are reported in the generated text (`Shader.LocatesStruct`). At the
reported range stands the text of the struct, or blanks if the struct was copied into the preamble.
The one exception is a struct at the very start of the file: its range also covers the preamble, so
that it is exact only if there is none.
-/

namespace BindlessHlsl

open Utf8 EditList

/-- A range of a text holds one part of it only. -/
theorem ByteRange.Holds.unique {r : ByteRange} {text p q : List UInt8} (hp : r.Holds text p)
    (hq : r.Holds text q) : p = q := by
  obtain ⟨front, back, rfl, hstart, hstop⟩ := hp
  obtain ⟨front', back', htext, hstart', hstop'⟩ := hq
  have hlength : p.length = q.length := by omega
  have hrest := (List.append_inj htext (hstart.symm.trans hstart')).2
  exact (List.append_inj hrest hlength).1

namespace Shader

variable {includes : Includes} {file source : String} {d : Declarations} {s : Struct}
  {r : ByteRange}

/-- What is left of the text of a struct in its place: blanks if the struct was copied. -/
def remains (d : Declarations) (s : Struct) (text : List Char) : List Char :=
  if s ∈ d.copied then text.flatMap overwritten else text

theorem woven_struct (hd : Declarations.ofRoot includes file source = .ok d)
    (hs : s ∈ d.structs) (hr : s.range = some r) (resources : List Resource)
    {front text back : List Char} (hdivides : r.Divides source.toList front text back) :
    woven (consumed (Outline.ofText source).items d.copied)
      (d.functions.filterMap (lookupInsertion resources (encode source))) r.start text =
        remains d s text := by
  unfold remains
  split
  next hm => exact woven_struct_eq_flatMap hd hs hr hm resources hdivides
  next hn => exact woven_struct_eq_self hd hs hr d.copied_subset hn resources hdivides

/-- At the mapped range of a struct stands what is left of it, behind the preamble if the struct
starts the file. -/
theorem holds_struct (hd : Declarations.ofRoot includes file source = .ok d) {p : Preamble}
    (hstructs : p.constants.structs = d.copied) {output : String}
    (ho : (p.edits source d.functions).edited? source = some output) (hs : s ∈ d.structs)
    (hr : s.range = some r) {front text back : List Char}
    (hdivides : r.Divides source.toList front text back) :
    ((p.edits source d.functions).mapRange r).Holds (encode output)
      (encode (if r.start = 0 then p.text else "") ++ encodeChars (remains d s text)) := by
  have hholds := holds_mapRange (fun i hi => boundary_edits hd p hi) hdivides.text_eq ho
  have hend : textAt (d.functions.filterMap (lookupInsertion p.resources (encode source)))
      r.stop = [] :=
    textAt_struct hd hs hr p.resources (hdivides.start_add ▸ Nat.le_add_right ..) (Nat.le_refl _)
  have hwoven := @woven_insertion (consumed (Outline.ofText source).items d.copied) p
    (d.functions.filterMap (lookupInsertion p.resources (encode source))) r.start text
  rw [hdivides.start_add, hend, List.append_nil,
    woven_struct hd hs hr p.resources hdivides] at hwoven
  rw [p.blanks_edits, p.insertions_edits, hstructs, ← hdivides.stop_eq, ← hdivides.start_eq, hwoven,
    encodeChars_append, ← encode_eq_encodeChars] at hholds
  exact hholds

/-- A struct of the root file, its text, and the range at which it is reported in the generated
text. -/
structure LocatesStruct (source : String) (d : Declarations) (shader : Shader) (preamble : String)
    (s : Struct) (r reported : ByteRange) (text : List Char) : Prop where
  divides : ∃ front back, r.Divides source.toList front text back
  holds : reported.Holds (encode shader.output)
    (encode (if r.start = 0 then preamble else "") ++ encodeChars (remains d s text))
  exact_iff : reported.Holds (encode shader.output) (encodeChars (remains d s text)) ↔
    r.start ≠ 0 ∨ shader.resources = [] ∧ shader.samplers = []

theorem locatesStructs_ofSource {shader : Shader} (h : ofSource includes file source = .ok shader) :
    ∃ d preamble rest, Declarations.ofRoot includes file source = .ok d ∧
      shader.output = preamble ++ rest ∧ ∃ place : ByteRange → ByteRange,
      d.structs.filterMap Struct.range =
        (Outline.ofText source).items.filterMap Item.structRange? ∧
      shader.structs = d.structs.map (fun s => { s with range := s.range.map place }) ∧
      ∀ s ∈ d.structs, ∀ r, s.range = some r →
        ∃ text, LocatesStruct source d shader preamble s r (place r) text := by
  obtain ⟨d, hd, hgen⟩ := ofSource_eq_ok h
  obtain ⟨p, hc, -, hsamplers, -, ho, hshader⟩ := generate_eq_ok hgen
  have hempty : p.text = "" ↔ shader.resources = [] ∧ shader.samplers = [] := by
    rw [hshader, Preamble.text_eq_empty, hsamplers]
  refine ⟨d, p.text, _, hd, output_eq hd ho, (p.edits source d.functions).mapRange,
    Declarations.structRanges_eq hd, by rw [hshader]; rfl, fun s hs r hr => ?_⟩
  obtain ⟨front, text, back, hdivides, -⟩ := exists_divides hd hs hr
  have hholds := holds_struct hd (UserConstants.structs_eq_copied hc) ho hs hr hdivides
  refine ⟨text, ⟨front, back, hdivides⟩, hholds, fun hexact => ?_, fun hcase => ?_⟩
  · refine or_iff_not_imp_left.2 fun hstart => hempty.1 ?_
    have hunique := hexact.unique hholds
    rw [if_pos (not_not.1 hstart), List.self_eq_append_left] at hunique
    exact encode_injective hunique
  · have hpreamble : (if r.start = 0 then p.text else "") = "" := by
      split
      next hstart => exact hempty.2 (hcase.resolve_left fun hne => hne hstart)
      next => rfl
    rwa [hpreamble] at hholds

theorem exists_locatesStructs :
    let source := "struct A \x7b float a; \x7d;\n[constants] ConstantBuffer<A> x;\n" ++
      "float4 f() \x7b return 0; \x7d\nstruct B \x7b float2 b; \x7d;\n"
    ∃ shader d preamble rest place, ofSource (.ofFiles []) "f" source = .ok shader ∧
      Declarations.ofRoot (.ofFiles []) "f" source = .ok d ∧
      shader.output = preamble ++ rest ∧
      d.structs.map (fun s => (s.name, s.range)) =
        [("A", some ⟨0, 22⟩), ("B", some ⟨81, 104⟩)] ∧
      shader.structs = d.structs.map (fun s => { s with range := s.range.map place }) ∧
      ∀ s ∈ d.structs, ∀ r, s.range = some r →
        ∃ text, LocatesStruct source d shader preamble s r (place r) text := by
  intro source
  have hplan : planned (.ofFiles []) "f" source = .ok (some ⟨.combined, 0, 4⟩) := by
    decide +kernel
  have hstructs : ∃ d ∈ (Declarations.ofRoot (.ofFiles []) "f" source).toOption,
      d.structs.map (fun s => (s.name, s.range)) =
        [("A", some ⟨0, 22⟩), ("B", some ⟨81, 104⟩)] := by
    decide +kernel
  obtain ⟨shader, h⟩ := exists_ofSource hplan
  obtain ⟨d, preamble, rest, hd, ho, place, -, hmoved, hlocates⟩ := locatesStructs_ofSource h
  obtain ⟨_, hd', hstructs⟩ := hstructs
  rw [hd] at hd'
  cases hd'
  exact ⟨shader, d, preamble, rest, place, h, hd, ho, hstructs, hmoved, hlocates⟩

/-- A shader whose first struct is reported at a range that begins with the preamble. -/
theorem struct_range_covers_preamble :
    let struct := "struct S \x7b float x; \x7d;"
    let source := struct ++ "\nTexture2D t;\n"
    let preamble := "struct __BINDLESS_GENERATED\n\x7b\n    uint IDX_t; //__Default:0\n\x7d;\n" ++
      "#ifdef __spirv__\n[[vk::push_constant]]\n#endif\n" ++
      "ConstantBuffer<__BINDLESS_GENERATED> __BINDLESS_CB : register(b0);\n#line 1\n"
    ∃ shader, ofSource (.ofFiles []) "f.hlsl" source = .ok shader ∧
      shader.output = preamble ++ struct ++ "\n            \n" ∧
      shader.structs.map Struct.range = [some ⟨0, 206⟩] ∧
      (⟨184, 206⟩ : ByteRange).Holds (encode shader.output) (encode struct) ∧
      ¬ (⟨0, 206⟩ : ByteRange).Holds (encode shader.output) (encode struct) := by
  intro struct source preamble
  let r : Resource := ⟨.texture2D, none, "t", .default, none, [], ⟨2, 1⟩⟩
  obtain ⟨shader, d, p, hshader, hd, ⟨htext, hranges⟩, ho, hfields⟩ :=
    @exists_of_ordered (.ofFiles []) "f.hlsl" source (fun d p =>
      textWith source d p = preamble ++ struct ++ "\n            \n" ∧
      d.structs.map (fun s => (moveStruct (p.edits source d.functions) s).range) =
        [some ⟨0, 206⟩]) [r] (by decide +kernel)
  have houtput := (output_eq hd ho).trans htext
  refine ⟨shader, hshader, houtput, ?_, ?_, ?_⟩
  · rw [hfields, List.map_map]
    exact hranges
  · rw [houtput, encode_append, encode_append]
    exact ⟨encode preamble, _, List.append_assoc .., by decide +kernel, by decide +kernel⟩
  · rintro ⟨front, back, -, hstart, hstop⟩
    have hlength : (encode struct).length = 22 := by decide +kernel
    dsimp only at hstart hstop
    omega

end Shader

end BindlessHlsl
