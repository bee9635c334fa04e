import BindlessHlsl.Proofs.Comments
import BindlessHlsl.Proofs.ConstantsStructs

/-!
The order of the struct definitions in a generated text. Copies come first, then the generated
structs, and then the structs that stayed in the root file, so that what stood behind a struct in
the root file stands behind its definition (`Shader.OrdersStructs`). The copies change places among
themselves and pass the structs that stay. Definitions stay ahead of their uses exactly if copies
name only copies before them, and the index table names no struct that stays.
-/

namespace BindlessHlsl

open Utf8 EditList

/-! ## Definitions in a generated text -/

/-- The type names of the members. -/
def Struct.uses (s : Struct) : List String := s.members.filterMap Member.typeName?

/-- Every struct of the root file stands behind the others that it names. -/
def Declarations.DefinedBeforeUse (d : Declarations) : Prop :=
  ∀ s ∈ d.structs, ∀ t ∈ d.structs, t ≠ s → t.name ∈ s.uses →
    ∀ a ∈ t.range, ∀ b ∈ s.range, a.stop ≤ b.start

instance decidableDefinedBeforeUse (d : Declarations) : Decidable d.DefinedBeforeUse :=
  inferInstanceAs (Decidable (∀ s ∈ d.structs, ∀ t ∈ d.structs, t ≠ s → t.name ∈ s.uses →
    ∀ a ∈ t.range, ∀ b ∈ s.range, a.stop ≤ b.start))

theorem Utf8.encode_join (texts : List String) :
    encode (String.join texts) = texts.flatMap encode := by
  induction texts with
  | nil => rfl
  | cons text rest ih => simp [String.join_cons, ih]

namespace Preamble

def Field.typeName : Field → String
  | slot .. => "uint"
  | constants typeName _ => typeName
  | embedded => "__USER_CONSTANTS_GENERATED"

def Part.text (part : Part) : String := String.join (part.lines.map fun line => line ++ "\n")

/-- A generated struct with its members. -/
def Part.generated? : Part → Option (String × List Field)
  | struct name fields => some (name, fields)
  | _ => none

end Preamble

/-- A struct definition in a generated text. -/
inductive StructText where
  /-- A struct that was copied into the preamble. -/
  | copy (s : Struct)
  | generated (name : String) (fields : List Preamble.Field)
  /-- A struct that stayed in the text of the root file. -/
  | kept (s : Struct)
  deriving DecidableEq, Repr

namespace StructText

/-- The struct of the declarations that is defined. -/
def struct? : StructText → Option Struct
  | copy s => some s
  | generated .. => none
  | kept s => some s

theorem filterMap_copy (structs : List Struct) :
    (structs.map copy).filterMap struct? = structs := by
  rw [List.filterMap_map]
  exact List.filterMap_some

/-- The type names of the members. -/
def uses : StructText → List String
  | copy s => s.uses
  | generated _ fields => fields.map Preamble.Field.typeName
  | kept s => s.uses

/-- How the definition is written, given the root file. -/
def bytes (source : String) : StructText → List UInt8
  | copy s => encode (Preamble.Part.text (.copy s.name (s.members.map Member.declaration)))
  | generated name fields => encode (Preamble.Part.text (.struct name fields))
  | kept s => (s.range.map fun r => r.slice (encode source)).getD []

end StructText

namespace Preamble

variable {p : Preamble}

theorem generated_parts : p.parts.filterMap Part.generated? = p.generated := by
  rw [filterMap_parts (fun _ _ => rfl) (fun _ _ => rfl) (fun _ _ => rfl)]
  simp only [blockParts, constantsParts, tableParts, constantsBufferParts, generated,
    List.isEmpty_iff, Option.isNone_iff_eq_none]
  split <;> split <;> split <;> rfl

/-- The structs of a preamble, in the order in which they are written. -/
def structTexts (p : Preamble) : List StructText :=
  p.constants.structs.map .copy ++ p.generated.map fun g => .generated g.1 g.2

theorem encode_text (part : Part) :
    encode part.text = part.lines.flatMap fun line => encode (line ++ "\n") := by
  rw [Part.text, encode_join, List.flatMap_map]

theorem encode_text_ne_nil (part : Part) : encode part.text ≠ [] := by
  have hlines : part.lines ≠ [] := by
    cases part <;> simp [Part.lines]
  obtain ⟨line, rest, h⟩ := List.exists_cons_of_ne_nil hlines
  have hend : encode "\n" ≠ [] := by decide
  rw [encode_text, h, List.flatMap_cons, encode_append]
  simp [hend]

theorem encode_printed {parts : List Part} (h : parts ≠ []) :
    encode (printed parts) =
      (parts.flatMap fun part => encode part.text) ++ encode "#line 1\n" := by
  rw [printed, if_neg h, encode_join, List.flatMap_map, List.flatMap_append, List.flatMap_assoc,
    List.flatMap_singleton]
  simp only [encode_text]
  rfl

/-- The text of a preamble starts with its structs. -/
theorem exists_encode_printed (p : Preamble) (source : String) : ∃ rest,
    encode (printed p.parts) = p.structTexts.flatMap (StructText.bytes source) ++ rest := by
  obtain ⟨others, hparts, -⟩ := p.exists_parts_eq_structs
  have htexts : p.structTexts.flatMap (StructText.bytes source) =
      (p.copiedParts ++ p.generated.map fun g => Part.struct g.1 g.2).flatMap
        fun part => encode part.text := by
    simp only [structTexts, copiedParts, List.flatMap_append, List.flatMap_map]
    rfl
  by_cases hnil : p.parts = []
  · rw [hnil, eq_comm, List.append_eq_nil_iff, List.append_eq_nil_iff] at hparts
    rw [htexts, hnil, hparts.1, hparts.2.1]
    exact ⟨[], rfl⟩
  · rw [encode_printed hnil, hparts, ← List.append_assoc, List.flatMap_append, htexts,
      List.append_assoc]
    exact ⟨_, rfl⟩

end Preamble

/-- The structs of a preamble are no empty texts. -/
theorem Preamble.bytes_ne_nil {p : Preamble} (source : String) {s : StructText}
    (h : s ∈ p.structTexts) : s.bytes source ≠ [] := by
  rcases List.mem_append.1 h with h | h
  · obtain ⟨t, -, rfl⟩ := List.mem_map.1 h
    exact encode_text_ne_nil _
  · obtain ⟨g, -, rfl⟩ := List.mem_map.1 h
    exact encode_text_ne_nil _

/-! ## Where definitions start -/

namespace StructText

/-- Definitions that are written one behind the other from an offset on, each with its start. -/
def startingAt (source : String) : Nat → List StructText → List (Nat × StructText)
  | _, [] => []
  | offset, s :: rest => (offset, s) :: startingAt source (offset + (s.bytes source).length) rest

variable {source : String} {offset : Nat} {texts : List StructText} {x : Nat × StructText}

theorem map_snd_startingAt : (startingAt source offset texts).map Prod.snd = texts := by
  induction texts generalizing offset with
  | nil => rfl
  | cons s rest ih => rw [startingAt, List.map_cons, ih]

theorem le_of_mem_startingAt (h : x ∈ startingAt source offset texts) : offset ≤ x.1 := by
  induction texts generalizing offset with
  | nil => cases h
  | cons s rest ih =>
    rcases List.mem_cons.1 h with rfl | h
    · exact Nat.le_refl _
    · exact Nat.le_trans (Nat.le_add_right ..) (ih h)

/-- Each of the definitions stands where it starts. -/
theorem holds_startingAt (front back : List UInt8)
    (h : x ∈ startingAt source front.length texts) :
    ByteRange.Holds ⟨x.1, x.1 + (x.2.bytes source).length⟩
      (front ++ (texts.flatMap (bytes source) ++ back)) (x.2.bytes source) := by
  induction texts generalizing front with
  | nil => cases h
  | cons s rest ih =>
    rw [List.flatMap_cons, List.append_assoc]
    rcases List.mem_cons.1 h with rfl | h
    · exact ⟨front, _, rfl, rfl, rfl⟩
    · rw [← List.length_append] at h
      have := ih _ h
      rwa [List.append_assoc] at this

theorem pairwise_startingAt (h : ∀ s ∈ texts, s.bytes source ≠ []) :
    (startingAt source offset texts).Pairwise fun a b => a.1 < b.1 := by
  induction texts generalizing offset with
  | nil => exact .nil
  | cons s rest ih =>
    obtain ⟨hs, hrest⟩ := List.forall_mem_cons.1 h
    have hpos := List.length_pos_iff.2 hs
    refine List.pairwise_cons.2 ⟨fun x hx => ?_, ih hrest⟩
    have := le_of_mem_startingAt hx
    dsimp only
    omega

end StructText

theorem ByteRange.Holds.start_lt {r : ByteRange} {text part : List UInt8} (h : r.Holds text part)
    (hp : part ≠ []) : r.start < text.length := by
  obtain ⟨front, back, rfl, hs, -⟩ := h
  have := List.length_pos_iff.2 hp
  rw [hs, List.length_append, List.length_append]
  omega

namespace EditList

variable {blanked : Nat → Bool} {insertions : List (Nat × String)} {r : ByteRange}
  {text front mid back : List Char}

/-- The length of an edited text in front of what stood at an offset. -/
def wovenLength (blanked : Nat → Bool) (insertions : List (Nat × String)) (text : List Char)
    (offset : Nat) : Nat :=
  ((cut? offset text).map fun parts => charsLength (woven blanked insertions 0 parts.1)).getD 0

theorem wovenLength_append (front back : List Char) :
    wovenLength blanked insertions (front ++ back) (charsLength front) =
      charsLength (woven blanked insertions 0 front) := by
  have hcut := cut?_append front back 0
  rw [Nat.add_zero, cut?] at hcut
  rw [wovenLength, hcut]
  simp

/-- A text that ends behind a range goes on behind what the range covers. -/
theorem exists_append_of_stop_le {front' back' : List Char} (h : r.Divides text front mid back)
    (htext : text = front' ++ back') (hle : r.stop ≤ charsLength front') :
    ∃ more, front' = front ++ (mid ++ more) := by
  rw [h.text_eq, ← List.append_assoc] at htext
  rcases List.append_eq_append_iff.1 htext with ⟨more, hfront, -⟩ | ⟨more, hfront, -⟩
  · exact ⟨more, by rw [hfront, List.append_assoc]⟩
  · have hlength := congrArg charsLength hfront
    rw [charsLength_append, charsLength_append, ← h.stop_eq] at hlength
    obtain rfl : more = [] := by
      cases more with
      | nil => rfl
      | cons c more =>
        have := c.utf8Size_pos
        rw [charsLength_cons] at hlength
        omega
    exact ⟨[], by rw [List.append_nil, hfront, List.append_nil]⟩

/-- What stands behind a range stays behind it. -/
theorem length_woven_add_le {front' back' : List Char} (h : r.Divides text front mid back)
    (htext : text = front' ++ back') (hle : r.stop ≤ charsLength front') :
    charsLength (woven blanked insertions 0 front) +
        charsLength (woven blanked insertions r.start mid) ≤
      charsLength (woven blanked insertions 0 front') := by
  obtain ⟨more, rfl⟩ := exists_append_of_stop_le h htext hle
  rw [woven_append, woven_append, charsLength_append, charsLength_append, Nat.zero_add, h.start_eq]
  omega

theorem wovenLength_start (h : r.Divides text front mid back) :
    wovenLength blanked insertions text r.start =
      charsLength (woven blanked insertions 0 front) := by
  rw [h.text_eq, h.start_eq, wovenLength_append]

/-- What stands behind a stretch that is left alone stays behind its start. -/
theorem wovenLength_lt {front' back' : List Char} (h : r.Divides text front mid back)
    (hself : woven blanked insertions r.start mid = mid) (hne : mid ≠ [])
    (htext : text = front' ++ back') (hle : r.stop ≤ charsLength front') :
    wovenLength blanked insertions text r.start <
      charsLength (woven blanked insertions 0 front') := by
  have hadd := @length_woven_add_le blanked insertions _ _ _ _ _ _ _ h htext hle
  obtain ⟨c, cs, rfl⟩ := List.exists_cons_of_ne_nil hne
  have hc := c.utf8Size_pos
  rw [wovenLength_start h]
  rw [hself, charsLength_cons] at hadd
  omega

theorem holds_woven (before : List UInt8) (h : r.Divides text front mid back)
    (hself : woven blanked insertions r.start mid = mid) :
    ByteRange.Holds ⟨before.length + wovenLength blanked insertions text r.start,
        before.length + wovenLength blanked insertions text r.start + (encodeChars mid).length⟩
      (before ++ encodeChars (woven blanked insertions 0 text)) (encodeChars mid) := by
  refine ⟨before ++ encodeChars (woven blanked insertions 0 front),
    encodeChars (woven blanked insertions r.stop back), ?_, ?_, ?_⟩
  · rw [woven_of_divides h, hself, encodeChars_append, encodeChars_append, List.append_assoc]
  · rw [wovenLength_start h, List.length_append, length_encodeChars, length_encodeChars]
  · rw [wovenLength_start h, List.length_append, length_encodeChars, length_encodeChars]

end EditList

/-! ## Definitions and uses -/

namespace Shader

/-- Each definition stands behind those of the other structs that it names. -/
def KeepsOrder (d : Declarations) (definitions : List (Nat × StructText)) : Prop :=
  ∀ x ∈ definitions, ∀ t ∈ d.structs, x.2.struct? ≠ some t → t.name ∈ x.2.uses →
    ∃ y ∈ definitions, y.2.struct? = some t ∧ y.1 < x.1

theorem sublist_of_lt {definitions : List (Nat × StructText)} {x y : Nat × StructText}
    (h : definitions.Pairwise fun a b => a.1 < b.1) (hx : x ∈ definitions) (hy : y ∈ definitions)
    (hlt : y.1 < x.1) : [y, x].Sublist definitions := by
  induction h with
  | nil => cases hx
  | @cons a rest hfirst _ ih =>
    rcases List.mem_cons.1 hy with rfl | hy'
    · rcases List.mem_cons.1 hx with rfl | hx'
      · exact absurd hlt (Nat.lt_irrefl _)
      · exact (List.singleton_sublist.2 hx').cons_cons _
    · rcases List.mem_cons.1 hx with rfl | hx'
      · exact absurd hlt (Nat.lt_asymm (hfirst y hy'))
      · exact (ih hx' hy').cons _

theorem exists_of_map_snd {α : Type} {definitions : List (Nat × StructText)} {l : List α}
    {f : α → StructText} (h : definitions.map Prod.snd = l.map f) :
    (∀ x ∈ definitions, ∃ a ∈ l, x.2 = f a) ∧ ∀ a ∈ l, ∃ x ∈ definitions, x.2 = f a := by
  constructor
  · intro x hx
    have hm : x.2 ∈ definitions.map Prod.snd := List.mem_map_of_mem hx
    rw [h] at hm
    obtain ⟨a, ha, he⟩ := List.mem_map.1 hm
    exact ⟨a, ha, he.symm⟩
  · intro a ha
    have hm : f a ∈ l.map f := List.mem_map_of_mem ha
    rw [← h] at hm
    exact List.mem_map.1 hm

/-- The definitions of a generated text: copies, generated structs, and structs that stayed. -/
structure Arranges (d : Declarations) (structs : List (String × List Preamble.Field))
    (copies generated kept : List (Nat × StructText)) : Prop where
  copies_eq : copies.map Prod.snd = d.copied.map .copy
  generated_eq : generated.map Prod.snd = structs.map fun g => .generated g.1 g.2
  kept_eq : kept.map Prod.snd = (d.structs.filter fun s => s ∉ d.copied).map .kept
  ascending : (copies ++ (generated ++ kept)).Pairwise fun a b => a.1 < b.1
  kept_before : ∀ x ∈ kept, ∀ y ∈ kept, ∀ s t, x.2 = .kept s → y.2 = .kept t → t ≠ s →
    t.name ∈ s.uses → y.1 < x.1

namespace Arranges

variable {d : Declarations} {structs : List (String × List Preamble.Field)}
  {copies generated kept : List (Nat × StructText)} {x : Nat × StructText} {s t : Struct}

theorem copies_lt (h : Arranges d structs copies generated kept) {y : Nat × StructText}
    (hy : y ∈ copies) (hx : x ∈ generated ++ kept) : y.1 < x.1 :=
  (List.pairwise_append.1 h.ascending).2.2 y hy x hx

/-- What comes before a copy is a copy that comes before it. -/
theorem before_copy_iff (h : Arranges d structs copies generated kept) (hx : x ∈ copies)
    (hs : x.2 = .copy s) :
    (∃ y ∈ copies ++ (generated ++ kept), y.2.struct? = some t ∧ y.1 < x.1) ↔
      [t, s].Sublist d.copied := by
  have hpairwise := (List.pairwise_append.1 h.ascending).1
  constructor
  · rintro ⟨y, hy, ht, hlt⟩
    rcases List.mem_append.1 hy with hy | hy
    · have hsub := ((sublist_of_lt hpairwise hx hy hlt).map Prod.snd).filterMap StructText.struct?
      have hpair : ([y, x].map Prod.snd).filterMap StructText.struct? = [t, s] := by
        rw [List.map_cons, List.filterMap_cons_some ht, List.map_singleton, hs]
        rfl
      rwa [hpair, h.copies_eq, StructText.filterMap_copy] at hsub
    · exact absurd hlt (Nat.lt_asymm (h.copies_lt hx hy))
  · intro hsub
    have hmap := hsub.map StructText.copy
    rw [← h.copies_eq, List.sublist_map_iff] at hmap
    obtain ⟨pair, hpair, he⟩ := hmap
    obtain ⟨y, rest, rfl, hy, he⟩ := List.map_eq_cons_iff.1 he.symm
    obtain ⟨x', rest, rfl, hx', he⟩ := List.map_eq_cons_iff.1 he
    obtain rfl := List.map_eq_nil_iff.1 he
    have hnodup : (copies.map Prod.snd).Nodup := by
      rw [h.copies_eq]
      exact (UserConstants.nodup_eraseDups _).map fun _ _ => StructText.copy.inj
    obtain rfl : x' = x := List.inj_on_of_nodup_map hnodup (hpair.subset (by simp)) hx
      (hx'.trans hs.symm)
    have hlt := List.rel_of_pairwise_cons (hpairwise.sublist hpair) List.mem_cons_self
    refine ⟨y, List.mem_append_left _ (hpair.subset (by simp)), ?_, hlt⟩
    rw [hy]
    rfl

/-- What comes before a generated struct is a copy. -/
theorem before_generated_iff (h : Arranges d structs copies generated kept)
    (hx : x ∈ generated) :
    (∃ y ∈ copies ++ (generated ++ kept), y.2.struct? = some t ∧ y.1 < x.1) ↔ t ∈ d.copied := by
  have hbehind := (List.pairwise_append.1 h.ascending).2.1
  constructor
  · rintro ⟨y, hy, ht, hlt⟩
    rcases List.mem_append.1 hy with hy | hy
    · obtain ⟨s, hs, he⟩ := (exists_of_map_snd h.copies_eq).1 y hy
      rw [he] at ht
      exact Option.some.inj ht ▸ hs
    · rcases List.mem_append.1 hy with hy | hy
      · obtain ⟨g, -, he⟩ := (exists_of_map_snd h.generated_eq).1 y hy
        rw [he] at ht
        cases ht
      · exact absurd hlt (Nat.lt_asymm ((List.pairwise_append.1 hbehind).2.2 x hx y hy))
  · intro ht
    obtain ⟨y, hy, he⟩ := (exists_of_map_snd h.copies_eq).2 t ht
    refine ⟨y, List.mem_append_left _ hy, ?_, h.copies_lt hy (List.mem_append_left _ hx)⟩
    rw [he]
    rfl

/-- A struct that stays is behind what it names. -/
theorem exists_before_kept (h : Arranges d structs copies generated kept) (hx : x ∈ kept)
    (hs : x.2 = .kept s) (ht : t ∈ d.structs) (hne : t ≠ s) (huse : t.name ∈ s.uses) :
    ∃ y ∈ copies ++ (generated ++ kept), y.2.struct? = some t ∧ y.1 < x.1 := by
  by_cases hc : t ∈ d.copied
  · obtain ⟨y, hy, he⟩ := (exists_of_map_snd h.copies_eq).2 t hc
    refine ⟨y, List.mem_append_left _ hy, ?_, h.copies_lt hy (List.mem_append_right _ hx)⟩
    rw [he]
    rfl
  · have hm : t ∈ d.structs.filter fun s => s ∉ d.copied :=
      List.mem_filter.2 ⟨ht, decide_eq_true hc⟩
    obtain ⟨y, hy, he⟩ := (exists_of_map_snd h.kept_eq).2 t hm
    refine ⟨y, List.mem_append_right _ (List.mem_append_right _ hy), ?_,
      h.kept_before x hx y hy s t hs he hne huse⟩
    rw [he]
    rfl

theorem keepsOrder_iff (h : Arranges d structs copies generated kept) :
    KeepsOrder d (copies ++ (generated ++ kept)) ↔
      (∀ s ∈ d.copied, ∀ t ∈ d.structs, t ≠ s → t.name ∈ s.uses → [t, s].Sublist d.copied) ∧
      ∀ g ∈ structs, ∀ t ∈ d.structs, t.name ∈ g.2.map Preamble.Field.typeName →
        t ∈ d.copied := by
  constructor
  · intro hkeeps
    constructor
    · intro s hs t ht hne huse
      obtain ⟨x, hx, he⟩ := (exists_of_map_snd h.copies_eq).2 s hs
      refine (h.before_copy_iff hx he).1 (hkeeps x (List.mem_append_left _ hx) t ht ?_ ?_)
      · rw [he]
        exact fun heq => hne (Option.some.inj heq).symm
      · rwa [he]
    · intro g hg t ht huse
      obtain ⟨x, hx, he⟩ := (exists_of_map_snd h.generated_eq).2 g hg
      have hm := List.mem_append_right copies (List.mem_append_left kept hx)
      refine (h.before_generated_iff hx).1 (hkeeps x hm t ht ?_ ?_)
      · rw [he]
        exact nofun
      · rwa [he]
  · rintro ⟨hcopied, htable⟩ x hx t ht hne huse
    rcases List.mem_append.1 hx with hx | hx
    · obtain ⟨s, hs, he⟩ := (exists_of_map_snd h.copies_eq).1 x hx
      rw [he] at hne huse
      exact (h.before_copy_iff hx he).2
        (hcopied s hs t ht (fun heq => hne (congrArg some heq.symm)) huse)
    · rcases List.mem_append.1 hx with hx | hx
      · obtain ⟨g, hg, he⟩ := (exists_of_map_snd h.generated_eq).1 x hx
        rw [he] at huse
        exact (h.before_generated_iff hx).2 (htable g hg t ht huse)
      · obtain ⟨s, -, he⟩ := (exists_of_map_snd h.kept_eq).1 x hx
        rw [he] at hne huse
        exact h.exists_before_kept hx he ht (fun heq => hne (congrArg some heq.symm)) huse

end Arranges

/-! ## Generated shaders -/

variable {includes : Includes} {file source : String} {d : Declarations} {shader : Shader}
  {s : Struct}

/-- Without included files, every struct stands in the root file. -/
theorem range_isSome (hd : Declarations.ofRoot includes file source = .ok d)
    (hfree : Item.InclusionFree (Outline.ofText source).items) (hs : s ∈ d.structs) :
    s.range.isSome := by
  obtain ⟨hcomplete, hgathers⟩ := Declarations.gathers_of_ofRoot hd
  rcases hgathers.mem_structs hs with hs | ⟨e, he, definition, place, range, -, -, -, hrange⟩
  · cases hs
  · rcases Expansion.mem_ofFile hcomplete he with
      ⟨hdepth, -⟩ | ⟨below, path, text, -, ⟨path', place', hinclusion, -⟩, -⟩
    · rw [hrange, Entry.inRoot, hdepth]
      rfl
    · exact absurd hinclusion (hfree path' place')

/-- Where a struct that stays starts in a generated text. -/
def keptAt (p : Preamble) (source : String) (d : Declarations) (s : Struct) : Nat × StructText :=
  (Utf8.length (Preamble.printed p.parts) +
    wovenLength (consumed (Outline.ofText source).items p.constants.structs)
      (d.functions.filterMap (lookupInsertion p.resources (encode source))) source.toList
      ((s.range.map ByteRange.start).getD 0), .kept s)

theorem keptAt_fst {p : Preamble} {r : ByteRange} (h : s.range = some r) :
    (keptAt p source d s).1 = Utf8.length (Preamble.printed p.parts) +
      wovenLength (consumed (Outline.ofText source).items p.constants.structs)
        (d.functions.filterMap (lookupInsertion p.resources (encode source))) source.toList
        r.start := by
  rw [keptAt, h]
  rfl

section Kept

variable {p : Preamble} {r : ByteRange} (hd : Declarations.ofRoot includes file source = .ok d)
  (hc : UserConstants.ofDeclarations file d = .ok p.constants) (hs : s ∈ d.structs)
  (hn : s ∉ d.copied) (hr : s.range = some r)

include hd hc hs hn hr

/-- What stands behind a struct that stays is behind its start. -/
theorem keptAt_lt {front back : List Char} (htext : source.toList = front ++ back)
    (hle : r.stop ≤ charsLength front) :
    (keptAt p source d s).1 < Utf8.length (Preamble.printed p.parts) +
      charsLength (woven (consumed (Outline.ofText source).items p.constants.structs)
        (d.functions.filterMap (lookupInsertion p.resources (encode source))) 0 front) := by
  obtain ⟨before, text, behind, hdivides, hwritten⟩ := exists_divides hd hs hr
  have hself := woven_struct_eq_self hd hs hr (UserConstants.structs_subset hc)
    (UserConstants.structs_eq_copied hc ▸ hn) p.resources hdivides
  have hne : text ≠ [] := by
    rintro rfl
    exact hwritten.ne_nil rfl
  rw [keptAt_fst hr]
  exact Nat.add_lt_add_left (wovenLength_lt hdivides hself hne htext hle) _

theorem holds_keptAt :
    ByteRange.Holds ⟨(keptAt p source d s).1,
        (keptAt p source d s).1 + ((StructText.kept s).bytes source).length⟩
      (encode (Preamble.printed p.parts) ++
        encodeChars (woven (consumed (Outline.ofText source).items p.constants.structs)
          (d.functions.filterMap (lookupInsertion p.resources (encode source))) 0 source.toList))
      ((StructText.kept s).bytes source) := by
  obtain ⟨before, text, behind, hdivides, -⟩ := exists_divides hd hs hr
  have hself := woven_struct_eq_self hd hs hr (UserConstants.structs_subset hc)
    (UserConstants.structs_eq_copied hc ▸ hn) p.resources hdivides
  have hbytes : (StructText.kept s).bytes source = encodeChars text := by
    rw [StructText.bytes, hr, encode_eq_encodeChars]
    exact hdivides.slice_eq
  rw [hbytes, keptAt_fst hr]
  exact holds_woven _ hdivides hself

theorem keptAt_lt_keptAt {t : Struct} {b : ByteRange} (ht : t ∈ d.structs) (hb : t.range = some b)
    (hle : r.stop ≤ b.start) : (keptAt p source d s).1 < (keptAt p source d t).1 := by
  obtain ⟨before, text, behind, hdivides, -⟩ := exists_divides hd ht hb
  have hlt := keptAt_lt hd hc hs hn hr hdivides.text_eq (hdivides.start_eq ▸ hle)
  rwa [← wovenLength_start hdivides, ← keptAt_fst hb] at hlt

end Kept

/-- The type names of the members of the index table. -/
def tableUses (d : Declarations) (layout : Option ConstantsLayout) : List String :=
  (if ConstantsLayout.isCombined layout && !(d.backed d.resources).isEmpty then
    ["__USER_CONSTANTS_GENERATED"] else []) ++
    List.replicate (d.resources.filter fun r => !r.isConstants).length "uint"

theorem eq_of_mem_tableUses {layout : Option ConstantsLayout} {name : String}
    (h : name ∈ tableUses d layout) : name = "__USER_CONSTANTS_GENERATED" ∨ name = "uint" := by
  rcases List.mem_append.1 h with h | h
  · split at h
    · exact .inl (List.mem_singleton.1 h)
    · cases h
  · exact .inr (List.eq_of_mem_replicate h)

section Generated

variable {p : Preamble} (hd : Declarations.ofRoot includes file source = .ok d)
  (hc : UserConstants.ofDeclarations file d = .ok p.constants)
  (hres : p.resources = Resource.table d.resources)
  (hl : ConstantsLayout.ofResources p.resources p.constants.size = .ok p.layout)

include hc hres in
theorem map_typeName_table :
    (p.embeddedFields ++ p.slotFields).map Preamble.Field.typeName = tableUses d p.layout := by
  have hempty : p.constants.fields.isEmpty = (d.backed d.resources).isEmpty := by
    rw [(UserConstants.collects_of_ofDeclarations hc).fields, List.isEmpty_map]
  have hembedded : p.embeddedFields.map Preamble.Field.typeName =
      if ConstantsLayout.isCombined p.layout && !(d.backed d.resources).isEmpty then
        ["__USER_CONSTANTS_GENERATED"] else [] := by
    rw [Preamble.embeddedFields, hempty, Preamble.isCombined]
    split <;> rfl
  have hslots : p.slotFields.map Preamble.Field.typeName =
      List.replicate (d.resources.filter fun r => !r.isConstants).length "uint" := by
    have hlength : (d.resources.filter fun r => !r.isConstants).length =
        (p.resources.filter fun r => !r.isConstants).length := by
      rw [hres]
      exact (Resource.length_slotted_table d.resources).symm
    rw [Preamble.slotFields, List.map_map, hlength]
    exact List.map_const' ..
  rw [List.map_append, hembedded, hslots, tableUses]

include hres hl in
theorem tableUses_eq_nil (h : p.layout = none) : tableUses d p.layout = [] := by
  have hnil := (ConstantsLayout.lays_of_ofResources hl).none_iff.1 h
  have hresources : d.resources = [] := by
    rw [← List.length_eq_zero_iff, ← Resource.length_table, ← hres, hnil, List.length_nil]
  rw [tableUses, h, hresources]
  rfl

include hd hc hres hl in
/-- The struct of the user constants names copies only. -/
theorem copied_of_generated_iff :
    (∀ g ∈ p.generated, ∀ t ∈ d.structs, t.name ∈ g.2.map Preamble.Field.typeName →
      t ∈ d.copied) ↔
    ∀ t ∈ d.structs, t.name ∈ tableUses d p.layout → t ∈ d.copied := by
  have hconstants : ∀ t ∈ d.structs, t.name ∈ p.constantsFields.map Preamble.Field.typeName →
      t ∈ d.copied := by
    intro t ht huse
    rw [Preamble.constantsFields, (UserConstants.collects_of_ofDeclarations hc).fields,
      List.map_map, List.map_map] at huse
    obtain ⟨m, hm, hname⟩ := List.mem_map.1 huse
    have hcopied := Declarations.mem_copied.2 ⟨m, hm, rfl⟩
    exact Declarations.eq_of_name hd (d.copied_subset hcopied) ht hname ▸ hcopied
  have hfirst : ∀ g ∈ (if p.constants.fields = [] then []
      else [("__USER_CONSTANTS_GENERATED", p.constantsFields)]),
      ∀ t ∈ d.structs, t.name ∈ g.2.map Preamble.Field.typeName → t ∈ d.copied := by
    intro g hg
    split at hg
    · cases hg
    · rw [List.mem_singleton.1 hg]
      exact hconstants
  rw [Preamble.generated, List.forall_mem_append, and_iff_right hfirst]
  split
  next hnone =>
    rw [tableUses_eq_nil hres hl hnone]
    exact iff_of_true (List.forall_mem_nil _) fun t _ h => absurd h List.not_mem_nil
  next => rw [List.forall_mem_singleton, map_typeName_table hc hres]

end Generated

/-- The struct definitions of a generated text in the order of their offsets, what stands behind
them, and when each stands behind those that it names. -/
structure OrdersStructs (source : String) (d : Declarations) (shader : Shader)
    (parts : List Preamble.Part) (blanked : Nat → Bool) (lookups : List (Nat × String))
    (definitions : List (Nat × StructText)) : Prop
    extends Prints source d shader parts blanked lookups where
  definitions_eq : definitions.map Prod.snd = d.copied.map .copy ++
    ((parts.filterMap Preamble.Part.generated?).map (fun g => .generated g.1 g.2) ++
      (d.structs.filter fun s => s ∉ d.copied).map .kept)
  ascending : definitions.Pairwise fun a b => a.1 < b.1
  holds : ∀ x ∈ definitions,
    ByteRange.Holds ⟨x.1, x.1 + (x.2.bytes source).length⟩ (encode shader.output)
      (x.2.bytes source)
  written : ∀ s ∈ d.structs, s.Written ((StructText.kept s).bytes source)
  typed : ∀ s ∈ d.structs, ∀ m ∈ s.members, m.typeName?.isSome
  behind : ∀ x ∈ definitions, ∀ s, x.2.struct? = some s → ∀ r ∈ s.range, ∀ front back,
    source.toList = front ++ back → r.stop ≤ charsLength front →
    x.1 < Utf8.length (Preamble.printed parts) + charsLength (woven blanked lookups 0 front)
  keeps_order_iff : KeepsOrder d definitions ↔
    (∀ s ∈ d.copied, ∀ t ∈ d.structs, t ≠ s → t.name ∈ s.uses → [t, s].Sublist d.copied) ∧
    ∀ t ∈ d.structs, t.name ∈ tableUses d shader.layout → t ∈ d.copied

section Definitions

variable {p : Preamble} {x : Nat × StructText}

theorem startingAt_lt (h : x ∈ StructText.startingAt source 0 p.structTexts) :
    x.1 < Utf8.length (Preamble.printed p.parts) := by
  obtain ⟨rest, hrest⟩ := p.exists_encode_printed source
  have hm : x.2 ∈ (StructText.startingAt source 0 p.structTexts).map Prod.snd :=
    List.mem_map_of_mem h
  rw [StructText.map_snd_startingAt] at hm
  have hlt := (StructText.holds_startingAt [] rest h).start_lt (Preamble.bytes_ne_nil source hm)
  rwa [List.nil_append, ← hrest, length_encode] at hlt

/-- The definitions of a generated text come in the order of their offsets. -/
theorem arranges {copies generated : List (Nat × StructText)}
    (hd : Declarations.ofRoot includes file source = .ok d)
    (hc : UserConstants.ofDeclarations file d = .ok p.constants)
    (hranges : ∀ s ∈ d.structs, s.range.isSome) (hbefore : d.DefinedBeforeUse)
    (hstarts : StructText.startingAt source 0 p.structTexts = copies ++ generated)
    (hcopies : copies.map Prod.snd = d.copied.map .copy)
    (hgenerated : generated.map Prod.snd = p.generated.map fun g => .generated g.1 g.2) :
    Arranges d p.generated copies generated
      ((d.structs.filter fun s => s ∉ d.copied).map (keptAt p source d)) where
  copies_eq := hcopies
  generated_eq := hgenerated
  kept_eq := by
    rw [List.map_map]
    rfl
  ascending := by
    rw [← List.append_assoc, ← hstarts, List.pairwise_append]
    refine ⟨StructText.pairwise_startingAt fun s hs => Preamble.bytes_ne_nil source hs,
      List.pairwise_map.2 ?_, ?_⟩
    · refine ((Declarations.structs_apart hd).filter _).imp_of_mem ?_
      intro s t hs ht hapart
      simp only [List.mem_filter, decide_eq_true_eq] at hs ht
      obtain ⟨a, ha⟩ := Option.isSome_iff_exists.1 (hranges s hs.1)
      obtain ⟨b, hb⟩ := Option.isSome_iff_exists.1 (hranges t ht.1)
      exact keptAt_lt_keptAt hd hc hs.1 hs.2 ha ht.1 hb (hapart a ha b hb)
    · intro x hx y hy
      obtain ⟨s, -, rfl⟩ := List.mem_map.1 hy
      exact Nat.lt_of_lt_of_le (startingAt_lt hx) (Nat.le_add_right ..)
  kept_before := by
    intro x hx y hy s t hxs hyt hne huse
    obtain ⟨s', hs, rfl⟩ := List.mem_map.1 hx
    obtain ⟨t', ht, rfl⟩ := List.mem_map.1 hy
    cases hxs
    cases hyt
    simp only [List.mem_filter, decide_eq_true_eq] at hs ht
    obtain ⟨a, ha⟩ := Option.isSome_iff_exists.1 (hranges t ht.1)
    obtain ⟨b, hb⟩ := Option.isSome_iff_exists.1 (hranges s hs.1)
    exact keptAt_lt_keptAt hd hc ht.1 ht.2 ha hs.1 hb (hbefore s hs.1 t ht.1 hne huse a ha b hb)

end Definitions

theorem ordersStructs_ofSource (h : ofSource includes file source = .ok shader)
    (hd : Declarations.ofRoot includes file source = .ok d)
    (hfree : Item.InclusionFree (Outline.ofText source).items) (hbefore : d.DefinedBeforeUse) :
    ∃ parts blanked lookups definitions,
      OrdersStructs source d shader parts blanked lookups definitions := by
  obtain ⟨_, hd', hgen⟩ := ofSource_eq_ok h
  rw [hd] at hd'
  cases hd'
  obtain ⟨p, hc, hres, -, hl, ho, hshader⟩ := generate_eq_ok hgen
  have hlayout : shader.layout = p.layout := by rw [hshader]
  have hranges : ∀ s ∈ d.structs, s.range.isSome := fun s hs => range_isSome hd hfree hs
  have hprints := prints_of_generate hd hc hres hl ho (by rw [hshader])
  have hbytes := congrArg encode hprints.output
  rw [encode_append, encode_ofList] at hbytes
  obtain ⟨rest, hrest⟩ := p.exists_encode_printed source
  obtain ⟨copies, generated, hstarts, hcopies, hgenerated⟩ :=
    List.map_eq_append_iff.1 (@StructText.map_snd_startingAt source 0 p.structTexts)
  rw [UserConstants.structs_eq_copied hc] at hcopies
  have harranges := arranges hd hc hranges hbefore hstarts hcopies hgenerated
  -- A definition is in the preamble, or it is a struct that stays.
  have hcases : ∀ x ∈ copies ++ (generated ++
      (d.structs.filter fun s => s ∉ d.copied).map (keptAt p source d)),
      x ∈ StructText.startingAt source 0 p.structTexts ∨
        ∃ s ∈ d.structs, s ∉ d.copied ∧ x = keptAt p source d s := by
    intro x hx
    rw [← List.append_assoc, ← hstarts] at hx
    rcases List.mem_append.1 hx with hx | hx
    · exact .inl hx
    · obtain ⟨s, hs, rfl⟩ := List.mem_map.1 hx
      simp only [List.mem_filter, decide_eq_true_eq] at hs
      exact .inr ⟨s, hs.1, hs.2, rfl⟩
  refine ⟨p.parts, consumed (Outline.ofText source).items p.constants.structs,
    d.functions.filterMap (lookupInsertion p.resources (encode source)), copies ++ (generated ++
      (d.structs.filter fun s => s ∉ d.copied).map (keptAt p source d)), ?_⟩
  exact {
    toPrints := hprints
    definitions_eq := by
      rw [List.map_append, List.map_append, hcopies, hgenerated, harranges.kept_eq,
        Preamble.generated_parts]
    ascending := harranges.ascending
    holds := fun x hx => by
      rw [hbytes]
      rcases hcases x hx with hx | ⟨s, hs, hn, rfl⟩
      · rw [hrest, List.append_assoc]
        exact StructText.holds_startingAt [] _ hx
      · obtain ⟨r, hr⟩ := Option.isSome_iff_exists.1 (hranges s hs)
        exact holds_keptAt hd hc hs hn hr
    written := fun s hs => by
      obtain ⟨r, hr⟩ := Option.isSome_iff_exists.1 (hranges s hs)
      rw [StructText.bytes, hr]
      exact Declarations.written_of_mem hd hs hr
    typed := fun s hs => Declarations.typed_of_mem hd hs
    behind := fun x hx s hstruct r hr front back htext hle => by
      rcases hcases x hx with hx | ⟨t, ht, hn, rfl⟩
      · exact Nat.lt_of_lt_of_le (startingAt_lt hx) (Nat.le_add_right ..)
      · obtain rfl := Option.some.inj hstruct
        exact keptAt_lt hd hc ht hn hr htext hle
    keeps_order_iff := by
      rw [harranges.keepsOrder_iff, copied_of_generated_iff hd hc hres hl, hlayout] }

theorem exists_ordersStructs :
    let source := "struct A \x7b float a; \x7d;\n[constants] ConstantBuffer<A> x;\n" ++
      "struct B \x7b A a; float4 b; \x7d;\nstruct C \x7b const B b; A a[2]; \x7d;\n"
    ∃ shader d parts blanked lookups definitions,
      ofSource (.ofFiles []) "f" source = .ok shader ∧
      Declarations.ofRoot (.ofFiles []) "f" source = .ok d ∧
      Item.InclusionFree (Outline.ofText source).items ∧ d.DefinedBeforeUse ∧
      OrdersStructs source d shader parts blanked lookups definitions ∧
      KeepsOrder d definitions ∧
      d.structs.map Struct.uses = [["float"], ["A", "float4"], ["B", "A"]] ∧
      d.copied.map Struct.name = ["A"] := by
  intro source
  have hplan : planned (.ofFiles []) "f" source = .ok (some ⟨.combined, 0, 4⟩) := by
    decide +kernel
  have hfree : Item.InclusionFree (Outline.ofText source).items := by decide +kernel
  have hdeclared : ∃ d ∈ (Declarations.ofRoot (.ofFiles []) "f" source).toOption,
      d.DefinedBeforeUse ∧ d.structs.map Struct.uses = [["float"], ["A", "float4"], ["B", "A"]] ∧
      d.copied.map Struct.name = ["A"] ∧
      (∀ s ∈ d.copied, ∀ t ∈ d.structs, t ≠ s → t.name ∈ s.uses → [t, s].Sublist d.copied) ∧
      ∀ t ∈ d.structs, t.name ≠ "uint" ∧ t.name ≠ "__USER_CONSTANTS_GENERATED" := by
    decide +kernel
  obtain ⟨shader, h⟩ := exists_ofSource hplan
  obtain ⟨d, hd, hgen⟩ := ofSource_eq_ok h
  obtain ⟨_, hd', hbefore, huses, hcopied, hcopies, hnames⟩ := hdeclared
  rw [hd] at hd'
  cases hd'
  obtain ⟨parts, blanked, lookups, definitions, horders⟩ :=
    ordersStructs_ofSource h hd hfree hbefore
  have hkeeps : KeepsOrder d definitions := by
    refine horders.keeps_order_iff.2 ⟨hcopies, fun t ht huse => ?_⟩
    obtain ⟨huint, hconstants⟩ := hnames t ht
    exact absurd (eq_of_mem_tableUses huse) (not_or.2 ⟨hconstants, huint⟩)
  exact ⟨shader, d, parts, blanked, lookups, definitions, h, hd, hfree, hbefore, horders, hkeeps,
    huses, hcopied⟩

/-- A shader that copies `B` in front of the `A` that it names and that stays behind. -/
theorem copy_passes_definition :
    let source := "struct A \x7b float a; \x7d;\nstruct B \x7b A a; \x7d;\n" ++
      "[constants] ConstantBuffer<B> c;\n"
    let output := "struct B\n\x7b\n    A a;\n\x7d;\n" ++
      "struct __USER_CONSTANTS_GENERATED\n\x7b\n    B USER_c;\n\x7d;\n" ++
      "struct __BINDLESS_GENERATED\n\x7b\n" ++
      "    __USER_CONSTANTS_GENERATED USER_ConstantsData;\n\x7d;\n" ++
      "#ifdef __spirv__\n[[vk::push_constant]]\n#endif\n" ++
      "ConstantBuffer<__BINDLESS_GENERATED> __BINDLESS_CB : register(b0);\n" ++
      "#define c __BINDLESS_CB.USER_ConstantsData.USER_c\n#line 1\n" ++
      "struct A \x7b float a; \x7d;\n                  \n                                \n"
    Item.InclusionFree (Outline.ofText source).items ∧
      (∃ d ∈ (Declarations.ofRoot (.ofFiles []) "f.hlsl" source).toOption, d.DefinedBeforeUse ∧
        d.structs.map (fun s => (s.name, s.uses)) = [("A", ["float"]), ("B", ["A"])]) ∧
      ∃ shader, ofSource (.ofFiles []) "f.hlsl" source = .ok shader ∧ shader.output = output := by
  intro source output
  let r : Resource := ⟨.constantBuffer, some "B", "c", .default, none, [.constants], ⟨3, 13⟩⟩
  refine ⟨by decide +kernel, by decide +kernel, ?_⟩
  exact @exists_output_of_ordered _ _ _ _ [r] (by decide +kernel)

end Shader

end BindlessHlsl
