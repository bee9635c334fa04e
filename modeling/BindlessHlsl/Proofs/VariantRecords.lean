import BindlessHlsl.Proofs.PragmaLines

/-!
What an inspection records of bind groups and variants. Every record is well formed, whatever the
files contain (`FileRecord.wellFormed_ofText`): texts are checked before they are put into lower
case, and this keeps them in range and of the same length. The other way round every line that
declares a variant with valid texts and a new identifier is recorded
(`NoteScan.variants_of_line`), so that nothing valid is dropped.
-/

namespace BindlessHlsl

open Ascii Utf8 Relation

/-! ## Lower case -/

/-- A byte in lower case. -/
def Ascii.lower (b : UInt8) : UInt8 := if 65 ≤ b ∧ b ≤ 90 then b + 32 else b

theorem Ascii.toNat_lower (b : UInt8) :
    (lower b).toNat = if 65 ≤ b.toNat ∧ b.toNat ≤ 90 then b.toNat + 32 else b.toNat := by
  unfold lower
  simp only [UInt8.le_iff_toNat_le, UInt8.reduceToNat]
  split
  next h =>
    rw [UInt8.toNat_add]
    exact Nat.mod_eq_of_lt (by simp only [UInt8.reduceToNat]; omega)
  next => rfl

theorem utf8EncodeChar_toLower (c : Char) :
    String.utf8EncodeChar c.toLower = (String.utf8EncodeChar c).map Ascii.lower := by
  by_cases hc : c.toNat < 128
  · have hall : ∀ n < 128, String.utf8EncodeChar (Char.ofNat n).toLower =
        (String.utf8EncodeChar (Char.ofNat n)).map Ascii.lower := by decide +kernel
    have hchar := hall c.toNat hc
    rwa [Char.ofNat_toNat] at hchar
  · -- A longer character has no case, and its bytes are no letters.
    have hlower : c.toLower = c := dif_neg fun h => hc (by
      have hle : c.toNat ≤ 90 := UInt32.le_iff_toNat_le.1 h.2
      omega)
    rw [hlower]
    refine (List.map_id _).symm.trans (List.map_congr_left fun b hb => ?_)
    have hle : ¬c.val.toNat ≤ 0x7f := fun h => hc (Nat.lt_succ_of_le h)
    have hbyte := le_toNat_of_mem_utf8EncodeChar hle b hb
    rw [← UInt8.toNat_inj, Ascii.toNat_lower, if_neg (by omega)]
    rfl

theorem encode_lower (text : String) :
    encode (Note.lower text) = (encode text).map Ascii.lower := by
  rw [Note.lower, encode_ofList, encode_eq_encodeChars, encodeChars, encodeChars, List.flatMap_map,
    List.map_flatMap]
  exact congrArg (text.toList.flatMap ·) (funext utf8EncodeChar_toLower)

/-! ## Texts of variants -/

/-- Every byte of the text lies in the accepted range. -/
def InRange (text : String) : Prop := ∀ b ∈ encode text, 32 ≤ b ∧ b ≤ 127

/-- A text that a variant may have. -/
structure VariantText (text : String) : Prop where
  length_pos : 1 ≤ length text
  length_le : length text ≤ 256
  inRange : InRange text

theorem inRange_iff {text : String} : InRange text ↔ Note.isPrintable text = true := by
  simp [InRange, Note.isPrintable]

theorem variantText_iff {part : VariantPart} {text : String} :
    VariantText text ↔ Note.variantFault? part text = none := by
  have hempty : text = "" ↔ length text = 0 := by
    rw [← length_encode, List.length_eq_zero_iff]
    exact ⟨fun h => h ▸ rfl, fun h => encode_injective h⟩
  unfold Note.variantFault?
  constructor
  · intro h
    have hpos := h.length_pos
    rw [if_neg (fun he => by rw [hempty.1 he] at hpos; cases hpos),
      if_neg (show ¬NoteFault.variantLimit < _ from Nat.not_lt.2 h.length_le),
      inRange_iff.1 h.inRange]
    rfl
  · intro h
    split at h
    · cases h
    next hne =>
      split at h
      · cases h
      next hle =>
        split at h
        · cases h
        next hp =>
          exact ⟨Nat.one_le_iff_ne_zero.2 (mt hempty.2 hne), Nat.le_of_not_lt hle,
            inRange_iff.2 (by simpa using hp)⟩

/-- Lower case keeps the texts of a variant valid. -/
theorem VariantText.lower {text : String} (h : VariantText text) :
    VariantText (Note.lower text) := by
  have hlength : length (Note.lower text) = length text := by
    rw [← length_encode, encode_lower, List.length_map, length_encode]
  refine ⟨hlength ▸ h.length_pos, hlength ▸ h.length_le, fun d hd => ?_⟩
  rw [encode_lower] at hd
  obtain ⟨b, hb, rfl⟩ := List.mem_map.1 hd
  have hrange := h.inRange b hb
  simp only [UInt8.le_iff_toNat_le, Ascii.toNat_lower, UInt8.reduceToNat] at hrange ⊢
  split <;> omega

theorem not_upper_of_mem_lower {text : String} {b : UInt8} (h : b ∈ encode (Note.lower text)) :
    ¬(65 ≤ b ∧ b ≤ 90) := by
  rw [encode_lower] at h
  obtain ⟨b, -, rfl⟩ := List.mem_map.1 h
  simp only [UInt8.le_iff_toNat_le, Ascii.toNat_lower, UInt8.reduceToNat]
  split <;> omega

/-! ## Records -/

/-- What holds of the bind groups and the variants of a file. -/
structure FileRecord.WellFormed (record : FileRecord) : Prop where
  distinct : (record.variants.map Variant.identifier).Nodup
  identifiers : ∀ v ∈ record.variants, VariantText v.identifier ∧
    ∀ b ∈ encode v.identifier, ¬(65 ≤ b ∧ b ≤ 90)
  displayNames : ∀ v ∈ record.variants, ∀ name ∈ v.displayName, VariantText name
  groups : ∀ name ∈ record.groups.names, InRange name

namespace Note

/-- What holds of a declaration that an inspection notices. -/
def WellFormed : Note → Prop
  | .bindGroup name => InRange name
  | .variant v => VariantText v.identifier ∧ (∀ b ∈ encode v.identifier, ¬(65 ≤ b ∧ b ≤ 90)) ∧
    ∀ name ∈ v.displayName, VariantText name
  | .inclusion .. | .fault .. => True

theorem wellFormed_of_checked {known : List String} {note : Note}
    (h : note.Checked known ∨ ∃ path span, note = .inclusion path span) :
    note.WellFormed ∧ (∀ identifier ∈ note.identifiers, identifier ∉ known) ∧
      note.identifiers.Nodup := by
  rcases h with h | ⟨path, span, rfl⟩
  · cases note with
    | bindGroup name => exact ⟨inRange_iff.2 h, nofun, .nil⟩
    | variant v =>
      obtain ⟨⟨text, htext, hid⟩, hnew, hname⟩ := h
      refine ⟨?_, List.forall_mem_singleton.2 hnew, List.pairwise_singleton ..⟩
      rw [WellFormed, hid]
      exact ⟨(variantText_iff.2 htext).lower, fun b => not_upper_of_mem_lower,
        fun name hm => variantText_iff.2 (hname name hm)⟩
    | inclusion => exact absurd h id
    | fault => exact ⟨trivial, nofun, .nil⟩
  · exact ⟨trivial, nofun, .nil⟩

end Note

namespace NoteScan

open Cursor

variable {t : NoteScan} {b : UInt8}

/-- What a step notices is checked, or is an inclusion. -/
theorem checked_of_step {note : Note} (h : note ∈ (Note.step t.known t.cursor b).1) :
    note.Checked t.known ∨ ∃ path span, note = .inclusion path span := by
  unfold Note.step at h
  split at h
  · cases h
  split at h
  · dsimp only [Note.directiveAt] at h
    split at h
    · exact .inl (Note.sound_pragmaAt note h)
    split at h
    · unfold Note.inclusionAt Note.withQuoted at h
      split at h
      · exact .inr ⟨_, _, (Option.some.inj h).symm⟩
      · exact .inl (Note.sound_faulty _ note h)
      · exact .inl (Note.sound_faulty _ note h)
    · cases h
  · cases h

/-- What an inspection notices from somewhere on: declarations that are well formed, each with an
identifier that was not declared before. -/
structure Valid (known : List String) (notes : List Note) : Prop where
  distinct : (notes.flatMap Note.identifiers).Nodup
  fresh : ∀ identifier ∈ notes.flatMap Note.identifiers, identifier ∉ known
  each : ∀ note ∈ notes, note.WellFormed

/-- Valid notes behind one that was checked. -/
theorem Valid.cons {known : List String} {note : Note} {notes : List Note}
    (hn : note.Checked known ∨ ∃ path span, note = .inclusion path span)
    (h : Valid (note.identifiers ++ known) notes) : Valid known (note :: notes) := by
  obtain ⟨hwell, hnew, hnodup⟩ := Note.wellFormed_of_checked hn
  have hfresh : ∀ identifier ∈ notes.flatMap Note.identifiers,
      identifier ∉ note.identifiers ∧ identifier ∉ known := fun identifier hi =>
    not_or.1 (mt List.mem_append.2 (h.fresh identifier hi))
  refine ⟨?_, ?_, List.forall_mem_cons.2 ⟨hwell, h.each⟩⟩
  · rw [List.flatMap_cons]
    refine List.nodup_append.2 ⟨hnodup, h.distinct, fun a ha b hb hab => ?_⟩
    exact (hfresh b hb).1 (hab ▸ ha)
  · rw [List.flatMap_cons]
    exact List.forall_mem_append.2 ⟨hnew, fun identifier hi => (hfresh identifier hi).2⟩

/-- What an inspection notices is valid, from any place of a text on. -/
theorem valid_notes (t : NoteScan) : Valid t.known t.notes := by
  induction hn : t.cursor.rest.length using Nat.strong_induction_on generalizing t with
  | h n ih =>
    cases hp : t.cursor.peek with
    | none =>
      rw [notes_eq_nil (by simpa [peek] using hp)]
      exact ⟨.nil, List.forall_mem_nil _, List.forall_mem_nil _⟩
    | some b =>
      have hstep : GoesOn t (t.next b) := ⟨b, hp, rfl⟩
      have hnext := ih _ (hn ▸ hstep.passes.rest_lt) (t.next b) rfl
      have hknown : (t.next b).known =
          (Note.step t.known t.cursor b).1.elim [] Note.identifiers ++ t.known := rfl
      rw [hknown] at hnext
      rw [notes_of_peek hp]
      cases hs : (Note.step t.known t.cursor b).1 with
      | none =>
        rw [hs] at hnext
        exact hnext
      | some note =>
        rw [hs] at hnext
        exact hnext.cons (checked_of_step hs)

end NoteScan

theorem FileRecord.identifiers_ofNotes (notes : List Note) :
    (ofNotes notes).variants.map Variant.identifier = notes.flatMap Note.identifiers := by
  induction notes with
  | nil => rfl
  | cons note notes ih =>
    rw [List.flatMap_cons, ← ih]
    cases note <;> rfl

theorem FileRecord.variants_append (notes more : List Note) :
    (ofNotes (notes ++ more)).variants = (ofNotes notes).variants ++ (ofNotes more).variants :=
  List.filterMap_append

theorem FileRecord.mem_variants_ofNotes {notes : List Note} {v : Variant} :
    v ∈ (ofNotes notes).variants ↔ .variant v ∈ notes := by
  rw [ofNotes, List.mem_filterMap]
  constructor
  · rintro ⟨note, hm, he⟩
    cases note <;> cases he
    exact hm
  · exact fun hm => ⟨_, hm, rfl⟩

theorem FileRecord.mem_groups_ofNotes {notes : List Note} {name : String} :
    name ∈ (ofNotes notes).groups.names ↔ .bindGroup name ∈ notes := by
  rw [ofNotes, NameSet.mem_ofList, List.mem_filterMap]
  constructor
  · rintro ⟨note, hm, he⟩
    cases note <;> cases he
    exact hm
  · exact fun hm => ⟨_, hm, rfl⟩

/-- What a file declares is well formed, whatever its text. -/
theorem FileRecord.wellFormed_ofText (text : String) : (ofText text).WellFormed := by
  have hvalid := (NoteScan.ofText text).valid_notes
  refine ⟨?_, ?_, ?_, ?_⟩
  · rw [ofText, identifiers_ofNotes]
    exact hvalid.distinct
  · intro v hv
    obtain ⟨htext, hlower, -⟩ := hvalid.each _ (mem_variants_ofNotes.1 hv)
    exact ⟨htext, hlower⟩
  · intro v hv
    exact (hvalid.each _ (mem_variants_ofNotes.1 hv)).2.2
  · intro name hm
    exact hvalid.each _ (mem_groups_ofNotes.1 hm)

/-! ## Lines that declare a variant -/

/-- A display name behind an identifier. -/
def displayNameText : Option String → String
  | none => ""
  | some name => " \"" ++ (name ++ "\"")

/-- The line that declares a variant. -/
def variantLine (kind identifier : String) (displayName : Option String) : String :=
  "#pragma variant" ++
    (" " ++ (kind ++ (" \"" ++ (identifier ++ "\""))) ++ displayNameText displayName)

/-- The parts of a line that declare a valid variant. -/
structure DeclaresVariant (kind identifier : String) (displayName : Option String) : Prop where
  kind : Note.lower kind = "toggle"
  identifier : VariantText identifier ∧ '"' ∉ identifier.toList
  displayName : ∀ name ∈ displayName, VariantText name ∧ '"' ∉ name.toList

/-- The line ends here, blanks aside. -/
def LineEnds (behind : String) : Prop :=
  ∃ blanks rest, behind = blanks ++ rest ∧ (∀ b ∈ encode blanks, isInlineBlank b = true) ∧
    (rest = "" ∨ ∃ more, rest = "\n" ++ more)

theorem isIdentifier_of_lower_eq {kind : String} (h : Note.lower kind = "toggle") :
    IsIdentifier kind := by
  have hbytes := congrArg encode h
  rw [encode_lower] at hbytes
  have hletter : ∀ b ∈ encode kind, isIdentifierStart b = true := by
    intro b hb
    have hmem : Ascii.lower b ∈ encode "toggle" := hbytes ▸ List.mem_map_of_mem hb
    have hall : ∀ d ∈ encode "toggle", 97 ≤ d.toNat ∧ d.toNat ≤ 122 := by decide +kernel
    have hrange := hall _ hmem
    rw [Ascii.toNat_lower] at hrange
    simp only [isIdentifierStart, isLetter, Bool.or_eq_true, Bool.and_eq_true, decide_eq_true_eq,
      UInt8.le_iff_toNat_le, UInt8.reduceToNat]
    split at hrange <;> omega
  cases hk : encode kind with
  | nil =>
    rw [hk] at hbytes
    cases hbytes
  | cons b rest =>
    rw [hk] at hletter
    obtain ⟨hb, hrest⟩ := List.forall_mem_cons.1 hletter
    exact ⟨b, rest, hk, hb, fun d hd => by simp [isIdentifierContinue, hrest d hd]⟩

theorem quotable_of_inRange {text : String} (h : InRange text) (hq : '"' ∉ text.toList) :
    Quotable text := by
  intro c hc
  refine ⟨fun he => hq (he ▸ hc), ?_⟩
  rintro rfl
  have hmem : newline ∈ encode text := by
    rw [encode_eq_encodeChars]
    exact List.mem_flatMap.2 ⟨_, hc, by decide⟩
  exact absurd (h _ hmem).1 (by decide)

namespace Note

open Cursor

variable {c d : Cursor} {start : Location} {known : List String} {kind text : String}

theorem withQuoted_of_spells {part : QuotedPart} {next : String → Cursor → Outcome}
    (h : c.Spells (space :: doubleQuote :: encode text ++ [doubleQuote]) d) (ht : Quotable text) :
    withQuoted start part c next = next text d := by
  obtain ⟨e, hs, hq⟩ := spells_cons.1 h
  rw [withQuoted, hs.skipInline_eq (clear_of_peek hq.peek_eq rfl), hq.quoted_eq ht]

/-- The bytes of a quoted text behind a space. -/
theorem encode_quoted (text : String) :
    encode (" \"" ++ (text ++ "\"")) = space :: doubleQuote :: encode text ++ [doubleQuote] := by
  have hopen : encode " \"" = [space, doubleQuote] := by decide
  have hclose : encode "\"" = [doubleQuote] := by decide
  rw [encode_append, encode_append, hopen, hclose]
  rfl

theorem displayNameAt_of_spells {kind : VariantKind} {identifier : String}
    {displayName : Option String} (h : c.Spells (encode (displayNameText displayName)) d)
    (hname : ∀ name ∈ displayName, VariantText name ∧ '"' ∉ name.toList)
    (hend : d.skipInline.AtLineEnd) :
    (displayNameAt start kind identifier c).1 =
      some (.variant ⟨kind, identifier, displayName⟩) := by
  cases displayName with
  | none =>
    have hstay : c = d := h.advance_eq.symm
    have hno : hasDisplayName d.skipInline = false := by
      rw [hasDisplayName, atEnd_eq]
      cases hp : d.skipInline.peek with
      | none => rfl
      | some b =>
        rw [hend b hp]
        rfl
    rw [displayNameAt, hstay, if_neg (by rw [hno]; exact Bool.false_ne_true)]
  | some name =>
    obtain ⟨htext, hq⟩ := hname name rfl
    rw [displayNameText, encode_quoted] at h
    obtain ⟨e, hs, hquoted⟩ := spells_cons.1 h
    have hclear : e.Clear isInlineBlank := clear_of_peek hquoted.peek_eq rfl
    have hskip : c.skipInline = e := hs.skipInline_eq hclear
    have hyes : hasDisplayName e = true := by
      have hcomment := not_atComment_of_peek hquoted.peek_eq (by decide)
      rw [hasDisplayName, atEnd_eq, hquoted.peek_eq, Bool.eq_false_iff.2 hcomment]
      rfl
    rw [displayNameAt, hskip, if_pos hyes, withQuoted, skipInline, hclear.skipWhile_eq,
      hquoted.quoted_eq (quotable_of_inRange htext.inRange hq)]
    dsimp only
    rw [variantText_iff.1 htext]

/-- A variant with a valid and new identifier is read up to its display name. -/
theorem variantAt_of_spells (h : c.Spells (encode (" " ++ (kind ++ (" \"" ++ (text ++ "\""))))) d)
    (hkind : lower kind = "toggle") (ht : VariantText text) (hq : '"' ∉ text.toList)
    (hnew : lower text ∉ known) :
    variantAt start known c = displayNameAt start .toggle (lower text) d := by
  rw [encode_append, encode_append, encode_quoted] at h
  obtain ⟨c₁, hspace, h⟩ := spells_append.1 h
  obtain ⟨c₂, hword, hquoted⟩ := spells_append.1 h
  have hid := isIdentifier_of_lower_eq hkind
  have hskip : c.skipInline = c₁ := hspace.skipInline_eq (hword.clear_blank hid).inline
  have hread := hword.identifier_eq hid (clear_of_peek hquoted.peek_eq (by decide))
  have hkeyword : Keyword.ofWord? (lower kind) = some VariantKind.toggle := by
    rw [hkind]
    decide
  unfold variantAt
  rw [hskip, hread]
  dsimp only
  rw [hkeyword]
  dsimp only
  rw [withQuoted_of_spells hquoted (quotable_of_inRange ht.inRange hq), variantText_iff.1 ht]
  exact if_neg hnew

/-- A pragma for a variant is read from its kind on. -/
theorem directiveAt_of_spells (h : c.Spells (encode "#pragma variant") d)
    (hd : d.Clear isIdentifierContinue) : directiveAt known c = variantAt c.location known d := by
  have hbytes : encode "#pragma variant" =
      [hash] ++ (encode "pragma" ++ ([space] ++ encode "variant")) := by decide
  rw [hbytes] at h
  obtain ⟨c₁, hhash, h⟩ := spells_append.1 h
  obtain ⟨c₂, hpragma, h⟩ := spells_append.1 h
  obtain ⟨c₃, hspace, hvariant⟩ := spells_append.1 h
  have hid : IsIdentifier "pragma" := by decide
  have hid' : IsIdentifier "variant" := by decide
  have hfirst : c.advance 1 = c₁ := hhash.advance_eq.symm
  have hskip : c₁.skipInline = c₁ := (hpragma.clear_blank hid).inline.skipWhile_eq
  have hread := hpragma.identifier_eq hid (clear_of_peek hspace.peek_eq (by decide))
  have hskip' : c₂.skipInline = c₃ := hspace.skipInline_eq (hvariant.clear_blank hid').inline
  have hread' := hvariant.identifier_eq hid' hd
  rw [directiveAt, hfirst, hskip, hread]
  dsimp only
  rw [if_pos rfl, pragmaAt, hskip', hread']
  dsimp only
  rw [if_neg (by decide), if_pos rfl]

end Note

theorem LineEnds.atLineEnd {c : Cursor} {behind : String} (he : LineEnds behind)
    (h : c.rest = encode behind) : c.skipInline.AtLineEnd := by
  obtain ⟨blanks, rest, rfl, hblanks, hrest⟩ := he
  obtain ⟨d, hspells, hd⟩ := Cursor.exists_spells (encode blanks) (h.trans (encode_append ..))
  have hend : d.AtLineEnd := by
    intro b hb
    rw [Cursor.peek, hd] at hb
    rcases hrest with rfl | ⟨more, rfl⟩
    · cases hb
    · rw [encode_append, NoteScan.encode_newline] at hb
      exact (Option.some.inj hb).symm
  have hclear : d.Clear isInlineBlank := fun b hb => by
    rw [hend b hb]
    rfl
  have hskip : c.skipInline = d := hspells.skipWhile_eq hblanks hclear
  rwa [hskip]

namespace NoteScan

open Cursor

variable {front behind kind identifier : String} {displayName : Option String} {t : NoteScan}

theorem encode_variantLine (kind identifier : String) (displayName : Option String) :
    encode (variantLine kind identifier displayName) =
      encode "#pragma variant" ++ (encode (" " ++ (kind ++ (" \"" ++ (identifier ++ "\"")))) ++
        encode (displayNameText displayName)) :=
  (encode_append ..).trans (congrArg (encode "#pragma variant" ++ ·) (encode_append ..))

/-- A line that declares a valid and new variant gives it. -/
theorem note_of_line
    (h : t.cursor.rest = encode (variantLine kind identifier displayName) ++ encode behind)
    (hv : DeclaresVariant kind identifier displayName) (he : LineEnds behind)
    (hnew : Note.lower identifier ∉ t.known) :
    t.cursor.peek = some hash ∧ (Note.step t.known t.cursor hash).1 =
      some (.variant ⟨.toggle, Note.lower identifier, displayName⟩) := by
  obtain ⟨e, hspells, hrest⟩ := exists_spells _ h
  rw [encode_variantLine] at hspells
  obtain ⟨c₁, hpragma, hspells⟩ := spells_append.1 hspells
  obtain ⟨c₂, hvariant, hname⟩ := spells_append.1 hspells
  have hp : t.cursor.peek = some hash := hpragma.peek_eq
  have hc := not_atComment_of_peek hp (by decide)
  have hclear : c₁.Clear isIdentifierContinue := clear_of_peek hvariant.peek_eq (by decide)
  refine ⟨hp, ?_⟩
  rw [Note.step, if_neg hc, if_pos rfl]
  dsimp only
  rw [Note.directiveAt_of_spells hpragma hclear, Note.variantAt_of_spells hvariant hv.kind
    hv.identifier.1 hv.identifier.2 hnew]
  exact Note.displayNameAt_of_spells hname hv.displayName (he.atLineEnd hrest)

/-- A line that declares a valid and new variant is recorded, behind the variants that were declared
before it. -/
theorem variants_of_line (h : ArrivesAt front (variantLine kind identifier displayName ++ behind) t)
    (hv : DeclaresVariant kind identifier displayName) (he : LineEnds behind)
    (hnew : Note.lower identifier ∉ t.known) :
    ∃ earlier later, (FileRecord.ofText
        (front ++ (variantLine kind identifier displayName ++ behind))).variants =
          earlier ++ ⟨.toggle, Note.lower identifier, displayName⟩ :: later ∧
      earlier.map Variant.identifier = t.known.reverse := by
  obtain ⟨hp, hnote⟩ := note_of_line (h.rest_eq.trans (encode_append ..)) hv he hnew
  obtain ⟨before, hbefore, hknown⟩ := notes_of_goesOn h.arrives
  have hnotes : Note.ofText (front ++ (variantLine kind identifier displayName ++ behind)) =
      before ++ .variant ⟨.toggle, Note.lower identifier, displayName⟩ :: (t.next hash).notes := by
    rw [notes_of_peek hp, hnote] at hbefore
    exact hbefore
  refine ⟨(FileRecord.ofNotes before).variants, (FileRecord.ofNotes (t.next hash).notes).variants,
    ?_, ?_⟩
  · rw [FileRecord.ofText, hnotes, FileRecord.variants_append]
    rfl
  · rw [FileRecord.identifiers_ofNotes, hknown, List.reverse_append, List.reverse_reverse]
    exact (List.nil_append _).symm

end NoteScan

/-! ## Inspections -/

namespace InspectionState

variable {includes : Includes} {file source : String} {s s' : InspectionState}

/-- A file that takes a note stays among the files with its record. -/
theorem exists_file_of_take {name : String} {note : Note} {notes : List Note} {record : FileRecord}
    {others : List InspectionFrame} {f : InspectionFrame}
    (h : f ∈ (⟨name, note :: notes, record⟩ : InspectionFrame) :: others) :
    ∃ g ∈ (⟨name, notes, record⟩ : InspectionFrame) :: others,
      g.file = f.file ∧ g.record = f.record := by
  rcases List.mem_cons.1 h with rfl | h
  · exact ⟨_, List.mem_cons_self, rfl, rfl⟩
  · exact ⟨f, List.mem_cons_of_mem _ h, rfl, rfl⟩

/-- A file that was entered keeps its record until it is left, and then leaves it. -/
theorem exists_file_of_moves (h : Moves includes s s') {f : InspectionFrame} (hf : f ∈ s.files) :
    ∃ g ∈ s'.files, g.file = f.file ∧ g.record = f.record := by
  cases h with
  | leave =>
    refine ⟨f, ?_, rfl, rfl⟩
    rw [files, List.filterMap_append, ← List.append_assoc]
    exact List.mem_append.2 ((List.mem_cons.1 hf).symm.imp_right List.mem_singleton.2)
  | pass hn hl | absent hk hfind hl =>
    rw [files, hl]
    exact exists_file_of_take hf
  | enter hk hfind hl =>
    obtain ⟨g, hg, hsame⟩ := exists_file_of_take hf
    rw [files, hl]
    exact ⟨g, List.mem_cons_of_mem _ hg, hsame⟩

theorem exists_file_of_leads (h : ReflTransGen (Leads includes) s s') {f : InspectionFrame}
    (hf : f ∈ s.files) : ∃ g ∈ s'.files, g.file = f.file ∧ g.record = f.record := by
  induction h with
  | refl => exact ⟨f, hf, rfl, rfl⟩
  | tail _ hstep ih =>
    obtain ⟨g, hg, hfile, hrecord⟩ := ih
    obtain ⟨g', hg', hfile', hrecord'⟩ := exists_file_of_moves (moves_of_leads hstep) hg
    exact ⟨g', hg', hfile'.trans hfile, hrecord'.trans hrecord⟩

/-- An inspection has one course, so every state of it leads to its end. -/
theorem leads_of_end {entered : List String} {events : List InspectionEvent}
    (hs : Reachable includes file source s)
    (he : Reachable includes file source ⟨entered, [], events⟩) :
    ReflTransGen (Leads includes) s ⟨entered, [], events⟩ := by
  have hunique : Relator.RightUnique (Leads includes) := fun a b c hb hc =>
    Option.some.inj (hb.symm.trans hc)
  rcases ReflTransGen.total_of_right_unique hunique hs he with h | h
  · exact h
  · cases ReflTransGen.cases_head h with
    | inl heq => rw [heq]
    | inr hstep =>
      obtain ⟨next, hnext, -⟩ := hstep
      cases hnext

end InspectionState

namespace Inspection

open InspectionState NoteScan

/-- What an inspection records of the variants and bind groups of its files. -/
structure RecordsVariants (includes : Includes) (file source : String) : Prop where
  wellFormed : ∀ key record, (key, record) ∈ (ofSource includes file source).files.entries →
    record.WellFormed
  /-- A file that is entered has a record, with every valid variant that a line of it declares
  first. -/
  complete : ∀ s key text, Reachable includes file source s → .ofText key text ∈ s.stack →
    ∃ record, (key, record) ∈ (ofSource includes file source).files.entries ∧
      ∀ front kind identifier displayName behind t,
        text = front ++ (variantLine kind identifier displayName ++ behind) →
        ArrivesAt front (variantLine kind identifier displayName ++ behind) t →
        DeclaresVariant kind identifier displayName → LineEnds behind →
        Note.lower identifier ∉ t.known →
        ∃ earlier later, record.variants =
            earlier ++ ⟨.toggle, Note.lower identifier, displayName⟩ :: later ∧
          earlier.map Variant.identifier = t.known.reverse

theorem recordsVariants_ofSource (includes : Includes) (hl : includes.Listed)
    (file source : String) : RecordsVariants includes file source := by
  obtain ⟨entered, hrun⟩ := @exists_run includes file source (lists_of_listed hl)
  refine ⟨?wellFormed, ?complete⟩
  case wellFormed =>
    intro key record he
    obtain ⟨f, hf, heq⟩ := (mem_ofSource_iff hrun).1 he
    cases heq
    obtain ⟨name, text, hfollows⟩ := (sound_of_reachable hrun).followed f hf
    rw [hfollows.record_eq]
    exact FileRecord.wellFormed_ofText text
  case complete =>
    intro s key text hs hm
    obtain ⟨g, hg, hfile, hrecord⟩ :=
      exists_file_of_leads (leads_of_end hs hrun) (List.mem_append_left _ hm)
    refine ⟨FileRecord.ofText text,
      (mem_ofSource_iff hrun).2 ⟨g, hg, by rw [hfile, hrecord]; rfl⟩, ?_⟩
    intro front kind identifier displayName behind t htext harrives hv he hnew
    rw [htext]
    exact variants_of_line harrives hv he hnew

/-- The same identifier in two files, with the kind in capitals and a carriage return behind the
line. -/
theorem exists_recordsVariants :
    let includes := Includes.ofFiles [("v.hlsli", "#pragma variant toggle \"fog\"\n")]
    let source := "#pragma variant TOGGLE \"Fog\" \"Fog effect\"\r\n#include \"v.hlsli\"\n"
    includes.Listed ∧ RecordsVariants includes "f.hlsl" source ∧
      ∃ record, ("f.hlsl", record) ∈ (ofSource includes "f.hlsl" source).files.entries ∧
        ⟨.toggle, "fog", some "Fog effect"⟩ ∈ record.variants := by
  intro includes source
  have hlisted : includes.Listed := Includes.listed_ofFiles _ _
  have hrecords := recordsVariants_ofSource includes hlisted "f.hlsl" source
  have hsource : source = "" ++ (variantLine "TOGGLE" "Fog" (some "Fog effect") ++
      "\r\n#include \"v.hlsli\"\n") := by decide +kernel
  have hkey : Path.key "f.hlsl" = "f.hlsl" := by decide +kernel
  obtain ⟨record, hmem, hlines⟩ :=
    hrecords.complete (start "f.hlsl" source) (Path.key "f.hlsl") source .refl
      (List.mem_singleton_self _)
  obtain ⟨earlier, later, hvariants, -⟩ := hlines "" "TOGGLE" "Fog" (some "Fog effect")
    "\r\n#include \"v.hlsli\"\n" (NoteScan.ofText _) hsource ⟨.inl rfl, .refl, rfl⟩
    ⟨by decide +kernel,
      ⟨(@variantText_iff .identifier "Fog").2 (by decide +kernel), by decide +kernel⟩, by
      rintro _ ⟨⟩
      exact ⟨(@variantText_iff .displayName "Fog effect").2 (by decide +kernel), by decide +kernel⟩⟩
    ⟨"\r", "\n#include \"v.hlsli\"\n", by decide +kernel, by decide +kernel,
      .inr ⟨"#include \"v.hlsli\"\n", by decide +kernel⟩⟩ List.not_mem_nil
  have hlower : Note.lower "Fog" = "fog" := by decide +kernel
  rw [hkey] at hmem
  rw [hlower] at hvariants
  exact ⟨hlisted, hrecords, record, hmem, by rw [hvariants]; simp⟩

end Inspection

end BindlessHlsl
