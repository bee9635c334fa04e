import BindlessHlsl.Proofs.Blanks
import BindlessHlsl.Proofs.Prototypes

/-!
A grammar of struct definitions, and that they are read as they are written. A text of the grammar
(`Struct.DefinitionText`) has blanks wherever they may stand: one at least between two words, any
number elsewhere. What the members denote is said beside their texts, with no regard to how they are
read. Readers take their part of such a text, each up to where the next one starts
(`Struct.readMember_of_denotes`, `Struct.readMembers_of_membersText`), and its struct is all that a
shader records (`Shader.exists_of_struct`).
-/

namespace BindlessHlsl

open Ascii Utf8

/-! ## The grammar -/

namespace Struct

/-- Modifiers, each with blanks behind it. -/
inductive ModifiersText : String → Prop where
  | nil : ModifiersText ""
  | cons {modifier gap rest : String} : modifier ∈ modifiers → IsBreak gap →
      ModifiersText rest → ModifiersText (modifier ++ (gap ++ rest))

/-- The arguments of a matrix type: a scalar, a number of rows and a number of columns. -/
inductive ArgumentsText : String → MemberType → Prop where
  | intro {spelling first second scalarText rowsText columnsText : String} {scalar : Scalar}
      {rows columns : UInt32} :
      (spelling, scalar) ∈ MemberType.primitiveSpellings → MemberType.IsDimension first rows →
      MemberType.IsDimension second columns → Padded scalarText spelling →
      Padded rowsText first → Padded columnsText second →
      ArgumentsText (scalarText ++ ("," ++ (rowsText ++ ("," ++ columnsText))))
        ⟨scalar, rows, columns⟩

/-- A word that denotes a type. -/
inductive TypeWord : String → MemberType → Prop where
  | primitive {spelling shape : String} {scalar : Scalar} {rows columns : UInt32} :
      (spelling, scalar) ∈ MemberType.primitiveSpellings →
      MemberType.IsShape shape rows columns → TypeWord (spelling ++ shape) ⟨scalar, rows, columns⟩
  | matrix : TypeWord "matrix" ⟨.float, 4, 4⟩
  | other {word : String} : IsIdentifier word → word ∉ modifiers →
      MemberType.ofWord? word = none → TypeWord word ⟨.struct, 1, 1⟩

/-- A type with the blanks behind it. -/
inductive TypeText : String → MemberType → Prop where
  | word {word gap : String} {type : MemberType} : TypeWord word type → IsBreak gap →
      TypeText (word ++ gap) type
  | matrix {gap arguments gap' : String} {type : MemberType} : IsGap gap →
      ArgumentsText arguments type → IsGap gap' →
      TypeText ("matrix" ++ (gap ++ ("<" ++ (arguments ++ (">" ++ gap'))))) type

/-- An array length in brackets, or nothing. -/
inductive LengthText : String → Option UInt32 → Prop where
  | none : LengthText "" none
  | some {gap digits text : String} {length : UInt32} : IsGap gap →
      Word.IsNumeral digits length.toNat → Padded text digits →
      LengthText (gap ++ ("[" ++ (text ++ "]"))) (some length)

/-- A semantic behind a colon, or nothing. -/
inductive SemanticText : String → Prop where
  | none : SemanticText ""
  | some {gap gap' word : String} : IsGap gap → IsGap gap' → IsIdentifier word →
      SemanticText (gap ++ (":" ++ (gap' ++ word)))

/-- The declaration of a member says what the member is. -/
inductive Denotes : Member → Prop where
  | intro {modifiers type name length semantic : String} {memberType : MemberType}
      {arrayLength : Option UInt32} :
      ModifiersText modifiers → TypeText type memberType → IsIdentifier name →
      LengthText length arrayLength → SemanticText semantic →
      Denotes ⟨memberType, arrayLength, name, modifiers ++ (type ++ (name ++ (length ++ semantic)))⟩

/-- The members of a struct, each with a semicolon. -/
inductive MembersText : String → List Member → Prop where
  | nil {gap : String} : IsGap gap → MembersText gap []
  | cons {gap gap' rest : String} {member : Member} {members : List Member} : IsGap gap →
      Denotes member → IsGap gap' → MembersText rest members →
      MembersText (gap ++ ((member.declaration ++ (gap' ++ ";")) ++ rest)) (member :: members)

/-- A struct definition with nothing but blanks around it. -/
inductive DefinitionText : String → String → List Member → Prop where
  | intro {before afterWord name afterName body afterBody behind : String}
      {members : List Member} : IsGap before → IsBreak afterWord → IsIdentifier name →
      IsGap afterName → MembersText body members → IsGap afterBody → IsGap behind →
      DefinitionText (before ++ ("struct" ++
        ((afterWord ++ (name ++ (afterName ++ ("\x7b" ++ (body ++ "\x7d"))))) ++
          (afterBody ++ (";" ++ behind))))) name members

/-! ## Types -/

theorem isIdentifier_spelling : ∀ s ∈ MemberType.primitiveSpellings, IsIdentifier s.1 := by
  decide +kernel

theorem isIdentifier_modifier : ∀ m ∈ modifiers, IsIdentifier m := by
  decide +kernel

/-- No modifier is read as a type. -/
theorem ofWord?_modifier : ∀ m ∈ modifiers, MemberType.ofWord? m = none := by
  decide +kernel

theorem isIdentifierContinue_of_isShape {shape : String} {rows columns : UInt32}
    (h : MemberType.IsShape shape rows columns) :
    ∀ b ∈ encode shape, isIdentifierContinue b = true := by
  cases h with
  | scalar => exact List.forall_mem_nil _
  | vector h => exact h.1.isWord.2
  | matrix hf hs =>
    intro b hb
    simp only [encode_append, List.mem_append] at hb
    rcases hb with hb | hb | hb
    · exact hf.1.isWord.2 b hb
    · rw [List.mem_singleton.1 hb]
      rfl
    · exact hs.1.isWord.2 b hb

variable {word text : String} {type : MemberType} {c d e : Cursor}

theorem TypeWord.isIdentifier (h : TypeWord word type) : IsIdentifier word := by
  cases h with
  | primitive hs hshape =>
    exact (isIdentifier_spelling _ hs).append (isIdentifierContinue_of_isShape hshape)
  | matrix => decide +kernel
  | other h => exact h

theorem TypeWord.getD_ofWord? (h : TypeWord word type) :
    (MemberType.ofWord? word).getD .unknownStruct = type := by
  cases h with
  | primitive hs hshape =>
    rw [MemberType.ofWord?_of_spelling hs (MemberType.shape?_of_isShape hshape), Option.getD_some]
  | matrix => rfl
  | other _ _ h =>
    rw [h]
    rfl

theorem TypeWord.not_mem_modifiers (h : TypeWord word type) : word ∉ modifiers := by
  cases h with
  | primitive hs hshape =>
    intro hm
    have hnone := ofWord?_modifier _ hm
    rw [MemberType.ofWord?_of_spelling hs (MemberType.shape?_of_isShape hshape)] at hnone
    cases hnone
  | matrix => decide +kernel
  | other _ h _ => exact h

theorem matrixType?_of_arguments (h : ArgumentsText text type) :
    matrixType? text = some type := by
  cases h with
  | @intro spelling first second scalarText rowsText columnsText scalar rows columns hs hf hn hst
      hrt hct =>
    have hscalar : IsWord spelling := (isIdentifier_spelling _ hs).isWord
    have hcomma : ∀ {text word : String}, Padded text word → IsWord word → ',' ∉ text.toList := by
      intro text word h hw
      refine not_mem_toList (b := comma) rfl fun hb => ?_
      exact h.forall_mem (p := (· ≠ comma)) hw (fun b hb => ne_of_class hb rfl)
        (fun b hb => ne_of_class hb rfl) comma hb rfl
    have hchars : (scalarText ++ ("," ++ (rowsText ++ ("," ++ columnsText)))).toList =
        scalarText.toList ++ ',' :: (rowsText.toList ++ ',' :: columnsText.toList) := by
      simp only [String.toList_append]
      rfl
    have hsplit : (splitCommas
        (scalarText ++ ("," ++ (rowsText ++ ("," ++ columnsText)))).toList).map trim =
          [spelling.toList, first.toList, second.toList] := by
      rw [hchars, splitCommas, List.splitOn_append_cons_self_of_not_mem (hcomma hst hscalar),
        List.splitOn_append_cons_self_of_not_mem (hcomma hrt hf.1.isWord),
        List.splitOn_eq_singleton (hcomma hct hn.1.isWord)]
      simp only [List.map_cons, List.map_nil, hst.trim_eq hscalar, hrt.trim_eq hf.1.isWord,
        hct.trim_eq hn.1.isWord]
    have hword : MemberType.ofWord? spelling = some ⟨scalar, 1, 1⟩ := by
      rw [← String.append_empty (s := spelling)]
      exact MemberType.ofWord?_of_spelling hs rfl
    rw [matrixType?, hsplit]
    dsimp only
    rw [String.ofList_toList, hword, MemberType.shape?_of_isShape (.vector hf),
      MemberType.shape?_of_isShape (.vector hn)]
    rfl

/-! ## Reading a member -/

theorem readTypeName_word (h : c.expectIdentifier .memberType = .ok (word, d))
    (hm : word ∉ modifiers) : readTypeName c = .ok (word, d) := by
  rw [readTypeName]
  split
  next hf =>
    rw [h] at hf
    cases hf
  next hf =>
    rw [h] at hf
    cases hf
    exact if_neg (by simpa using hm)

theorem readTypeName_modifier (h : c.expectIdentifier .memberType = .ok (word, d))
    (hm : word ∈ modifiers) : readTypeName c = readTypeName d.skipTrivia := by
  rw [readTypeName]
  split
  next hf =>
    rw [h] at hf
    cases hf
  next hf =>
    rw [h] at hf
    cases hf
    exact if_pos (by simpa using hm)

theorem ModifiersText.atWord (h : ModifiersText text) (hc : c.Spells (encode text) d)
    (hd : d.AtWord) : c.AtWord := by
  cases h with
  | nil =>
    obtain rfl : d = c := hc.advance_eq
    exact hd
  | cons hm =>
    obtain ⟨e, hword, -⟩ := Cursor.spells_encode_append.1 hc
    exact hword.peek_identifier (isIdentifier_modifier _ hm)

/-- The modifiers of a member are passed over. -/
theorem readTypeName_of_modifiers (h : ModifiersText text) (hc : c.Spells (encode text) d)
    (hd : d.AtWord) : readTypeName c = readTypeName d := by
  induction h generalizing c with
  | nil =>
    obtain rfl : d = c := hc.advance_eq
    rfl
  | cons hm hg hrest ih =>
    obtain ⟨c₁, hword, hc⟩ := Cursor.spells_encode_append.1 hc
    obtain ⟨c₂, hgap, hc⟩ := Cursor.spells_encode_append.1 hc
    have hclear : c₁.Clear isIdentifierContinue :=
      hgap.clear_break hg fun _ => isIdentifierContinue_of_isBlank
    rw [readTypeName_modifier
      (hword.expectIdentifier_eq (isIdentifier_modifier _ hm) hclear _) hm,
      hgap.skipTrivia_atWord hg.1 (hrest.atWord hc hd), ih hc]

/-- A word as a type, with another word behind it. -/
theorem readType_word {gap : String} (h : TypeWord word type) (hg : IsBreak gap)
    (hword : readTypeName c = readTypeName d) (hd : d.Spells (encode (word ++ gap)) e)
    (he : e.AtWord) : readType c = .ok (type, e) := by
  obtain ⟨d₁, hd, hgap⟩ := Cursor.spells_encode_append.1 hd
  have hclear : d₁.Clear isIdentifierContinue :=
    hgap.clear_break hg fun _ => isIdentifierContinue_of_isBlank
  have hname : readTypeName c = .ok (word, d₁) := hword.trans <|
    readTypeName_word (hd.expectIdentifier_eq h.isIdentifier hclear _) h.not_mem_modifiers
  refine Reading.bind_eq_ok.2 ⟨(word, d₁), hname, ?_⟩
  dsimp only
  rw [hgap.skipTrivia_atWord hg.1 he, if_neg (he.peek_ne rfl), h.getD_ofWord?]
  rfl

/-- Bytes without angle brackets leave their number as it is. -/
theorem closeAngles_of_spells {bytes : List UInt8} (h : c.Spells bytes d)
    (hb : ∀ b ∈ bytes, b ≠ less ∧ b ≠ greater) (depth : Nat) :
    closeAngles depth c = closeAngles depth d := by
  induction bytes generalizing c with
  | nil =>
    obtain rfl : d = c := h.advance_eq
    rfl
  | cons b bytes ih =>
    obtain ⟨c₁, hbyte, hrest⟩ := Cursor.spells_cons.1 h
    obtain ⟨⟨hless, hgreater⟩, hb⟩ := List.forall_mem_cons.1 hb
    have hstep : closeAngles depth c = closeAngles depth (c.advance 1) :=
      (follows_closeAngles.look rfl hbyte.peek_eq).trans <| (if_neg hless).trans <|
        (if_neg hgreater).trans (if_neg List.not_mem_nil)
    have hnext : c.advance 1 = c₁ := hbyte.advance_eq.symm
    rw [hstep, hnext, ih hrest hb]

theorem ArgumentsText.no_angle (h : ArgumentsText text type) :
    ∀ b ∈ encode text, b ≠ less ∧ b ≠ greater := by
  have hpadded : ∀ {text word : String}, Padded text word → IsWord word →
      ∀ b ∈ encode text, b ≠ less ∧ b ≠ greater := fun h hw =>
    h.forall_mem hw (fun b hb => ⟨ne_of_class hb rfl, ne_of_class hb rfl⟩)
      fun b hb => ⟨ne_of_class hb rfl, ne_of_class hb rfl⟩
  have hcomma : ∀ b ∈ encode ",", b ≠ less ∧ b ≠ greater :=
    List.forall_mem_singleton.2 (by decide)
  cases h with
  | intro hs hf hn hst hrt hct =>
    simp only [encode_append, List.forall_mem_append]
    exact ⟨hpadded hst (isIdentifier_spelling _ hs).isWord, hcomma, hpadded hrt hf.1.isWord, hcomma,
      hpadded hct hn.1.isWord⟩

/-- The arguments of a matrix type between their brackets. -/
theorem readGeneric_matrix (h : ArgumentsText text type)
    (hc : c.Spells (encode ("<" ++ (text ++ ">"))) d) : readGeneric "matrix" c = .ok (type, d) := by
  obtain ⟨c₁, hopen, hc⟩ := Cursor.spells_encode_append.1 hc
  obtain ⟨c₂, harguments, hclose⟩ := Cursor.spells_encode_append.1 hc
  have hnext : c.advance 1 = c₁ := hopen.advance_eq.symm
  have hopened : closeAngles 0 c = closeAngles 1 (c.advance 1) :=
    (follows_closeAngles.look rfl hopen.peek_eq).trans (if_pos rfl)
  have hclosed : closeAngles 1 c₂ = .ok (c₂.advance 1) :=
    (follows_closeAngles.look rfl hclose.peek_eq).trans <| (if_neg (by decide)).trans <|
      (if_pos rfl).trans (if_pos (Nat.le_refl 1))
  have hangles : closeAngles 0 c = .ok d := by
    rw [hopened, hnext, closeAngles_of_spells harguments h.no_angle, hclosed, hclose.advance_eq]
    rfl
  -- The reader measures the arguments by the two brackets around them.
  have hlength : d.pos - c.pos - 2 = (encode text).length := by
    have hone : (encode "<").length = 1 := rfl
    have hone' : (encode ">").length = 1 := rfl
    rw [hclose.pos_add, harguments.pos_add, hopen.pos_add, hone, hone']
    omega
  refine Reading.bind_eq_ok.2 ⟨d, hangles, ?_⟩
  rw [if_pos rfl, hnext, hlength, harguments.upcoming_eq]
  dsimp only
  rw [matrixType?_of_arguments h]
  rfl

/-- The type of a member is read up to its name, apart from the blanks behind closing brackets. -/
theorem readType_of_typeText (h : TypeText text type) (hname : readTypeName c = readTypeName d)
    (hd : d.Spells (encode text) e) (he : e.AtWord) :
    ∃ e', readType c = .ok (type, e') ∧ e'.skipTrivia = e := by
  cases h with
  | word h hg => exact ⟨e, readType_word h hg hname hd he, he.skipTrivia_eq⟩
  | @matrix gap arguments gap' _ hg h hg' =>
    obtain ⟨d₁, hword, hd⟩ := Cursor.spells_encode_append.1 hd
    obtain ⟨d₂, hgap, hd⟩ := Cursor.spells_encode_append.1 hd
    obtain ⟨d₃, hopen, hd⟩ := Cursor.spells_encode_append.1 hd
    obtain ⟨d₄, harguments, hd⟩ := Cursor.spells_encode_append.1 hd
    obtain ⟨d₅, hclose, hgap'⟩ := Cursor.spells_encode_append.1 hd
    have hless : d₂.peek = some less := hopen.peek_eq
    have hclear : d₁.Clear isIdentifierContinue :=
      hgap.clear_gap hg (fun _ => isIdentifierContinue_of_isBlank) (Cursor.clear_of_peek hless rfl)
    have hmatrix : readTypeName c = .ok ("matrix", d₁) := hname.trans <|
      readTypeName_word (hword.expectIdentifier_eq (by decide +kernel) hclear _) (by decide +kernel)
    have hgeneric : readGeneric "matrix" d₂ = .ok (type, d₅) :=
      readGeneric_matrix h (Cursor.spells_encode_append.2
        ⟨d₃, hopen, Cursor.spells_encode_append.2 ⟨d₄, harguments, hclose⟩⟩)
    refine ⟨d₅, ?_, hgap'.skipTrivia_atWord hg' he⟩
    refine Reading.bind_eq_ok.2 ⟨("matrix", d₁), hmatrix, ?_⟩
    dsimp only
    rw [hgap.skipTrivia_mark hg hless rfl (by decide), if_pos hless, hgeneric]

/-! ## Behind the name -/

variable {length semantic gap name : String} {arrayLength : Option UInt32}

theorem findSemicolon_of_spells {bytes : List UInt8} (h : c.Spells bytes d)
    (hb : ∀ b ∈ bytes, b ≠ semicolon ∧ b ≠ closeBrace) (hd : d.peek = some semicolon) :
    findSemicolon c = .ok d := by
  have hskip : c.skipWhile (fun b => b != semicolon && b != closeBrace) = d :=
    h.skipWhile_eq (fun b hm => by simpa using hb b hm) (Cursor.clear_of_peek hd rfl)
  rw [findSemicolon, hskip, if_pos hd]

/-- A byte that does not end a member. -/
def Inner (b : UInt8) : Prop := b ≠ semicolon ∧ b ≠ closeBrace

theorem inner_of_isGap (hg : IsGap gap) : ∀ b ∈ encode gap, Inner b :=
  fun b hb => ⟨ne_of_class (hg b hb) rfl, ne_of_class (hg b hb) rfl⟩

theorem inner_of_isWord (hw : IsWord word) : ∀ b ∈ encode word, Inner b :=
  fun b hb => ⟨ne_of_class (hw.2 b hb) rfl, ne_of_class (hw.2 b hb) rfl⟩

theorem findSemicolon_of_semantic (h : SemanticText semantic) (hg : IsGap gap)
    (hc : c.Spells (encode (semantic ++ gap)) d) (hd : d.peek = some semicolon) :
    findSemicolon c = .ok d := by
  refine findSemicolon_of_spells hc ?_ hd
  rw [encode_append]
  refine List.forall_mem_append.2 ⟨?_, inner_of_isGap hg⟩
  cases h with
  | none => exact List.forall_mem_nil _
  | some hg hg' hw =>
    simp only [encode_append, List.forall_mem_append]
    exact ⟨inner_of_isGap hg, List.forall_mem_singleton.2 ⟨by decide, by decide⟩,
      inner_of_isGap hg', inner_of_isWord hw.isWord⟩

/-- Past the blanks behind a name or a length, where no further length follows. -/
theorem skipTrivia_semantic (h : SemanticText semantic) (hg : IsGap gap)
    (hc : c.Spells (encode (semantic ++ gap)) d) (hd : d.peek = some semicolon) :
    findSemicolon c.skipTrivia = .ok d ∧
      (c.skipTrivia.peek = some colon ∨ c.skipTrivia.peek = some semicolon) := by
  obtain ⟨c₁, hsemantic, hgap⟩ := Cursor.spells_encode_append.1 hc
  cases h with
  | none =>
    obtain rfl : c₁ = c := hsemantic.advance_eq
    rw [hgap.skipTrivia_mark hg hd rfl (by decide)]
    exact ⟨findSemicolon_of_spells ⟨rfl, rfl⟩ (List.forall_mem_nil _) hd, .inr hd⟩
  | @some front gap' word hfront hg' hw =>
    obtain ⟨c₂, hblanks, hsemantic⟩ := Cursor.spells_encode_append.1 hsemantic
    obtain ⟨c₃, hcolon, hword⟩ := Cursor.spells_encode_append.1 hsemantic
    have hpeek : c₂.peek = some colon := hcolon.peek_eq
    have hrest : c₂.Spells (encode ((":" ++ (gap' ++ word)) ++ gap)) d :=
      Cursor.spells_encode_append.2 ⟨c₁, hsemantic, hgap⟩
    -- What is left is a semantic again, without the blanks in front of it.
    have hsome : SemanticText (":" ++ (gap' ++ word)) := by
      simpa using @SemanticText.some "" gap' word (List.forall_mem_nil _) hg' hw
    rw [hblanks.skipTrivia_mark hfront hpeek rfl (by decide)]
    exact ⟨findSemicolon_of_semantic hsome hg hrest hd, .inl hpeek⟩

theorem readArrayLength_of_padded {digits : String} {n : UInt32} (h : Word.IsNumeral digits n.toNat)
    (hpadded : Padded text digits) (hc : c.Spells (encode ("[" ++ (text ++ "]"))) d) :
    readArrayLength name c = .ok (some n, d) := by
  obtain ⟨front, back, hfront, hback, rfl⟩ := hpadded
  obtain ⟨c₁, hopen, hc⟩ := Cursor.spells_encode_append.1 hc
  obtain ⟨c₄, hpadded, hclose⟩ := Cursor.spells_encode_append.1 hc
  obtain ⟨c₂, hblanks, hpadded⟩ := Cursor.spells_encode_append.1 hpadded
  obtain ⟨c₃, hdigits, hblanks'⟩ := Cursor.spells_encode_append.1 hpadded
  have hvalue : c₂.valueToken = (digits, c₃) := by
    refine hdigits.valueToken_eq h.isWord ?_
    exact hblanks'.clear_gap hback (fun _ => not_of_isBlank rfl)
      (Cursor.clear_of_peek hclose.peek_eq rfl)
  have hbracket : c.eat? openBracket = some c₁ := hopen.eat?_eq
  rw [readArrayLength, hbracket]
  dsimp only
  rw [hblanks.skipTrivia_isWord hfront hdigits h.isWord, hvalue]
  dsimp only
  rw [Word.ofText?_of_isNumeral h]
  refine Reading.bind_eq_ok.2 ⟨d, ?_, rfl⟩
  rw [hblanks'.skipTrivia_mark hback hclose.peek_eq rfl (by decide)]
  exact hclose.expectByte_eq _

/-- What is behind the name of a member, up to its semicolon. -/
theorem readArrayLength_of_lengthText (name : String) (hl : LengthText length arrayLength)
    (hs : SemanticText semantic) (hg : IsGap gap)
    (hc : c.Spells (encode (length ++ (semantic ++ gap))) d) (hd : d.peek = some semicolon) :
    c.skipTrivia.peek ≠ some openParen ∧ ∃ e, readArrayLength name c.skipTrivia =
      .ok (arrayLength, e) ∧ findSemicolon e = .ok d := by
  obtain ⟨c₁, hlength, hrest⟩ := Cursor.spells_encode_append.1 hc
  cases hl with
  | none =>
    obtain rfl : c₁ = c := hlength.advance_eq
    obtain ⟨hfind, hpeek⟩ := skipTrivia_semantic hs hg hrest hd
    have hne : ∀ b, b ≠ colon → b ≠ semicolon → c₁.skipTrivia.peek ≠ some b := by
      intro b hcolon hsemicolon hb
      rcases hpeek with hpeek | hpeek
      · exact hcolon (Option.some.inj (hb.symm.trans hpeek))
      · exact hsemicolon (Option.some.inj (hb.symm.trans hpeek))
    have heat : c₁.skipTrivia.eat? openBracket = none := if_neg (hne _ (by decide) (by decide))
    refine ⟨hne _ (by decide) (by decide), c₁.skipTrivia, ?_, hfind⟩
    rw [readArrayLength, heat]
  | some hfront hnumeral hpadded =>
    obtain ⟨c₂, hblanks, hlength⟩ := Cursor.spells_encode_append.1 hlength
    obtain ⟨c₃, hopen, -⟩ := Cursor.spells_encode_append.1 hlength
    have hpeek : c₂.peek = some openBracket := hopen.peek_eq
    rw [hblanks.skipTrivia_mark hfront hpeek rfl (by decide)]
    refine ⟨by rw [hpeek]; decide, c₁, ?_, findSemicolon_of_semantic hs hg hrest hd⟩
    exact readArrayLength_of_padded hnumeral hpadded hlength

/-- The name of a member ends where its length, semantic or semicolon follows. -/
theorem clear_of_lengthText (hl : LengthText length arrayLength) (hs : SemanticText semantic)
    (hg : IsGap gap) (hc : c.Spells (encode (length ++ (semantic ++ gap))) d)
    (hd : d.peek = some semicolon) : c.Clear isIdentifierContinue := by
  have hmark : ∀ {c c₁ c₂ : Cursor} {gap : String} {b : UInt8} {bytes : List UInt8}, IsGap gap →
      c.Spells (encode gap) c₁ → c₁.Spells (b :: bytes) c₂ → isIdentifierContinue b = false →
      c.Clear isIdentifierContinue := fun hg hgap hmark hb =>
    hgap.clear_gap hg (fun _ => isIdentifierContinue_of_isBlank)
      (Cursor.clear_of_peek hmark.peek_eq hb)
  obtain ⟨c₁, hlength, hrest⟩ := Cursor.spells_encode_append.1 hc
  cases hl with
  | some hfront =>
    obtain ⟨c₂, hblanks, hlength⟩ := Cursor.spells_encode_append.1 hlength
    obtain ⟨c₃, hopen, -⟩ := Cursor.spells_encode_append.1 hlength
    exact hmark hfront hblanks hopen rfl
  | none =>
    obtain rfl : c₁ = c := hlength.advance_eq
    obtain ⟨c₂, hsemantic, hgap⟩ := Cursor.spells_encode_append.1 hrest
    cases hs with
    | some hfront =>
      obtain ⟨c₃, hblanks, hsemantic⟩ := Cursor.spells_encode_append.1 hsemantic
      obtain ⟨c₄, hcolon, -⟩ := Cursor.spells_encode_append.1 hsemantic
      exact hmark hfront hblanks hcolon rfl
    | none =>
      obtain rfl : c₂ = c₁ := hsemantic.advance_eq
      exact hgap.clear_gap hg (fun _ => isIdentifierContinue_of_isBlank)
        (Cursor.clear_of_peek hd rfl)

theorem endsDark_of_texts (hn : IsIdentifier name) (hl : LengthText length arrayLength)
    (hs : SemanticText semantic) : EndsDark (name ++ (length ++ semantic)) := by
  cases hs with
  | some hg hg' hw =>
    exact (((hw.isWord.endsDark.append _).append _).append _).append _ |>.append _
  | none =>
    rw [String.append_empty]
    cases hl with
    | none =>
      rw [String.append_empty]
      exact hn.isWord.endsDark
    | some =>
      have hbracket : EndsDark "]" := ⟨[], ']', rfl, rfl⟩
      exact (((hbracket.append _).append _).append _).append _

variable {m : Member} {members read : List Member}

theorem TypeText.atWord (h : TypeText text type) (hc : c.Spells (encode text) d) : c.AtWord := by
  cases h with
  | word h =>
    obtain ⟨e, hword, -⟩ := Cursor.spells_encode_append.1 hc
    exact hword.peek_identifier h.isIdentifier
  | matrix =>
    obtain ⟨e, hword, -⟩ := Cursor.spells_encode_append.1 hc
    exact hword.peek_identifier (by decide +kernel)

theorem Denotes.atWord (h : Denotes m) (hc : c.Spells (encode m.declaration) d) : c.AtWord := by
  cases h with
  | intro hm ht =>
    obtain ⟨c₁, hmodifiers, hc⟩ := Cursor.spells_encode_append.1 hc
    obtain ⟨c₂, htype, -⟩ := Cursor.spells_encode_append.1 hc
    exact hm.atWord hmodifiers (ht.atWord htype)

/-- A member is read as it is declared. -/
theorem readMember_of_denotes (h : Denotes m) (hg : IsGap gap)
    (hc : c.Spells (encode (m.declaration ++ (gap ++ ";"))) d) :
    readMember c = .ok (some m, d) := by
  obtain ⟨c₄, hdeclaration, hc⟩ := Cursor.spells_encode_append.1 hc
  obtain ⟨c₅, hgap, hend⟩ := Cursor.spells_encode_append.1 hc
  have hsemicolon : c₅.peek = some semicolon := hend.peek_eq
  have htext := (Cursor.spells_encode_append.2 ⟨c₄, hdeclaration, hgap⟩).textUntil_eq
  cases h with
  | @intro modifiers type name length semantic memberType arrayLength hm ht hn hl hs =>
    obtain ⟨c₁, hmodifiers, hrest⟩ := Cursor.spells_encode_append.1 hdeclaration
    obtain ⟨c₂, htype, hrest⟩ := Cursor.spells_encode_append.1 hrest
    obtain ⟨c₃, hname, hrest⟩ := Cursor.spells_encode_append.1 hrest
    have hword : c₂.AtWord := hname.peek_identifier hn
    have hstart : c₁.AtWord := ht.atWord htype
    have hbehind : c₃.Spells (encode (length ++ (semantic ++ gap))) c₅ := by
      rw [← String.append_assoc]
      exact Cursor.spells_encode_append.2 ⟨c₄, hrest, hgap⟩
    obtain ⟨e, htypeRead, hskip⟩ := readType_of_typeText ht
      (readTypeName_of_modifiers hm hmodifiers hstart) htype hword
    obtain ⟨hparen, e', hlength, hfind⟩ :=
      readArrayLength_of_lengthText name hl hs hg hbehind hsemicolon
    have hclear := clear_of_lengthText hl hs hg hbehind hsemicolon
    have hdark : EndsDark (modifiers ++ (type ++ (name ++ (length ++ semantic)))) :=
      ((endsDark_of_texts hn hl hs).append _).append _
    have hdata : readData c memberType name c₃.skipTrivia = .ok (⟨memberType, arrayLength, name,
        modifiers ++ (type ++ (name ++ (length ++ semantic)))⟩, d) := by
      refine Reading.bind_eq_ok.2 ⟨(arrayLength, e'), hlength, Reading.bind_eq_ok.2 ⟨c₅, hfind, ?_⟩⟩
      rw [htext, String.toList_append, trimRight_append_gap hdark hg, String.ofList_toList,
        hend.advance_eq]
      rfl
    refine Reading.bind_eq_ok.2 ⟨(memberType, e), htypeRead, Reading.bind_eq_ok.2
      ⟨(name, c₃), ?_, ?_⟩⟩
    · rw [hskip]
      exact hname.expectIdentifier_eq hn hclear _
    · dsimp only
      rw [if_neg hparen]
      exact Reading.bind_eq_ok.2 ⟨_, hdata, rfl⟩

/-! ## Reading a definition -/

theorem readMembers_close (h : c.skipTrivia.peek = some closeBrace) :
    readMembers read c = .ok (read.reverse, c.skipTrivia.advance 1) := by
  rw [readMembers, h]
  exact if_pos rfl

theorem readMembers_member {b : UInt8} {member : Option Member}
    (hp : c.skipTrivia.peek = some b) (hb : b ≠ closeBrace)
    (h : readMember c.skipTrivia = .ok (member, d)) :
    readMembers read c = readMembers (member.toList ++ read) d := by
  rw [readMembers, hp]
  dsimp only
  rw [if_neg hb]
  split
  next hf =>
    rw [h] at hf
    cases hf
  next hf =>
    rw [h] at hf
    cases hf
    rfl

/-- Members are read one behind the other, in their order. -/
theorem readMembers_of_membersText (h : MembersText text members)
    (hc : c.Spells (encode text) d) (hd : d.Spells (encode "\x7d") e) :
    readMembers read c = .ok (read.reverse ++ members, e) := by
  have hclose : d.peek = some closeBrace := hd.peek_eq
  induction h generalizing c read with
  | nil hg =>
    have hskip : c.skipTrivia = d := hc.skipTrivia_mark hg hclose rfl (by decide)
    rw [readMembers_close (hskip ▸ hclose), hskip, List.append_nil, hd.advance_eq]
    rfl
  | @cons gap gap' rest member members hg hm hg' hrest ih =>
    obtain ⟨c₁, hgap, hc⟩ := Cursor.spells_encode_append.1 hc
    obtain ⟨c₂, htext, hc⟩ := Cursor.spells_encode_append.1 hc
    obtain ⟨c₃, hdeclaration, -⟩ := Cursor.spells_encode_append.1 htext
    have hstart : c₁.AtWord := hm.atWord hdeclaration
    have hskip : c.skipTrivia = c₁ := hgap.skipTrivia_atWord hg hstart
    have hmember : readMember c.skipTrivia = .ok (some member, c₂) := by
      rw [hskip]
      exact readMember_of_denotes hm hg' htext
    obtain ⟨b, hb, hs⟩ := hstart
    rw [readMembers_member (hskip ▸ hb) (ne_of_class hs rfl) hmember, ih hc]
    simp

/-- A definition is read up to its closing brace, with a semicolon that follows on that line. -/
theorem read_of_texts {afterWord name afterName body : String} (hw : IsBreak afterWord)
    (hn : IsIdentifier name) (hg : IsGap afterName) (hm : MembersText body members)
    (hc : c.Spells
      (encode (afterWord ++ (name ++ (afterName ++ ("\x7b" ++ (body ++ "\x7d")))))) d) :
    Struct.read c = .ok (some ⟨name, members⟩, skipSemicolon d) := by
  obtain ⟨c₁, hword, hc⟩ := Cursor.spells_encode_append.1 hc
  obtain ⟨c₂, hname, hc⟩ := Cursor.spells_encode_append.1 hc
  obtain ⟨c₃, hgap, hc⟩ := Cursor.spells_encode_append.1 hc
  obtain ⟨c₄, hopen, hc⟩ := Cursor.spells_encode_append.1 hc
  obtain ⟨c₅, hbody, hclose⟩ := Cursor.spells_encode_append.1 hc
  have hpeek : c₃.peek = some openBrace := hopen.peek_eq
  have hclear : c₂.Clear isIdentifierContinue :=
    hgap.clear_gap hg (fun _ => isIdentifierContinue_of_isBlank) (Cursor.clear_of_peek hpeek rfl)
  have hidentifier : c.skipTrivia.identifier = (name, c₂) := by
    rw [hword.skipTrivia_atWord hw.1 (hname.peek_identifier hn), hname.identifier_eq hn hclear]
  have hbrace : c₂.skipTrivia.eat? openBrace = some c₄ := by
    rw [hgap.skipTrivia_mark hg hpeek rfl (by decide)]
    exact hopen.eat?_eq
  rw [Struct.read, hidentifier]
  dsimp only
  rw [hbrace]
  exact Reading.bind_eq_ok.2 ⟨(members, d), readMembers_of_membersText hm hbody hclose, rfl⟩

end Struct

/-! ## Outlines of definitions -/

namespace Outline

open Cursor Scan Struct

variable {s : Scan} {d : Cursor}

/-- Blanks with a semicolon among them are passed over. -/
theorem mark_of_mem {gap gap' : String} (hg : IsGap gap) (hg' : IsGap gap') :
    ∀ b ∈ encode (gap ++ (";" ++ gap')), isMark b = true ∧ b ≠ openBracket := by
  have hgap : ∀ {gap : String}, IsGap gap →
      ∀ b ∈ encode gap, isMark b = true ∧ b ≠ openBracket := by
    intro gap hg b hb
    rcases eq_of_isBlank (hg b hb) with rfl | rfl | rfl | rfl | rfl <;> decide
  simp only [encode_append, List.forall_mem_append]
  exact ⟨hgap hg, List.forall_mem_singleton.2 (by decide), hgap hg'⟩

/-- A definition that only marks follow. -/
theorem ofScan_definition {definition : Definition} {c : Cursor}
    (h : s.cursor.Spells (encode "struct") c) (hc : c.Clear isIdentifierContinue)
    (hread : Struct.read c = .ok (some definition, d)) (hs : s.pending = [])
    (hd : ∀ b ∈ d.rest, isMark b = true ∧ b ≠ openBracket) :
    ofScan s =
      ⟨[.struct definition s.cursor.location (s.cursor.rangeUntil d)], none⟩ := by
  have hkind : (Keyword.ofWord? "struct" : Option ResourceKind) = none := rfl
  have hword : s.word = ⟨[.struct definition s.cursor.location (s.cursor.rangeUntil d)],
      .ok (s.moved d true)⟩ := by
    rw [Scan.word, h.identifier_eq (by decide +kernel) hc]
    dsimp only
    rw [hkind]
    dsimp only
    rw [if_neg (by decide), if_pos rfl, Scan.struct, hread]
  have hrest : ofScan (s.moved d true) = ⟨[], unresolved? s.pending⟩ :=
    ofScan_marks (s := s.moved d true) rfl hd
  obtain ⟨b, hb, hstep⟩ := step_word h (by decide +kernel)
  rw [ofScan_of_ok hb (hstep.trans hword), hrest, hs]
  rfl

/-- A definition is the one item of its text. -/
theorem ofText_definition {source name : String} {members : List Member}
    (h : DefinitionText source name members) :
    ∃ place range, ofText source = ⟨[.struct ⟨name, members⟩ place range], none⟩ := by
  obtain ⟨e, hspells, hend⟩ : ∃ e, (Cursor.ofText source).Spells (encode source) e ∧ e.rest = [] :=
    exists_spells _ (List.append_nil _).symm
  cases h with
  | @intro before afterWord name afterName body afterBody behind members hbefore hword hn hname hm
      hbody hbehind =>
    obtain ⟨c₁, hgap, hspells⟩ := spells_encode_append.1 hspells
    obtain ⟨c₂, hstruct, hspells⟩ := spells_encode_append.1 hspells
    obtain ⟨c₃, hdefinition, hrest⟩ := spells_encode_append.1 hspells
    obtain ⟨c₄, hbreak, -⟩ := spells_encode_append.1 hdefinition
    have hclear : c₂.Clear isIdentifierContinue :=
      hbreak.clear_break hword fun _ => isIdentifierContinue_of_isBlank
    -- A semicolon on a later line is left to the scan, which passes over it.
    have hmarks : ∀ b ∈ (skipSemicolon c₃).rest, isMark b = true ∧ b ≠ openBracket := by
      intro b hb
      obtain ⟨n, hn⟩ := reaches_skipSemicolon c₃
      rw [hn, rest_advance, hrest.rest_eq, hend, List.append_nil] at hb
      exact mark_of_mem hbody hbehind b (List.mem_of_mem_drop hb)
    exact ⟨_, _, (ofScan_blanks hgap hbefore).trans <|
      ofScan_definition (s := Scan.moved _ c₁ true) hstruct hclear
        (read_of_texts hword hn hname hm hdefinition) rfl hmarks⟩

end Outline

/-! ## Shaders of definitions -/

namespace Shader

open Struct

variable {includes : Includes} {file source : String}

/-- A text with one struct and nothing else is left as it is. -/
theorem exists_of_struct {definition : Definition} {place : Location} {range : ByteRange}
    (h : Outline.ofText source = ⟨[.struct definition place range], none⟩)
    (hname : definition.name ≠ "") :
    ∃ shader range', ofSource includes file source = .ok shader ∧
      shader.toDeclarations = { structs := [⟨definition.name, definition.members, some range'⟩] } ∧
      shader.output = source := by
  let declared : Declarations :=
    { structs := [⟨definition.name, definition.members, some range⟩] }
  have hadd : ({} : Declarations).addStruct definition place (some range) = .ok declared := by
    have hgiven : ({} : Declarations).structName definition.name = definition.name := if_neg hname
    rw [Declarations.addStruct, hgiven]
    rfl
  have hstep : Declarations.gatherer.step {} ⟨file, 0, .struct definition place range⟩ =
      .ok declared :=
    congrArg (Except.mapError fun f : Failure => f.inFile file) hadd
  have hd : Declarations.ofRoot includes file source = .ok declared := by
    rw [Declarations.ofRoot, Visitor.visitRoot, Expansion.depthLimit, Visitor.visitFile, h]
    dsimp only
    rw [Visitor.visitItems, hstep]
    rfl
  obtain ⟨edits, hshader⟩ := exists_of_bare hd rfl rfl rfl (by rw [h]; rfl)
  exact ⟨_, edits.mapRange range, hshader, rfl, rfl⟩

/-- The struct of a definition is recorded with its members, whatever files there are to include. -/
theorem exists_records_definition (includes : Includes) (file : String) {source name : String}
    {members : List Member} (h : DefinitionText source name members) :
    ∃ shader range, ofSource includes file source = .ok shader ∧
      shader.toDeclarations = { structs := [⟨name, members, some range⟩] } ∧
      shader.output = source := by
  obtain ⟨place, range, houtline⟩ := Outline.ofText_definition h
  have hname : name ≠ "" := by
    cases h with
    | intro _ _ hn =>
      rintro rfl
      exact hn.encode_ne_nil rfl
  exact exists_of_struct houtline hname

/-- A struct with a matrix, an array of vectors and a struct as members. -/
theorem exists_records_light :
    ∃ shader range, ofSource (.ofFiles []) "light.hlsl"
        ("struct Light\n\x7b\n  row_major matrix< float, 3, 4 > view;\n" ++
          "  uint16_t2 ids [ 08 ] : IDS ;Material surface;\n\x7d;\n") = .ok shader ∧
      shader.structs = [⟨"Light", [
        ⟨⟨.float, 3, 4⟩, none, "view", "row_major matrix< float, 3, 4 > view"⟩,
        ⟨⟨.uint16, 2, 1⟩, some 8, "ids", "uint16_t2 ids [ 08 ] : IDS"⟩,
        ⟨⟨.struct, 1, 1⟩, none, "surface", "Material surface"⟩], some range⟩] := by
  have harguments : ArgumentsText " float, 3, 4 " ⟨.float, 3, 4⟩ :=
    @ArgumentsText.intro "float" "3" "4" " float" " 3" " 4 " .float 3 4 (by decide +kernel)
      ⟨⟨0, by decide +kernel⟩, by decide⟩ ⟨⟨0, by decide +kernel⟩, by decide⟩
      ⟨" ", "", by decide, by decide, by decide +kernel⟩
      ⟨" ", "", by decide, by decide, by decide +kernel⟩
      ⟨" ", " ", by decide, by decide, by decide +kernel⟩
  have hview : Denotes ⟨⟨.float, 3, 4⟩, none, "view", "row_major matrix< float, 3, 4 > view"⟩ :=
    @Denotes.intro "row_major " "matrix< float, 3, 4 > " "view" "" "" ⟨.float, 3, 4⟩ none
      (@ModifiersText.cons "row_major" " " "" (by decide +kernel) (by decide) .nil)
      (@TypeText.matrix "" " float, 3, 4 " " " _ (by decide) harguments (by decide))
      (by decide +kernel) .none .none
  have hids : Denotes ⟨⟨.uint16, 2, 1⟩, some 8, "ids", "uint16_t2 ids [ 08 ] : IDS"⟩ :=
    @Denotes.intro "" "uint16_t2 " "ids" " [ 08 ]" " : IDS" ⟨.uint16, 2, 1⟩ (some 8) .nil
      (@TypeText.word "uint16_t2" " " _ (@TypeWord.primitive "uint16_t" "2" .uint16 2 1
        (by decide +kernel) (.vector ⟨⟨0, by decide +kernel⟩, by decide⟩)) (by decide))
      (by decide +kernel)
      (@LengthText.some " " "08" " 08 " 8 (by decide) ⟨1, by decide +kernel⟩
        ⟨" ", " ", by decide, by decide, by decide +kernel⟩)
      (@SemanticText.some " " " " "IDS" (by decide) (by decide) (by decide +kernel))
  have hsurface : Denotes ⟨⟨.struct, 1, 1⟩, none, "surface", "Material surface"⟩ :=
    @Denotes.intro "" "Material " "surface" "" "" ⟨.struct, 1, 1⟩ none .nil
      (@TypeText.word "Material" " " _ (.other (by decide +kernel) (by decide +kernel)
        (by decide +kernel)) (by decide)) (by decide +kernel) .none .none
  have hmembers := @MembersText.cons "\n  " "" _ _ _ (by decide) hview (by decide) <|
    @MembersText.cons "\n  " " " _ _ _ (by decide) hids (by decide) <|
    @MembersText.cons "" "" _ _ _ (by decide) hsurface (by decide) <|
    @MembersText.nil "\n" (by decide)
  have htext := @DefinitionText.intro "" " " "Light" "\n" _ "" "\n" _ (by decide) (by decide)
    (by decide +kernel) (by decide) hmembers (by decide) (by decide)
  obtain ⟨shader, range, hshader, hdeclarations, -⟩ :=
    exists_records_definition (.ofFiles []) "light.hlsl" htext
  refine ⟨shader, range, ?_, congrArg Declarations.structs hdeclarations⟩
  rw [← hshader]
  exact congrArg (ofSource _ _) (by decide +kernel)

end Shader

end BindlessHlsl
