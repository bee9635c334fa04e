import BindlessHlsl.Proofs.ConstantsBudget
import BindlessHlsl.Proofs.FailurePlaces
import BindlessHlsl.Proofs.IncludeStack
import BindlessHlsl.Proofs.LineStructure
import BindlessHlsl.Proofs.Listing

/-!
Texts that declare nothing and are left as they are (`Shader.unchanged`). Words and marks that start
no declaration are passed over one after the other. A constant array is such a text if it has one
length (`Shader.ReadsArray`): the bracket that closes a length lets an attribute follow, so that
the bracket of a second length is taken for one.
-/

namespace BindlessHlsl

open Ascii Utf8

/-! ## Cursors at marks and words -/

namespace Cursor

variable {c d : Cursor} {b : UInt8} {word : String}

theorem skipTrivia_of_peek (h : c.peek = some b) (hb : isBlank b = false) (hs : b ≠ slash) :
    c.skipTrivia = c := by
  have hblank : c.skipBlank = c := by
    refine skipBlank_of_peek fun d hd => ?_
    obtain rfl : b = d := Option.some.inj (h.symm.trans hd)
    exact hb
  rw [skipTrivia, hblank, if_neg (not_atComment_of_peek h hs)]

theorem Spells.skipTrivia_blank (h : c.Spells [b] d) (hb : isBlank b = true) :
    c.skipTrivia = d.skipTrivia := by
  have hn : Lexeme.trivia c.rest = 1 + Lexeme.trivia d.rest := by
    rw [h.rest_eq, List.singleton_append, Lexeme.trivia, if_pos hb]
  rw [skipTrivia_eq, hn, ← advance_advance, skipTrivia_eq, h.advance_eq]
  rfl

theorem Spells.skipTrivia_word (h : c.Spells (encode word) d) (hw : IsIdentifier word) :
    c.skipTrivia = c := by
  obtain ⟨b, hb, hs⟩ := h.peek_identifier hw
  refine skipTrivia_of_peek hb (isBlank_of_isIdentifierStart hs) ?_
  rintro rfl
  cases hs

/-- No identifier is read where none starts. -/
theorem identifier_of_peek (h : c.peek = some b) (hb : isIdentifierStart b = false) :
    c.identifier = ("", c) := by
  have hn : Lexeme.identifier c.rest = 0 := by
    obtain ⟨rest, hr⟩ := List.head?_eq_some_iff.1 h
    rw [hr, Lexeme.identifier, if_neg (by rw [hb]; exact Bool.false_ne_true)]
  rw [identifier, hn, upcoming_zero]
  rfl

theorem failure_of_peek (h : c.peek = some b) (what : Expectation) :
    c.failure what = .at c.location (.expected what) := by
  have hr : c.atEnd = false := by
    simpa [atEnd] using rest_ne_nil_of_peek h
  rw [failure, hr]
  rfl

theorem Spells.pos_eq {text : String} {bytes : List UInt8} (h : (ofText text).Spells bytes c) :
    c.pos = bytes.length := by
  have hlength : bytes.length ≤ (ofText text).rest.length := by
    rw [h.rest_eq, List.length_append]
    exact Nat.le_add_right ..
  rw [h.advance_eq, pos_advance, Nat.min_eq_left hlength]
  exact Nat.zero_add _

theorem Spells.location_eq {text : String} {bytes : List UInt8}
    (h : (ofText text).Spells bytes c) : c.location = .ofOffset text bytes.length := by
  have hreaches : (ofText text).Reaches c := ⟨bytes.length, h.advance_eq⟩
  rw [hreaches.location_eq, h.pos_eq]

end Cursor

theorem Function.bodyStart?_eq_none {name afterName : Cursor}
    (h : afterName.skipTrivia.peek ≠ some openParen) : bodyStart? name afterName = none := by
  have hopen : afterName.skipTrivia.eat? openParen = none := if_neg h
  unfold bodyStart?
  split
  · rw [hopen]
    rfl
  · rfl

/-! ## Passing over words and marks -/

/-- A word that starts no declaration. -/
structure Scan.Plain (word : String) : Prop where
  identifier : IsIdentifier word
  kind? : (Keyword.ofWord? word : Option ResourceKind) = none
  ne_sampler : word ≠ "SamplerState"
  ne_struct : word ≠ "struct"

namespace Outline

open Cursor Scan

variable {s : Scan} {c d : Cursor} {word next : String}

theorem ofScan_of_word {t : Scan} (h : s.cursor.Spells (encode word) c) (hw : IsIdentifier word)
    (hs : s.word = ⟨[], .ok t⟩) : ofScan s = ofScan t := by
  obtain ⟨b, hb, hstep⟩ := step_word h hw
  rw [ofScan_of_ok hb (hstep.trans hs), after_nil]

theorem ofScan_word (h : s.cursor.Spells (encode word) c) (hw : Plain word)
    (hc : c.Clear isIdentifierContinue) (hbody : Function.bodyStart? s.cursor c = none) :
    ofScan s = ofScan (s.moved c false) := by
  refine ofScan_of_word h hw.identifier ?_
  rw [Scan.word, h.identifier_eq hw.identifier hc]
  dsimp only
  rw [hw.kind?]
  dsimp only
  rw [if_neg hw.ne_sampler, if_neg hw.ne_struct, hbody]

/-- A word in front of another one. -/
theorem ofScan_word_space (h : s.cursor.Spells (encode word ++ [space]) c) (hw : Plain word)
    (hc : c.Spells (encode next) d) (hn : IsIdentifier next) :
    ofScan s = ofScan (s.moved c false) := by
  obtain ⟨e, hword, hspace⟩ := spells_append.1 h
  have htrivia : e.skipTrivia = c := by
    rw [hspace.skipTrivia_blank rfl, hc.skipTrivia_word hn]
  have hbody : Function.bodyStart? s.cursor e = none :=
    Function.bodyStart?_eq_none (htrivia ▸ hc.peek_ne hn rfl)
  rw [ofScan_word hword hw (clear_of_peek hspace.peek_eq rfl) hbody]
  exact ofScan_blank hspace rfl

end Outline

/-! ## Shaders of such texts -/

/-- A file with this outline and no items is read as far as its failure. -/
theorem Declarations.ofRoot_of_items_nil {includes : Includes} {file source : String}
    (h : (Outline.ofText source).items = []) :
    ofRoot includes file source =
      match (Outline.ofText source).failure with
      | some failure => .error (failure.inFile file)
      | none => .ok {} := by
  rw [ofRoot, Visitor.visitRoot, Expansion.depthLimit, Visitor.visitFile, h]
  rfl

namespace Shader

open EditList

variable {includes : Includes} {file source : String}

/-- The shader of a text that declares nothing. -/
def unchanged (source : String) : Shader :=
  { ({} : Declarations) with constantsSize := 0, layout := none, output := source }

/-- Without resources, samplers and functions, nothing is added to a text. -/
theorem exists_of_bare {d : Declarations} (hd : Declarations.ofRoot includes file source = .ok d)
    (hr : d.resources = []) (hs : d.samplers = []) (hf : d.functions = [])
    (hconsumed : consumed (Outline.ofText source).items [] = fun _ => false) :
    ∃ edits, ofSource includes file source = .ok { d with
      structs := d.structs.map (moveStruct edits)
      constantsSize := 0
      layout := none
      output := source } := by
  have hu : UserConstants.ofDeclarations file d = .ok {} := by
    rw [UserConstants.ofDeclarations, hr]
    rfl
  obtain ⟨shader, hshader⟩ := exists_ofSource_of_constants hd hu (by rw [hr]; decide)
  obtain ⟨p, hc, hresources, hsamplers, hl, ho, hfields⟩ :=
    generate_eq_ok (ofSource_eq_generate hd ▸ hshader)
  have htable : p.resources = [] := by
    rw [hresources, hr, Resource.table, Resource.sorted, List.mergeSort_nil, Resource.withSlots]
  have hconstants : p.constants = {} := Except.ok.inj (hc.symm.trans hu)
  have hlayout : p.layout = none := by
    rw [htable, hconstants] at hl
    exact (Except.ok.inj hl).symm
  have houtput : shader.output = source := by
    rw [output_eq hd ho, Preamble.text_eq_empty.2 ⟨htable, hsamplers.trans hs⟩, hconstants,
      hconsumed, hf, List.filterMap_nil, woven_none, String.ofList_toList, String.empty_append]
  refine ⟨p.edits source d.functions, ?_⟩
  rw [hshader, hfields, houtput, htable, hconstants, hlayout, hr, hf]
  rfl

theorem ofSource_eq_unchanged (h : Outline.ofText source = ⟨[], none⟩) :
    ofSource includes file source = .ok (unchanged source) := by
  have hd : Declarations.ofRoot includes file source = .ok {} := by
    rw [Declarations.ofRoot_of_items_nil (by rw [h]), h]
  obtain ⟨edits, hshader⟩ := exists_of_bare hd rfl rfl rfl (by rw [h]; rfl)
  exact hshader

theorem ofSource_eq_failure {failure : Failure} (h : Outline.ofText source = ⟨[], some failure⟩) :
    ofSource includes file source = .error (.rejected (failure.inFile file)) :=
  ofSource_eq_rejected (by rw [Declarations.ofRoot_of_items_nil (by rw [h]), h])

end Shader

/-! ## Constant arrays -/

/-- A text of decimal digits. -/
def IsDecimal (text : String) : Prop := encode text ≠ [] ∧ ∀ b ∈ encode text, isDigit b = true

instance decidableIsDecimal : DecidablePred IsDecimal := fun text =>
  decidable_of_iff (((encode text).isEmpty || !(encode text).all isDigit) = false) <| by
    simp [IsDecimal]

/-- A constant array at global scope: type, name, and the length of each dimension. -/
structure ArrayDeclaration where
  type : String
  name : String
  lengths : List String
  type_plain : Scan.Plain type
  name_plain : Scan.Plain name
  lengths_ne_nil : lengths ≠ []
  decimal : ∀ length ∈ lengths, IsDecimal length

namespace ArrayDeclaration

/-- The length of one dimension in brackets. -/
def subscript (length : String) : String := "[" ++ length ++ "]"

theorem encode_subscript (length : String) :
    encode (subscript length) = [openBracket] ++ (encode length ++ [closeBracket]) := by
  simp only [subscript, encode_append, List.append_assoc]
  rfl

/-- What comes in front of the lengths. -/
def front (a : ArrayDeclaration) : String := "static const " ++ a.type ++ " " ++ a.name

theorem encode_front (a : ArrayDeclaration) :
    encode a.front = (encode "static" ++ [space]) ++ ((encode "const" ++ [space]) ++
      ((encode a.type ++ [space]) ++ encode a.name)) := by
  have hlead : encode "static const " =
      (encode "static" ++ [space]) ++ (encode "const" ++ [space]) := rfl
  calc encode a.front
    _ = encode "static const " ++ encode a.type ++ [space] ++ encode a.name :=
      (encode_append ..).trans (congrArg (· ++ _) ((encode_append ..).trans
        (congrArg (· ++ _) (encode_append ..))))
    _ = _ := by rw [hlead]; simp only [List.append_assoc]

/-- The declaration as it is written. -/
def text (a : ArrayDeclaration) : String :=
  a.front ++ String.join (a.lengths.map subscript) ++ ";"

/-- The place behind the bracket that follows the first length. -/
def secondPlace (a : ArrayDeclaration) (first : String) : Location :=
  .ofOffset a.text (Utf8.length (a.front ++ subscript first ++ "["))

end ArrayDeclaration

namespace Ascii

variable {b : UInt8}

/-- A byte of a class is none of the bytes outside it. -/
theorem ne_of_class {p : UInt8 → Bool} {mark : UInt8} (h : p b = true) (hm : p mark = false) :
    b ≠ mark := by
  rintro rfl
  rw [h] at hm
  cases hm

theorem isIdentifierStart_of_isDigit (h : isDigit b = true) : isIdentifierStart b = false := by
  simp only [isDigit, Bool.and_eq_true, decide_eq_true_eq, UInt8.le_iff_toNat_le,
    UInt8.reduceToNat] at h
  simp only [isIdentifierStart, isLetter, underscore, Bool.or_eq_false_iff, Bool.and_eq_false_iff,
    decide_eq_false_iff_not, beq_eq_false_iff_ne, ne_eq, UInt8.le_iff_toNat_le, ← UInt8.toNat_inj,
    UInt8.reduceToNat]
  omega

theorem isBlank_of_isDigit (h : isDigit b = true) : isBlank b = false := by
  simp only [isBlank, isInlineBlank, Bool.or_eq_false_iff, beq_eq_false_iff_ne]
  refine ⟨⟨⟨⟨?_, ?_⟩, ?_⟩, ?_⟩, ?_⟩ <;> exact ne_of_class h rfl

theorem isMark_of_isDigit (h : isDigit b = true) : Scan.isMark b = true := by
  simp only [Scan.isMark, isIdentifierStart_of_isDigit h, Bool.and_eq_true, bne_iff_ne]
  refine ⟨⟨⟨?_, ?_⟩, ?_⟩, rfl⟩ <;> exact ne_of_class h rfl

end Ascii

/-- Behind a digit no attribute starts. -/
theorem Scan.declarationAfter_of_isDigit (s : Scan) {b : UInt8} (h : isDigit b = true) :
    s.declarationAfter b = false := by
  rw [declarationAfter, isBlank_of_isDigit h, if_neg Bool.false_ne_true]
  simp only [Bool.or_eq_false_iff, beq_eq_false_iff_ne]
  refine ⟨⟨⟨?_, ?_⟩, ?_⟩, ?_⟩ <;> exact ne_of_class h rfl

namespace Outline

open Cursor Scan

variable {s : Scan} {c d : Cursor}

theorem ofScan_digits {bytes : List UInt8} (h : s.cursor.Spells bytes d)
    (hb : ∀ b ∈ bytes, isDigit b = true) (hs : s.atDeclaration = false) :
    ofScan s = ofScan (s.moved d false) := by
  induction bytes generalizing s with
  | nil =>
    obtain rfl : d = s.cursor := h.advance_eq
    rw [← hs]
    rfl
  | cons b rest ih =>
    obtain ⟨e, hdigit, hrest⟩ := spells_cons.1 h
    obtain ⟨hb, hmore⟩ := List.forall_mem_cons.1 hb
    rw [ofScan_mark hdigit (isMark_of_isDigit hb) fun _ => hs, s.declarationAfter_of_isDigit hb]
    exact ih (s := s.moved e false) hrest hmore rfl

/-- The bracket that closes a subscript lets an attribute follow. -/
theorem ofScan_subscript {length : String} (hlength : IsDecimal length)
    (h : s.cursor.Spells (encode (ArrayDeclaration.subscript length)) d)
    (hs : s.atDeclaration = false) : ofScan s = ofScan (s.moved d true) := by
  rw [ArrayDeclaration.encode_subscript] at h
  obtain ⟨c₁, hopen, h⟩ := spells_append.1 h
  obtain ⟨c₂, hdigits, hclose⟩ := spells_append.1 h
  calc ofScan s
    _ = ofScan (s.moved c₁ false) := ofScan_mark hopen rfl fun _ => hs
    _ = ofScan (s.moved c₂ false) := ofScan_digits (s := s.moved c₁ false) hdigits hlength.2 rfl
    _ = ofScan (s.moved d true) := ofScan_mark (s := s.moved c₂ false) hclose rfl nofun

/-- What comes in front of the lengths of an array is passed over. -/
theorem ofScan_front (a : ArrayDeclaration) (h : s.cursor.Spells (encode a.front) c)
    (hc : c.peek = some openBracket) : ofScan s = ofScan (s.moved c false) := by
  rw [a.encode_front] at h
  obtain ⟨c₁, hstatic, h⟩ := spells_append.1 h
  obtain ⟨c₂, hconst, h⟩ := spells_append.1 h
  obtain ⟨c₃, htype, hname⟩ := spells_append.1 h
  obtain ⟨e₂, hword₂, -⟩ := spells_append.1 hconst
  obtain ⟨e₃, hword₃, -⟩ := spells_append.1 htype
  have hbody : Function.bodyStart? c₃ c = none := by
    refine Function.bodyStart?_eq_none ?_
    rw [skipTrivia_of_peek hc rfl (by decide), hc]
    decide
  calc ofScan s
    _ = ofScan (s.moved c₁ false) := ofScan_word_space hstatic
      ⟨by decide +kernel, rfl, by decide, by decide⟩ hword₂ (by decide +kernel)
    _ = ofScan (s.moved c₂ false) := ofScan_word_space (s := s.moved c₁ false) hconst
      ⟨by decide +kernel, rfl, by decide, by decide⟩ hword₃ a.type_plain.identifier
    _ = ofScan (s.moved c₃ false) := ofScan_word_space (s := s.moved c₂ false) htype a.type_plain
      hname a.name_plain.identifier
    _ = ofScan (s.moved c false) := ofScan_word (s := s.moved c₃ false) hname a.name_plain
      (clear_of_peek hc rfl) hbody

/-- A bracket where a declaration may start needs a word behind it. -/
theorem ofScan_bracket_digit {b : UInt8} (h : s.cursor.Spells [openBracket] c)
    (hs : s.atDeclaration = true) (hc : c.peek = some b) (hb : isDigit b = true) :
    ofScan s = ⟨[], some (.at c.location (.expected .attributeName))⟩ := by
  have hskip : (s.cursor.advance 1).skipInline = c := by
    have hclear : c.Clear isInlineBlank :=
      clear_of_peek hc (isInlineBlank_of_isBlank (isBlank_of_isDigit hb))
    rw [← hclear.skipWhile_eq, h.advance_eq]
    rfl
  have hread : Attribute.read s.cursor = .error (.at c.location (.expected .attributeName)) := by
    have hkind : Attribute.readKind c = .error (.at c.location (.expected .attributeName)) := by
      rw [Attribute.readKind, identifier_of_peek hc (isIdentifierStart_of_isDigit hb)]
      dsimp only
      rw [failure_of_peek hc]
      rfl
    rw [Attribute.read, hskip, hkind]
    rfl
  have hstep : s.step openBracket = ⟨[], .error (.at c.location (.expected .attributeName))⟩ := by
    rw [step, if_neg (not_atComment_of_spells h (by decide)), if_neg (by decide),
      if_neg (by decide), if_pos ⟨rfl, hs⟩, bracket]
    dsimp only
    rw [hread]
  rw [ofScan_of_error h.peek_eq hstep]

/-- Behind the first length of an array a declaration may start. -/
theorem ofText_array (a : ArrayDeclaration) {first : String} {more : List String}
    (h : a.lengths = first :: more) :
    ∃ c, (Cursor.ofText a.text).Spells (encode (a.front ++ ArrayDeclaration.subscript first)) c ∧
      c.rest = encode (String.join (more.map ArrayDeclaration.subscript)) ++ [semicolon] ∧
      ofText a.text = ofScan ⟨c, [], true⟩ := by
  have hrest : (Cursor.ofText a.text).rest =
      (encode a.front ++ encode (ArrayDeclaration.subscript first)) ++
        (encode (String.join (more.map ArrayDeclaration.subscript)) ++ [semicolon]) := by
    simp only [Cursor.ofText, ofBytes, ArrayDeclaration.text, h, List.map_cons, String.join_cons,
      encode_append, List.append_assoc]
    rfl
  obtain ⟨c, hspells, hc⟩ := exists_spells _ hrest
  obtain ⟨e, hfront, hsubscript⟩ := spells_append.1 hspells
  have hpeek : e.peek = some openBracket := by
    rw [ArrayDeclaration.encode_subscript] at hsubscript
    exact hsubscript.peek_eq
  have hfirst : IsDecimal first := a.decimal first (h ▸ List.mem_cons_self)
  refine ⟨c, by rwa [encode_append], hc, ?_⟩
  calc ofText a.text
    _ = ofScan ⟨e, [], false⟩ := ofScan_front (s := .ofText a.text) a hfront hpeek
    _ = ofScan ⟨c, [], true⟩ := ofScan_subscript (s := ⟨e, [], false⟩) hfirst hsubscript rfl

theorem ofText_single (a : ArrayDeclaration) {first : String} (h : a.lengths = [first]) :
    ofText a.text = ⟨[], none⟩ := by
  obtain ⟨c, -, hc, houtline⟩ := ofText_array a h
  obtain ⟨e, hsemicolon, he⟩ := exists_spells [semicolon] (hc.trans (List.append_nil _).symm)
  have hend : (Scan.declared e).cursor.peek = none := by
    rw [Scan.declared, peek, he]
    rfl
  rw [houtline, ofScan_mark (s := ⟨c, [], true⟩) hsemicolon rfl fun h => absurd h (by decide)]
  exact ofScan_of_end hend

theorem ofText_several (a : ArrayDeclaration) {first second : String} {more : List String}
    (h : a.lengths = first :: second :: more) :
    ofText a.text = ⟨[], some (.at (a.secondPlace first) (.expected .attributeName))⟩ := by
  obtain ⟨c, hspells, hc, houtline⟩ := ofText_array a h
  obtain ⟨hne, hdigits⟩ := a.decimal second (h ▸ by simp)
  obtain ⟨b, digits, hsecond⟩ := List.exists_cons_of_ne_nil hne
  rw [List.map_cons, String.join_cons, encode_append, ArrayDeclaration.encode_subscript,
    List.append_assoc, List.append_assoc] at hc
  obtain ⟨e, hopen, he⟩ := exists_spells _ hc
  have hpeek : e.peek = some b := by
    rw [peek, he, hsecond]
    rfl
  have hplace : e.location = a.secondPlace first := by
    rw [(spells_append.2 ⟨c, hspells, hopen⟩).location_eq, ArrayDeclaration.secondPlace,
      ← length_encode, encode_append]
    rfl
  rw [houtline, ← hplace]
  exact ofScan_bracket_digit hopen rfl hpeek (hdigits b (hsecond ▸ List.mem_cons_self))

end Outline

namespace Shader

/-- How a constant array is read. -/
structure ReadsArray (includes : Includes) (file : String) (a : ArrayDeclaration) : Prop where
  unchanged_iff : ofSource includes file a.text = .ok (unchanged a.text) ↔ a.lengths.length = 1
  rejected : ∀ first second more, a.lengths = first :: second :: more →
    ofSource includes file a.text =
      .error (.rejected ⟨file, .point (a.secondPlace first), .expected .attributeName⟩)

theorem readsArray_ofSource (includes : Includes) (file : String) (a : ArrayDeclaration) :
    ReadsArray includes file a where
  unchanged_iff := by
    match hlengths : a.lengths with
    | [] => exact absurd hlengths a.lengths_ne_nil
    | [first] => exact iff_of_true (ofSource_eq_unchanged (Outline.ofText_single a hlengths)) rfl
    | first :: second :: more =>
      rw [ofSource_eq_failure (Outline.ofText_several a hlengths)]
      exact ⟨nofun, nofun⟩
  rejected := fun _ _ _ hlengths => ofSource_eq_failure (Outline.ofText_several a hlengths)

/-- A constant array with two lengths is rejected at the digit behind the second bracket. -/
theorem second_length_rejected :
    ∃ a : ArrayDeclaration, a.text = "static const float a[2][3];" ∧
      ofSource (.ofFiles []) "f.hlsl" a.text =
        .error (.rejected ⟨"f.hlsl", .point ⟨1, 25⟩, .expected .attributeName⟩) := by
  refine ⟨⟨"float", "a", ["2", "3"], ⟨?_, rfl, ?_, ?_⟩, ⟨?_, rfl, ?_, ?_⟩, ?_, ?_⟩, ?_, ?_⟩
  all_goals decide +kernel

end Shader

end BindlessHlsl
