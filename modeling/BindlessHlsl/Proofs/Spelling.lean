import BindlessHlsl.Proofs.Nesting
import BindlessHlsl.Proofs.ScanSteps

/-!
Reading back what was written. If the bytes between two cursors spell a word, a quoted text or a
byte (`Cursor.Spells`), the reader for it gets from the first cursor to the second. What a cursor
has in front of it can so be split into the parts that were put together, and each reader takes its
part.
-/

namespace BindlessHlsl

open Ascii Utf8

theorem Ascii.eq_of_isBlank {b : UInt8} (h : isBlank b = true) :
    b = space ∨ b = tab ∨ b = carriageReturn ∨ b = newline ∨ b = formFeed := by
  simpa [isBlank, isInlineBlank, or_assoc] using h

/-- The text can stand between double quotes on one line. -/
def Quotable (text : String) : Prop := ∀ c ∈ text.toList, c ≠ '"' ∧ c ≠ '\n'

/-- A byte below 128 in a text is a character of it. -/
theorem Utf8.mem_toList_of_mem_encode {text : String} {b : UInt8} {c : Char}
    (hb : b ∈ encode text) (hc : String.utf8EncodeChar c = [b]) (ha : isAscii b = true) :
    c ∈ text.toList := by
  rw [encode_eq_encodeChars] at hb
  obtain ⟨offset, hlt, ho⟩ := List.getElem_of_mem hb
  obtain ⟨front, d, back, hd, -, hbytes⟩ :=
    exists_char_of_ascii (List.getElem?_eq_some_iff.2 ⟨hlt, ho⟩) ha
  have heq : String.ofList [c] = String.ofList [d] := by
    apply encode_injective
    rw [encode_ofList, encode_ofList, encodeChars_cons, encodeChars_cons, hc, hbytes]
  have hcd : [c] = [d] := by simpa using congrArg String.toList heq
  rw [hd, List.singleton_inj.1 hcd]
  simp

theorem Quotable.forall_mem_encode {text : String} (h : Quotable text) :
    ∀ b ∈ encode text, b ≠ doubleQuote ∧ b ≠ newline := by
  intro b hb
  constructor
  · rintro rfl
    exact (h '"' (mem_toList_of_mem_encode hb rfl rfl)).1 rfl
  · rintro rfl
    exact (h '\n' (mem_toList_of_mem_encode hb rfl rfl)).2 rfl

namespace Cursor

/-- The bytes between two cursors of one text. -/
structure Spells (c : Cursor) (bytes : List UInt8) (d : Cursor) : Prop where
  rest_eq : c.rest = bytes ++ d.rest
  advance_eq : d = c.advance bytes.length

variable {c d e : Cursor} {bytes more : List UInt8} {b : UInt8} {word text : String}

theorem exists_spells (bytes : List UInt8) (h : c.rest = bytes ++ more) :
    ∃ d, c.Spells bytes d ∧ d.rest = more := by
  have hr : (c.advance bytes.length).rest = more := by simp [h]
  exact ⟨c.advance bytes.length, ⟨by rw [hr, h], rfl⟩, hr⟩

theorem spells_append :
    c.Spells (bytes ++ more) e ↔ ∃ d, c.Spells bytes d ∧ d.Spells more e := by
  constructor
  · intro h
    obtain ⟨d, hd, hr⟩ := exists_spells bytes (h.rest_eq.trans (List.append_assoc ..))
    refine ⟨d, hd, hr, ?_⟩
    rw [h.advance_eq, hd.advance_eq, advance_advance, List.length_append]
  · rintro ⟨d, hd, he⟩
    refine ⟨by rw [hd.rest_eq, he.rest_eq, List.append_assoc], ?_⟩
    rw [he.advance_eq, hd.advance_eq, advance_advance, List.length_append]

theorem spells_cons : c.Spells (b :: bytes) e ↔ ∃ d, c.Spells [b] d ∧ d.Spells bytes e := by
  rw [← spells_append, List.singleton_append]

theorem Spells.peek_eq (h : c.Spells (b :: bytes) d) : c.peek = some b := by
  rw [peek, h.rest_eq]
  rfl

theorem Spells.peek_identifier (h : c.Spells (encode word) d) (hw : IsIdentifier word) :
    ∃ b, c.peek = some b ∧ isIdentifierStart b = true := by
  obtain ⟨b, rest, hb, hs, -⟩ := hw
  rw [hb] at h
  exact ⟨b, h.peek_eq, hs⟩

/-! ## Single bytes and blanks -/

theorem Spells.eat?_eq (h : c.Spells [b] d) : c.eat? b = some d := by
  rw [eat?, if_pos h.peek_eq, h.advance_eq]
  rfl

theorem Spells.expectByte_eq (h : c.Spells [b] d) (what : Expectation) :
    c.expectByte b what = .ok d := by
  rw [expectByte, h.eat?_eq]

/-- No byte of a class comes next. -/
def Clear (p : UInt8 → Bool) (c : Cursor) : Prop := ∀ b, c.peek = some b → p b = false

variable {p : UInt8 → Bool}

theorem clear_of_peek (h : c.peek = some b) (hb : p b = false) : c.Clear p := by
  intro d hd
  rw [h] at hd
  cases hd
  exact hb

theorem Clear.takeWhile_eq (h : c.Clear p) : c.rest.takeWhile p = [] := by
  cases hr : c.rest with
  | nil => rfl
  | cons b rest => simp [h b (by simp [peek, hr])]

theorem Clear.skipWhile_eq (h : c.Clear p) : c.skipWhile p = c := by
  rw [skipWhile, h.takeWhile_eq]
  rfl

/-- A class is passed over up to the first byte that is not of it. -/
theorem Spells.takeWhile_eq (h : c.Spells bytes d) (hp : ∀ b ∈ bytes, p b = true)
    (hd : d.Clear p) : c.rest.takeWhile p = bytes := by
  rw [h.rest_eq, List.takeWhile_append_of_pos hp, hd.takeWhile_eq, List.append_nil]

theorem Spells.skipWhile_eq (h : c.Spells bytes d) (hp : ∀ b ∈ bytes, p b = true)
    (hd : d.Clear p) : c.skipWhile p = d := by
  rw [skipWhile, h.takeWhile_eq hp hd, h.advance_eq]

theorem Spells.skipInline_eq (h : c.Spells [space] d) (hd : d.Clear isInlineBlank) :
    c.skipInline = d :=
  h.skipWhile_eq (by simp [isInlineBlank]) hd

/-- An identifier byte is no blank. -/
theorem isBlank_of_isIdentifierStart (h : isIdentifierStart b = true) : isBlank b = false := by
  simp only [isIdentifierStart, isLetter, underscore, Bool.or_eq_true, Bool.and_eq_true,
    decide_eq_true_eq, beq_iff_eq, UInt8.le_iff_toNat_le, ← UInt8.toNat_inj,
    UInt8.reduceToNat] at h
  simp only [isBlank, isInlineBlank, space, tab, carriageReturn, newline, formFeed,
    Bool.or_eq_false_iff, beq_eq_false_iff_ne, ne_eq, ← UInt8.toNat_inj, UInt8.reduceToNat]
  omega

theorem isInlineBlank_of_isBlank (h : isBlank b = false) : isInlineBlank b = false := by
  simp only [isBlank, Bool.or_eq_false_iff] at h
  exact h.1.1

theorem Spells.clear_blank (h : c.Spells (encode word) d) (hw : IsIdentifier word) :
    c.Clear isBlank := by
  obtain ⟨b, hb, hs⟩ := h.peek_identifier hw
  exact clear_of_peek hb (isBlank_of_isIdentifierStart hs)

theorem Clear.inline (h : c.Clear isBlank) : c.Clear isInlineBlank :=
  fun b hb => isInlineBlank_of_isBlank (h b hb)

/-! ## Words -/

/-- An identifier that no further identifier byte follows is read whole. -/
theorem Spells.identifier_eq (h : c.Spells (encode word) d) (hw : IsIdentifier word)
    (hd : d.Clear isIdentifierContinue) : c.identifier = (word, d) := by
  have hn : Lexeme.identifier c.rest = (encode word).length := by
    obtain ⟨b, rest, hb, hs, hr⟩ := hw
    rw [h.rest_eq, hb, List.cons_append, Lexeme.identifier, if_pos hs,
      List.takeWhile_append_of_pos hr, hd.takeWhile_eq]
    simp [Nat.add_comm]
  rw [identifier, hn, upcoming, h.rest_eq, List.take_left, decode_encode, h.advance_eq]

theorem Spells.expectIdentifier_eq (h : c.Spells (encode word) d) (hw : IsIdentifier word)
    (hd : d.Clear isIdentifierContinue) (what : Expectation) :
    c.expectIdentifier what = .ok (word, d) := by
  have hne : word ≠ "" := by
    rintro rfl
    exact hw.encode_ne_nil rfl
  rw [expectIdentifier, h.identifier_eq hw hd, if_neg hne]

/-- Where an identifier starts, no other byte does. -/
theorem Spells.peek_ne (h : c.Spells (encode word) d) (hw : IsIdentifier word)
    (hb : isIdentifierStart b = false) : c.peek ≠ some b := by
  obtain ⟨b', hpeek, hstart⟩ := h.peek_identifier hw
  rintro hb'
  obtain rfl := Option.some.inj (hpeek.symm.trans hb')
  rw [hb] at hstart
  cases hstart

theorem Spells.eat?_eq_none (h : c.Spells (encode word) d) (hw : IsIdentifier word)
    (hb : isIdentifierStart b = false) : c.eat? b = none := by
  rw [eat?, if_neg (h.peek_ne hw hb)]

/-! ## Quoted texts -/

/-- A text between two quotes that are the same. -/
theorem Spells.quoted_between {q : UInt8} (hq : q = doubleQuote ∨ q = singleQuote)
    (h : c.Spells (q :: encode text ++ [q]) d)
    (ht : ∀ b ∈ encode text, b ≠ q ∧ b ≠ newline) : c.quoted = (.text text, d) := by
  have hbody : (encode text ++ q :: d.rest).takeWhile (fun b => b != q && b != newline) =
      encode text := by
    rw [List.takeWhile_append_of_pos]
    · simp
    · intro b hb
      simp [ht b hb]
  have hr : c.rest = q :: (encode text ++ q :: d.rest) := by
    simpa using h.rest_eq
  rw [quoted, hr]
  dsimp only
  rw [if_pos hq, hbody, if_pos (by simp), decode_encode, h.advance_eq]
  simp

theorem Spells.quoted_eq (h : c.Spells (doubleQuote :: encode text ++ [doubleQuote]) d)
    (ht : Quotable text) : c.quoted = (.text text, d) :=
  h.quoted_between (.inl rfl) ht.forall_mem_encode

theorem Spells.value_eq (h : c.Spells (doubleQuote :: encode text ++ [doubleQuote]) d)
    (ht : Quotable text) : c.value = (.text text, d) := by
  rw [value, h.quoted_eq ht]

theorem Spells.expectValue_eq (h : c.Spells (doubleQuote :: encode text ++ [doubleQuote]) d)
    (ht : Quotable text) (what : Expectation) : c.expectValue what = .ok (text, d) := by
  rw [expectValue, h.value_eq ht]

/-- A quoted text may follow after a space. -/
theorem Spells.expectQuoted_eq
    (h : c.Spells (space :: doubleQuote :: encode text ++ [doubleQuote]) d) (ht : Quotable text)
    (what : Expectation) : c.expectQuoted what = .ok (text, d) := by
  obtain ⟨e, hs, hq⟩ := spells_cons.1 h
  rw [expectQuoted, hs.skipInline_eq (clear_of_peek hq.peek_eq rfl), hq.quoted_eq ht]

/-! ## Line ends -/

/-- The logical line ends here. -/
def AtLineEnd (c : Cursor) : Prop := ∀ b, c.peek = some b → b = newline

theorem AtLineEnd.skipLine_eq (h : c.AtLineEnd) : c.skipLine = c := by
  have hn : Lexeme.line c.rest = 0 := by
    cases hr : c.rest with
    | nil => rfl
    | cons b rest =>
      rw [h b (by simp [peek, hr])]
      rfl
  rw [skipLine, hn]
  rfl

end Cursor

namespace Scan

open Cursor

variable {s : Scan} {c d : Cursor} {text : String}

/-- A directive with a word that a space follows. -/
theorem directive_word {word : String}
    (h : s.cursor.Spells (hash :: encode word) c) (hw : IsIdentifier word)
    (hc : c.Clear isIdentifierContinue) :
    ((s.cursor.advance 1).skipInline.identifier) = (word, c) := by
  obtain ⟨e, hh, he⟩ := spells_cons.1 h
  have ha : s.cursor.advance 1 = e := hh.advance_eq.symm
  have hi : e.skipInline = e := (he.clear_blank hw).inline.skipWhile_eq
  rw [ha, hi, he.identifier_eq hw hc]

theorem not_atComment_of_spells {b : UInt8} {bytes : List UInt8}
    (h : s.cursor.Spells (b :: bytes) c) (hb : b ≠ slash) : ¬s.cursor.atComment = true :=
  not_atComment_of_peek h.peek_eq hb

/-- The directive that includes a file, as it is written. -/
theorem step_inclusion (h : s.cursor.Spells (encode ("#include \"" ++ text ++ "\"")) d)
    (ht : Quotable text) (hd : d.AtLineEnd) :
    s.step hash = ⟨[.inclusion text s.cursor.location], .ok (s.moved d true)⟩ := by
  have hsplit : encode ("#include \"" ++ text ++ "\"") =
      (hash :: encode "include") ++ (space :: doubleQuote :: encode text ++ [doubleQuote]) := by
    simp only [encode_append]
    rfl
  rw [hsplit] at h
  obtain ⟨c, hw, hq⟩ := spells_append.1 h
  have hword := directive_word hw (by decide +kernel) (clear_of_peek hq.peek_eq rfl)
  rw [step, if_neg (not_atComment_of_spells hw (by decide)), if_neg (by decide), if_pos rfl,
    directive, hword]
  dsimp only
  rw [if_pos rfl, inclusion, hq.expectQuoted_eq ht]
  dsimp only
  rw [hd.skipLine_eq]

/-- A byte that begins no comment, string, directive or word. -/
def isMark (b : UInt8) : Bool :=
  b != slash && b != doubleQuote && b != hash && !isIdentifierStart b

/-- Such a byte is passed over, unless it is a bracket that starts an attribute. -/
theorem step_mark {b : UInt8} (h : s.cursor.Spells [b] d) (hb : isMark b = true)
    (hs : b = openBracket → s.atDeclaration = false) :
    s.step b = ⟨[], .ok (s.moved d (s.declarationAfter b))⟩ := by
  simp only [isMark, Bool.and_eq_true, bne_iff_ne, Bool.not_eq_true'] at hb
  obtain ⟨⟨⟨hslash, hquote⟩, hhash⟩, hstart⟩ := hb
  have hbracket : ¬(b = openBracket ∧ s.atDeclaration = true) := by
    rintro ⟨hb, ht⟩
    rw [hs hb] at ht
    cases ht
  rw [step, if_neg (not_atComment_of_spells h hslash), if_neg hquote, if_neg hhash,
    if_neg hbracket, if_neg (by rw [hstart]; exact Bool.false_ne_true), h.advance_eq]
  rfl

/-- A blank changes nothing. -/
theorem step_blank {b : UInt8} (h : s.cursor.Spells [b] d) (hb : isBlank b = true) :
    s.step b = ⟨[], .ok (s.moved d s.atDeclaration)⟩ := by
  have hcases := eq_of_isBlank hb
  have hmark : isMark b = true := by
    rcases hcases with rfl | rfl | rfl | rfl | rfl <;> rfl
  have hne : b ≠ openBracket := by
    rcases hcases with rfl | rfl | rfl | rfl | rfl <;> decide
  rw [step_mark h hmark fun he => absurd he hne, declarationAfter, if_pos hb]

end Scan

namespace Outline

open Cursor

variable {s : Scan} {d : Cursor}

@[simp] theorem after_nil (o : Outline) : o.after [] = o := rfl

theorem ofScan_mark {b : UInt8} (h : s.cursor.Spells [b] d) (hb : Scan.isMark b = true)
    (hs : b = openBracket → s.atDeclaration = false) :
    ofScan s = ofScan (s.moved d (s.declarationAfter b)) := by
  rw [ofScan_of_ok h.peek_eq (Scan.step_mark h hb hs), after_nil]

theorem ofScan_blank {b : UInt8} (h : s.cursor.Spells [b] d) (hb : isBlank b = true) :
    ofScan s = ofScan (s.moved d s.atDeclaration) := by
  rw [ofScan_of_ok h.peek_eq (Scan.step_blank h hb), after_nil]

end Outline

end BindlessHlsl
