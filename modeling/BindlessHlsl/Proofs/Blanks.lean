import BindlessHlsl.Proofs.OrdinaryText
import BindlessHlsl.Proofs.TypeNames

/-!
Words with blanks between them. Blanks are passed over up to the next word or mark
(`Cursor.Spells.skipTrivia_gap`), a word ends where they start, and trimming a text takes them off
its ends (`trimRight_append_gap`, `Padded.trim_eq`).
-/

namespace BindlessHlsl

open Ascii Utf8

/-! ## Blanks and words -/

/-- A text of blanks. -/
def IsGap (text : String) : Prop := ∀ b ∈ encode text, isBlank b = true

/-- What keeps two words apart. -/
def IsBreak (text : String) : Prop := IsGap text ∧ text ≠ ""

instance decidableIsGap : DecidablePred IsGap := fun text =>
  decidable_of_iff ((encode text).all isBlank = true) List.all_eq_true

instance decidableIsBreak : DecidablePred IsBreak := fun text =>
  inferInstanceAs (Decidable (IsGap text ∧ text ≠ ""))

/-- A text of bytes that can be part of a word. -/
def IsWord (text : String) : Prop :=
  encode text ≠ [] ∧ ∀ b ∈ encode text, isIdentifierContinue b = true

theorem IsIdentifier.isWord {word : String} (h : IsIdentifier word) : IsWord word :=
  ⟨h.encode_ne_nil, h.forall_mem⟩

theorem IsIdentifier.append {word more : String} (h : IsIdentifier word)
    (hm : ∀ b ∈ encode more, isIdentifierContinue b = true) : IsIdentifier (word ++ more) := by
  obtain ⟨b, rest, hb, hstart, hrest⟩ := h
  refine ⟨b, rest ++ encode more, ?_, hstart, List.forall_mem_append.2 ⟨hrest, hm⟩⟩
  rw [encode_append, hb, List.cons_append]

/-- The characters of a text are of a class if its bytes are. -/
theorem Utf8.exists_byte_of_mem {text : String} {p : UInt8 → Bool}
    (hp : ∀ b, p b = true → isAscii b = true) (h : ∀ b ∈ encode text, p b = true) {c : Char}
    (hc : c ∈ text.toList) : ∃ b, p b = true ∧ c.toNat = b.toNat := by
  obtain ⟨b, hb⟩ : ∃ b, b ∈ String.utf8EncodeChar c := by
    refine List.exists_mem_of_ne_nil _ (List.ne_nil_of_length_pos ?_)
    rw [String.length_utf8EncodeChar]
    exact c.utf8Size_pos
  have hpb : p b = true := by
    refine h b ?_
    rw [encode_eq_encodeChars, encodeChars]
    exact List.mem_flatMap.2 ⟨c, hc, hb⟩
  exact ⟨b, hpb, toNat_of_utf8EncodeChar (utf8EncodeChar_eq_of_ascii hb (hp b hpb))⟩

theorem Utf8.not_mem_toList {text : String} {c : Char} {b : UInt8}
    (hc : String.utf8EncodeChar c = [b]) (h : b ∉ encode text) : c ∉ text.toList := by
  intro hmem
  refine h ?_
  rw [encode_eq_encodeChars, encodeChars]
  exact List.mem_flatMap.2 ⟨c, hmem, by rw [hc]; exact List.mem_singleton_self b⟩

/-- A class that has no blank. -/
theorem Ascii.not_of_isBlank {p : UInt8 → Bool}
    (hp : [space, tab, carriageReturn, newline, formFeed].all (fun b => !p b) = true) {b : UInt8}
    (h : isBlank b = true) : p b = false := by
  simpa using List.all_eq_true.1 hp b (by simpa using eq_of_isBlank h)

theorem Ascii.isIdentifierContinue_of_isBlank {b : UInt8} (h : isBlank b = true) :
    isIdentifierContinue b = false :=
  not_of_isBlank rfl h

theorem IsGap.isWhiteSpace {gap : String} (h : IsGap gap) :
    ∀ c ∈ gap.toList, isWhiteSpace c = true := by
  intro c hc
  have hascii : ∀ b, isBlank b = true → isAscii b = true := by
    intro b hb
    rcases eq_of_isBlank hb with rfl | rfl | rfl | rfl | rfl <;> rfl
  obtain ⟨b, hb, hcode⟩ := exists_byte_of_mem hascii h hc
  simp only [BindlessHlsl.isWhiteSpace, hcode]
  rcases eq_of_isBlank hb with rfl | rfl | rfl | rfl | rfl <;> rfl

theorem IsWord.not_isWhiteSpace {word : String} (h : IsWord word) :
    ∀ c ∈ word.toList, isWhiteSpace c = false := by
  intro c hc
  obtain ⟨b, hb, hcode⟩ :=
    exists_byte_of_mem (fun _ => Cursor.isAscii_of_isIdentifierContinue) h.2 hc
  simp only [isIdentifierContinue, isIdentifierStart, isLetter, isDigit, underscore,
    Bool.or_eq_true, Bool.and_eq_true, decide_eq_true_eq, beq_iff_eq, UInt8.le_iff_toNat_le,
    ← UInt8.toNat_inj, UInt8.reduceToNat] at hb
  simp only [isWhiteSpace, hcode, Bool.or_eq_false_iff, Bool.and_eq_false_iff,
    decide_eq_false_iff_not, beq_eq_false_iff_ne]
  omega

theorem IsWord.toList_ne_nil {word : String} (h : IsWord word) : word.toList ≠ [] := by
  intro he
  exact h.1 (by rw [encode_eq_encodeChars, he]; rfl)

/-- The bytes of a text are of a class if its characters are. -/
theorem Utf8.forall_mem_encode {text : String} {p : UInt8 → Bool} (h : ∀ c ∈ text.toList,
    c.toNat < 128 ∧ ∀ b : UInt8, b.toNat = c.toNat → p b = true) :
    ∀ b ∈ encode text, p b = true := by
  intro b hb
  rw [encode_eq_encodeChars, encodeChars] at hb
  obtain ⟨c, hc, hb⟩ := List.mem_flatMap.1 hb
  obtain ⟨hlow, hclass⟩ := h c hc
  have hsize : c.utf8Size = 1 := by
    rw [Char.utf8Size_eq_one_iff, UInt32.le_iff_toNat_le]
    exact Nat.le_of_lt_succ hlow
  rw [String.utf8EncodeChar_eq_singleton hsize] at hb
  have hcode := toNat_of_utf8EncodeChar (String.utf8EncodeChar_eq_singleton hsize)
  rw [← List.mem_singleton.1 hb] at hcode
  exact hclass b hcode.symm

/-- The digits of a number are a word. -/
theorem Word.IsNumeral.isWord {text : String} {n : Nat} (h : IsNumeral text n) : IsWord text := by
  have hbytes : ∀ b ∈ encode text, isIdentifierContinue b = true := by
    refine forall_mem_encode fun c hc => ?_
    obtain ⟨hlow, hhigh⟩ := Char.isDigit_iff_toNat.1 (h.isDigit c hc)
    refine ⟨Nat.lt_of_le_of_lt hhigh (by decide), fun b hb => ?_⟩
    have hdigit : Ascii.isDigit b = true := by
      simp only [Ascii.isDigit, Bool.and_eq_true, decide_eq_true_eq, UInt8.le_iff_toNat_le, hb]
      exact ⟨hlow, hhigh⟩
    simp [isIdentifierContinue, hdigit]
  refine ⟨fun he => h.toList_ne_nil ?_, hbytes⟩
  rw [encode_injective (he.trans (show [] = encode "" from rfl))]
  rfl

/-! ## Texts without white space at their ends -/

/-- A text that ends with something else than white space. -/
def EndsDark (text : String) : Prop :=
  ∃ front last, text.toList = front ++ [last] ∧ isWhiteSpace last = false

theorem EndsDark.append {text : String} (h : EndsDark text) (front : String) :
    EndsDark (front ++ text) := by
  obtain ⟨chars, last, htext, hlast⟩ := h
  exact ⟨front.toList ++ chars, last, by rw [String.toList_append, htext, List.append_assoc], hlast⟩

theorem IsWord.endsDark {word : String} (h : IsWord word) : EndsDark word := by
  obtain ⟨front, last, hconcat⟩ := (List.eq_nil_or_concat' _).resolve_left h.toList_ne_nil
  exact ⟨front, last, hconcat, h.not_isWhiteSpace last (by rw [hconcat]; simp)⟩

theorem trimRight_append_gap {text gap : String} (h : EndsDark text) (hg : IsGap gap) :
    trimRight (text.toList ++ gap.toList) = text.toList := by
  obtain ⟨front, last, htext, hlast⟩ := h
  have hgap : ∀ c ∈ gap.toList.reverse, isWhiteSpace c = true :=
    fun c hc => hg.isWhiteSpace c (List.mem_reverse.1 hc)
  have hreverse : text.toList.reverse = last :: front.reverse := by
    rw [htext, List.reverse_concat]
  rw [trimRight, List.reverse_append, List.dropWhile_append_of_pos hgap, hreverse,
    List.dropWhile_cons_of_neg (by rw [hlast]; exact Bool.false_ne_true), ← hreverse,
    List.reverse_reverse]

/-- A word with blanks around it. -/
def Padded (text word : String) : Prop :=
  ∃ gap gap', IsGap gap ∧ IsGap gap' ∧ text = gap ++ (word ++ gap')

theorem Padded.trim_eq {text word : String} (h : Padded text word) (hw : IsWord word) :
    trim text.toList = word.toList := by
  obtain ⟨gap, gap', hg, hg', rfl⟩ := h
  obtain ⟨first, rest, hcons⟩ := List.exists_cons_of_ne_nil hw.toList_ne_nil
  have hfirst : ¬isWhiteSpace first = true := by
    rw [hw.not_isWhiteSpace first (by rw [hcons]; exact List.mem_cons_self)]
    exact Bool.false_ne_true
  have hdrop : (word.toList ++ gap'.toList).dropWhile isWhiteSpace =
      word.toList ++ gap'.toList := by
    rw [hcons, List.cons_append, List.dropWhile_cons_of_neg hfirst]
  rw [trim, String.toList_append, String.toList_append,
    List.dropWhile_append_of_pos hg.isWhiteSpace, hdrop, trimRight_append_gap hw.endsDark hg']

theorem Padded.forall_mem {text word : String} {p : UInt8 → Prop} (h : Padded text word)
    (hw : IsWord word) (hblank : ∀ b, isBlank b = true → p b)
    (hword : ∀ b, isIdentifierContinue b = true → p b) : ∀ b ∈ encode text, p b := by
  obtain ⟨gap, gap', hg, hg', rfl⟩ := h
  intro b hb
  simp only [encode_append, List.mem_append] at hb
  rcases hb with hb | hb | hb
  · exact hblank b (hg b hb)
  · exact hword b (hw.2 b hb)
  · exact hblank b (hg' b hb)

/-! ## Cursors at blanks and words -/

namespace Cursor

variable {c d e : Cursor} {gap text word : String} {bytes : List UInt8} {b : UInt8}
  {p : UInt8 → Bool}

theorem spells_encode_append {more : String} : c.Spells (encode (text ++ more)) e ↔
    ∃ d, c.Spells (encode text) d ∧ d.Spells (encode more) e := by
  rw [encode_append, spells_append]

theorem Spells.pos_add (h : c.Spells bytes d) : d.pos = c.pos + bytes.length := by
  have hle : bytes.length ≤ c.rest.length := by
    rw [h.rest_eq, List.length_append]
    exact Nat.le_add_right ..
  rw [h.advance_eq, pos_advance, Nat.min_eq_left hle]

theorem Spells.upcoming_eq (h : c.Spells (encode text) d) :
    c.upcoming (encode text).length = text := by
  rw [upcoming, h.rest_eq, List.take_left, decode_encode]

theorem Spells.textUntil_eq (h : c.Spells (encode text) d) : c.textUntil d = text := by
  rw [textUntil, h.pos_add, Nat.add_sub_cancel_left, h.upcoming_eq]

/-- A word starts here. -/
def AtWord (c : Cursor) : Prop := ∃ b, c.peek = some b ∧ isIdentifierStart b = true

theorem AtWord.skipTrivia_eq (h : c.AtWord) : c.skipTrivia = c := by
  obtain ⟨b, hb, hs⟩ := h
  exact skipTrivia_of_peek hb (isBlank_of_isIdentifierStart hs) (ne_of_class hs rfl)

theorem AtWord.peek_ne (h : c.AtWord) (hb : isIdentifierStart b = false) : c.peek ≠ some b := by
  obtain ⟨b', hb', hs⟩ := h
  rw [hb']
  exact fun he => ne_of_class hs hb (Option.some.inj he)

theorem skipTrivia_of_blanks (h : c.Spells bytes d) (hb : ∀ b ∈ bytes, isBlank b = true) :
    c.skipTrivia = d.skipTrivia := by
  induction bytes generalizing c with
  | nil =>
    obtain rfl : d = c := h.advance_eq
    rfl
  | cons b bytes ih =>
    obtain ⟨e, hblank, hrest⟩ := spells_cons.1 h
    obtain ⟨hb, hbs⟩ := List.forall_mem_cons.1 hb
    rw [hblank.skipTrivia_blank hb, ih hrest hbs]

theorem Spells.skipTrivia_gap (h : c.Spells (encode gap) d) (hg : IsGap gap) :
    c.skipTrivia = d.skipTrivia :=
  skipTrivia_of_blanks h hg

/-- Blanks up to a mark. -/
theorem Spells.skipTrivia_mark (h : c.Spells (encode gap) d) (hg : IsGap gap)
    (hd : d.peek = some b) (hb : isBlank b = false) (hs : b ≠ slash) : c.skipTrivia = d := by
  rw [h.skipTrivia_gap hg, skipTrivia_of_peek hd hb hs]

theorem Spells.skipTrivia_isWord (h : c.Spells (encode gap) d) (hg : IsGap gap)
    (hd : d.Spells (encode word) e) (hw : IsWord word) : c.skipTrivia = d := by
  obtain ⟨b, bytes, hbytes⟩ := List.exists_cons_of_ne_nil hw.1
  have hb : isIdentifierContinue b = true := hw.2 b (by rw [hbytes]; exact List.mem_cons_self)
  rw [hbytes] at hd
  refine h.skipTrivia_mark hg hd.peek_eq (Bool.eq_false_iff.2 fun hblank => ?_)
    (ne_of_class hb rfl)
  rw [isIdentifierContinue_of_isBlank hblank] at hb
  cases hb

/-- Bytes of a value are read whole if no further one follows. -/
theorem Spells.valueToken_of_bytes (h : c.Spells (encode text) d)
    (hb : ∀ b ∈ encode text, isValueByte b = true) (hd : d.Clear isValueByte) :
    c.valueToken = (text, d) := by
  rw [valueToken, h.takeWhile_eq hb hd, h.upcoming_eq, ← h.advance_eq]

theorem Spells.valueToken_eq (h : c.Spells (encode word) d) (hw : IsWord word)
    (hd : d.Clear isValueByte) : c.valueToken = (word, d) := by
  refine h.valueToken_of_bytes (fun b hb => ?_) hd
  simp [isValueByte, hw.2 b hb]

theorem Spells.skipTrivia_atWord (h : c.Spells (encode gap) d) (hg : IsGap gap)
    (hd : d.AtWord) : c.skipTrivia = d := by
  rw [h.skipTrivia_gap hg, hd.skipTrivia_eq]

/-- No byte of a class without blanks comes before the blanks end. -/
theorem Spells.clear_gap (h : c.Spells (encode gap) d) (hg : IsGap gap)
    (hp : ∀ b, isBlank b = true → p b = false) (hd : d.Clear p) : c.Clear p := by
  cases hbytes : encode gap with
  | nil =>
    rw [hbytes] at h
    obtain rfl : d = c := h.advance_eq
    exact hd
  | cons b bytes =>
    have hb : isBlank b = true := hg b (by rw [hbytes]; exact List.mem_cons_self)
    rw [hbytes] at h
    exact clear_of_peek h.peek_eq (hp b hb)

theorem Spells.clear_break (h : c.Spells (encode gap) d) (hg : IsBreak gap)
    (hp : ∀ b, isBlank b = true → p b = false) : c.Clear p := by
  obtain ⟨hgap, hne⟩ := hg
  obtain ⟨b, bytes, hbytes⟩ : ∃ b bytes, encode gap = b :: bytes :=
    List.exists_cons_of_ne_nil fun he => hne (encode_injective he)
  have hb : isBlank b = true := hgap b (by rw [hbytes]; exact List.mem_cons_self)
  rw [hbytes] at h
  exact clear_of_peek h.peek_eq (hp b hb)

end Cursor

namespace Outline

/-- Blanks between declarations change nothing. -/
theorem ofScan_blanks {s : Scan} {d : Cursor} {bytes : List UInt8} (h : s.cursor.Spells bytes d)
    (hb : ∀ b ∈ bytes, isBlank b = true) : ofScan s = ofScan (s.moved d s.atDeclaration) := by
  induction bytes generalizing s with
  | nil =>
    obtain rfl : d = s.cursor := h.advance_eq
    rfl
  | cons b bytes ih =>
    obtain ⟨e, hblank, hrest⟩ := Cursor.spells_cons.1 h
    obtain ⟨hb, hbs⟩ := List.forall_mem_cons.1 hb
    rw [ofScan_blank hblank hb]
    exact ih (s := s.moved e s.atDeclaration) hrest hbs

end Outline

end BindlessHlsl
