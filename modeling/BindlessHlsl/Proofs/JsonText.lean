import BindlessHlsl.Json.Printer
import BindlessHlsl.Json.Reader

/-!
Written JSON is read back. What the two printers have in common is said by a grammar with blanks
between the signs (`JsonValue.Written`): a value that can be written is read from any text that the
grammar derives for it (`JsonValue.readValue_written`), and both printers derive theirs
(`JsonValue.written_compactChars`, `JsonValue.written_prettyChars`).
-/

namespace BindlessHlsl

namespace JsonNumber

/-- A number as JSON writes it: digits everywhere, and a zero in front stands alone. -/
structure Proper (n : JsonNumber) : Prop where
  whole_ne_nil : n.whole ≠ []
  whole_digits : ∀ c ∈ n.whole, c.isDigit = true
  whole_zero : n.whole.head? = some '0' → n.whole.length = 1
  fraction_digits : ∀ c ∈ n.fraction, c.isDigit = true
  exponent_digits : ∀ e ∈ n.exponent, e.2 ≠ [] ∧ ∀ c ∈ e.2, c.isDigit = true

/-- The digits behind the point, with the point. -/
def fractionChars (n : JsonNumber) : List Char :=
  if n.fraction.isEmpty then [] else '.' :: n.fraction

/-- The exponent with its mark. -/
def exponentChars (n : JsonNumber) : List Char :=
  match n.exponent with
  | none => []
  | some (negative, digits) => 'e' :: (if negative then '-' else '+') :: digits

theorem chars_eq (n : JsonNumber) :
    n.chars = (if n.negative then ['-'] else []) ++
      (n.whole ++ (n.fractionChars ++ n.exponentChars)) := by
  exact (List.append_assoc ..).trans (List.append_assoc ..)

end JsonNumber

namespace JsonValue

/-! ## Strings -/

theorem hexValue?_hexDigit : ∀ n < 16, hexValue? (hexDigit n) = some n := by
  decide

/-- A control character is read from its code. -/
theorem hexPiece?_of_lt {c : Char} (h : c.toNat < 32) :
    hexPiece? '0' '0' (hexDigit (c.toNat / 16)) (hexDigit (c.toNat % 16)) = some (.char c) := by
  have hzero : hexValue? '0' = some 0 := rfl
  have hcode : (0 * 16 + 0) * 256 + c.toNat / 16 * 16 + c.toNat % 16 = c.toNat := by omega
  have hrange : ¬(0xd800 ≤ c.toNat ∧ c.toNat < 0xe000) := by omega
  simp only [hexPiece?, hzero, hexValue?_hexDigit _ (by omega : c.toNat / 16 < 16),
    hexValue?_hexDigit _ (by omega : c.toNat % 16 < 16), Option.bind_eq_bind, Option.bind_some,
    hcode, if_neg hrange, Char.ofNat_toNat]
  rfl

theorem readPieces_of_plain {c : Char} (hq : c ≠ '"') (hb : c ≠ '\\') (h : ¬c.toNat < 32)
    (rest : List Char) :
    readPieces (c :: rest) = (readPieces rest).map fun p => (.char c :: p.1, p.2) := by
  rw [readPieces.eq_def]
  split
  next heq => cases heq
  next heq => exact absurd (List.cons.inj heq).1 hq
  next heq => exact absurd (List.cons.inj heq).1 hb
  next heq => exact absurd (List.cons.inj heq).1 hb
  next heq =>
    obtain ⟨rfl, rfl⟩ := List.cons.inj heq
    rw [if_neg h]
    cases readPieces rest <;> rfl

/-- A character is read from its written form. -/
theorem readPieces_escape (c : Char) (rest : List Char) :
    readPieces (escape c ++ rest) = (readPieces rest).map fun p => (.char c :: p.1, p.2) := by
  have hlift : ∀ piece : Piece, ((readPieces rest).bind fun p => some (piece :: p.1, p.2)) =
      (readPieces rest).map fun p => (piece :: p.1, p.2) := by
    intro piece
    cases readPieces rest <;> rfl
  have hshort : ∀ code : Nat, c.toNat = code → Char.ofNat code = c := by
    rintro _ rfl
    exact Char.ofNat_toNat c
  unfold escape
  split
  · subst c; exact hlift _
  split
  · subst c; exact hlift _
  split
  next h => rw [← hshort 8 h]; exact hlift _
  split
  · subst c; exact hlift _
  split
  · subst c; exact hlift _
  split
  next h => rw [← hshort 12 h]; exact hlift _
  split
  · subst c; exact hlift _
  split
  next h =>
    change readPieces ('\\' :: 'u' :: '0' :: '0' :: _ :: _ :: rest) = _
    rw [readPieces, hexPiece?_of_lt h]
    exact hlift _
  next hq hb _ _ _ _ _ h => exact readPieces_of_plain hq hb h rest

/-- A quoted text is read up to its closing quote. -/
theorem readPieces_quoted (cs rest : List Char) :
    readPieces (cs.flatMap escape ++ '"' :: rest) = some (cs.map .char, rest) := by
  induction cs with
  | nil => rfl
  | cons c cs ih =>
    rw [List.flatMap_cons, List.append_assoc, readPieces_escape, ih]
    rfl

theorem textOf?_map_char (s : String) : textOf? (s.toList.map .char) = some s := by
  have hjoin : ∀ cs : List Char, joinPieces (cs.map .char) = some cs := by
    intro cs
    induction cs with
    | nil => rfl
    | cons c cs ih => rw [List.map_cons, joinPieces, ih]; rfl
  rw [textOf?, hjoin, Option.map_some, String.ofList_toList]

/-! ## Numbers -/

/-- What follows a number does not go on with it. -/
def Ends (rest : List Char) : Prop :=
  ∀ c ∈ rest.head?, c.isDigit = false ∧ c ≠ '.' ∧ c ≠ 'e' ∧ c ≠ 'E'

theorem readDigits_append {digits rest : List Char} (hd : ∀ c ∈ digits, c.isDigit = true)
    (hr : ∀ c ∈ rest.head?, c.isDigit = false) : readDigits (digits ++ rest) = (digits, rest) := by
  have hstop : rest.takeWhile Char.isDigit = [] ∧ rest.dropWhile Char.isDigit = rest := by
    cases rest with
    | nil => exact ⟨rfl, rfl⟩
    | cons c rest => simp [hr c rfl]
  rw [readDigits, List.takeWhile_append_of_pos hd, List.dropWhile_append_of_pos hd, hstop.1,
    hstop.2, List.append_nil]

theorem readFraction?_fractionChars {n : JsonNumber} (hn : n.Proper) {rest : List Char}
    (hr : ∀ c ∈ rest.head?, c.isDigit = false ∧ c ≠ '.') :
    readFraction? (n.fractionChars ++ rest) = some (n.fraction, rest) := by
  unfold JsonNumber.fractionChars
  split
  next he =>
    obtain hnil := List.isEmpty_iff.1 he
    rw [hnil, List.nil_append, readFraction?.eq_def]
    split
    next => exact absurd rfl (hr '.' rfl).2
    next => rfl
  next he =>
    rw [List.cons_append, readFraction?,
      readDigits_append hn.fraction_digits fun c hc => (hr c hc).1]
    exact if_neg he

theorem readExponent?_exponentChars {n : JsonNumber} (hn : n.Proper) {rest : List Char}
    (hr : Ends rest) : readExponent? (n.exponentChars ++ rest) = some (n.exponent, rest) := by
  unfold JsonNumber.exponentChars
  cases he : n.exponent with
  | none =>
    cases rest with
    | nil => rfl
    | cons c rest =>
      obtain ⟨-, -, hlower, hupper⟩ := hr c rfl
      simp [readExponent?, hlower, hupper]
  | some exponent =>
    obtain ⟨negative, digits⟩ := exponent
    obtain ⟨hne, hdigits⟩ := hn.exponent_digits _ he
    have hsign : Single.Numeral.sign ((if negative then '-' else '+') :: (digits ++ rest)) =
        (negative, digits ++ rest) := by
      cases negative <;> rfl
    simp only [List.cons_append, readExponent?, hsign,
      readDigits_append hdigits fun c hc => (hr c hc).1]
    simpa using hne

theorem head?_fractionChars {n : JsonNumber} {rest : List Char} (hr : Ends rest) :
    (∀ c ∈ (n.exponentChars ++ rest).head?, c.isDigit = false ∧ c ≠ '.') ∧
      ∀ c ∈ (n.fractionChars ++ (n.exponentChars ++ rest)).head?, c.isDigit = false := by
  have hexponent : ∀ c ∈ (n.exponentChars ++ rest).head?, c.isDigit = false ∧ c ≠ '.' := by
    unfold JsonNumber.exponentChars
    cases n.exponent with
    | none => exact fun c hc => ⟨(hr c hc).1, (hr c hc).2.1⟩
    | some exponent =>
      rintro _ ⟨⟩
      decide
  refine ⟨hexponent, ?_⟩
  unfold JsonNumber.fractionChars
  split
  · exact fun c hc => (hexponent c hc).1
  · rintro _ ⟨⟩
    rfl

/-- A number is read back, sign aside, if what follows does not go on with it. -/
theorem readNumber?_chars {n : JsonNumber} (hn : n.Proper) {rest : List Char} (hr : Ends rest) :
    readNumber? n.negative (n.whole ++ (n.fractionChars ++ n.exponentChars) ++ rest) =
      some (n, rest) := by
  obtain ⟨hexponent, hfraction⟩ := head?_fractionChars (n := n) hr
  have hwhole :
      ¬(n.whole.isEmpty || (n.whole.head? == some '0' && n.whole.length != 1)) = true := by
    have hne := hn.whole_ne_nil
    have hzero := hn.whole_zero
    simp_all
  simp only [List.append_assoc, readNumber?, readDigits_append hn.whole_digits hfraction,
    if_neg hwhole, readFraction?_fractionChars hn hexponent, readExponent?_exponentChars hn hr,
    Option.bind_eq_bind, Option.bind_some]
  rfl

/-! ## Values -/

/-- Blanks between the signs of a text. -/
def Blank (blanks : List Char) : Prop := ∀ c ∈ blanks, isBlank c = true

theorem blank_nil : Blank [] := fun _ h => absurd h List.not_mem_nil

mutual

/-- A text derives a value, with blanks between its signs. -/
inductive Written : JsonValue → List Char → Prop
  | null : Written .null "null".toList
  | bool {value : Bool} : Written (.bool value) (scalarChars (.bool value))
  | number {n : JsonNumber} : n.Proper → Written (.number n) n.chars
  | string {s : String} : Written (.string s) (quote s)
  | noItems : Written (.array []) ['[', ']']
  | items {items : List JsonValue} {text : List Char} :
    WrittenItems items text → Written (.array items) ('[' :: text)
  | noFields : Written (.object []) ['\x7b', '\x7d']
  | fields {fields : List (String × JsonValue)} {text : List Char} :
    WrittenFields fields text → Written (.object fields) ('\x7b' :: text)

/-- A text derives items up to the closing bracket. -/
inductive WrittenItems : List JsonValue → List Char → Prop
  | last {item : JsonValue} {before text after : List Char} :
    Blank before → Written item text → Blank after →
    WrittenItems [item] (before ++ (text ++ (after ++ [']'])))
  | more {item : JsonValue} {items : List JsonValue} {before text rest : List Char} :
    Blank before → Written item text → WrittenItems items rest →
    WrittenItems (item :: items) (before ++ (text ++ ',' :: rest))

/-- A text derives fields up to the closing brace. -/
inductive WrittenFields : List (String × JsonValue) → List Char → Prop
  | last {key : String} {value : JsonValue} {before between text after : List Char} :
    Blank before → Blank between → Written value text → Blank after →
    WrittenFields [(key, value)]
      (before ++ (quote key ++ ':' :: (between ++ (text ++ (after ++ ['\x7d'])))))
  | more {key : String} {value : JsonValue} {fields : List (String × JsonValue)}
      {before between text rest : List Char} :
    Blank before → Blank between → Written value text → WrittenFields fields rest →
    WrittenFields ((key, value) :: fields)
      (before ++ (quote key ++ ':' :: (between ++ (text ++ ',' :: rest))))

end

theorem skipBlank_append {blanks : List Char} (h : Blank blanks) (text : List Char) :
    skipBlank (blanks ++ text) = skipBlank text :=
  List.dropWhile_append_of_pos h

theorem skipBlank_cons {c : Char} (h : isBlank c = false) (text : List Char) :
    skipBlank (c :: text) = c :: text := by
  rw [skipBlank, List.dropWhile_cons, h]
  rfl

theorem ends_of_blank {blanks : List Char} (h : Blank blanks) {c : Char}
    (hc : c = ',' ∨ c = ']' ∨ c = '\x7d') (rest : List Char) : Ends (blanks ++ c :: rest) := by
  intro d hd
  cases blanks with
  | nil =>
    obtain rfl : c = d := by simpa using hd
    rcases hc with rfl | rfl | rfl <;> decide
  | cons b blanks =>
    obtain rfl : b = d := by simpa using hd
    have hb := h b List.mem_cons_self
    simp only [isBlank, Bool.or_eq_true, beq_iff_eq] at hb
    rcases hb with ((rfl | rfl) | rfl) | rfl <;> decide

theorem ends_of_comma (rest : List Char) : Ends (',' :: rest) :=
  ends_of_blank blank_nil (.inl rfl) rest

/-- A derived text starts with a sign of its own: neither a blank nor the end of a list. -/
theorem Written.head {v : JsonValue} {text : List Char} (h : Written v text) :
    ∃ c rest, text = c :: rest ∧ isBlank c = false ∧ c ≠ ']' := by
  cases h with
  | null => exact ⟨'n', _, rfl, rfl, by decide⟩
  | @bool value => cases value <;> exact ⟨_, _, rfl, rfl, by decide⟩
  | @number n hn =>
    rw [JsonNumber.chars_eq]
    cases n.negative with
    | true => exact ⟨'-', _, rfl, rfl, by decide⟩
    | false =>
      obtain ⟨d, digits, hd⟩ := List.exists_cons_of_ne_nil hn.whole_ne_nil
      have hdigit := hn.whole_digits d (hd ▸ List.mem_cons_self)
      rw [hd]
      refine ⟨d, _, rfl, ?_, ?_⟩
      · refine Bool.eq_false_iff.2 fun hb => ?_
        simp only [isBlank, Bool.or_eq_true, beq_iff_eq] at hb
        rcases hb with ((rfl | rfl) | rfl) | rfl <;> exact absurd hdigit (by decide)
      · rintro rfl
        exact absurd hdigit (by decide)
  | string => exact ⟨'"', _, rfl, rfl, by decide⟩
  | noItems | items => exact ⟨'[', _, rfl, rfl, by decide⟩
  | noFields | fields => exact ⟨'\x7b', _, rfl, rfl, by decide⟩

theorem skipBlank_skipBlank (text : List Char) : skipBlank (skipBlank text) = skipBlank text := by
  induction text with
  | nil => rfl
  | cons c text ih =>
    cases hc : isBlank c with
    | true => simpa [skipBlank, List.dropWhile_cons, hc] using ih
    | false => rw [skipBlank_cons hc, skipBlank_cons hc]

theorem readValue_skipBlank (levels : Nat) (text : List Char) :
    readValue levels (skipBlank text) = readValue levels text := by
  cases levels with
  | zero => rfl
  | succ levels => rw [readValue.eq_def, readValue.eq_def]; simp only [skipBlank_skipBlank]

theorem readItems_skipBlank (levels : Nat) (text : List Char) :
    readItems levels (skipBlank text) = readItems levels text := by
  cases levels with
  | zero => rfl
  | succ levels => rw [readItems, readItems, readValue_skipBlank]

theorem readFields_skipBlank (levels : Nat) (text : List Char) :
    readFields levels (skipBlank text) = readFields levels text := by
  cases levels with
  | zero => rfl
  | succ levels => rw [readFields, readFields, skipBlank_skipBlank]

theorem readValue_append {blanks : List Char} (h : Blank blanks) (levels : Nat)
    (text : List Char) : readValue levels (blanks ++ text) = readValue levels text := by
  rw [← readValue_skipBlank, skipBlank_append h, readValue_skipBlank]

theorem readValue_digits {text : List Char}
    (h : ∃ d digits, text = d :: digits ∧ d.isDigit = true) (levels : Nat) :
    readValue (levels + 1) text =
      (readNumber? false text).map fun (n, rest) => (.number n, rest) := by
  obtain ⟨d, digits, rfl, hd⟩ := h
  have hblank : isBlank d = false := by
    refine Bool.eq_false_iff.2 fun hb => ?_
    simp only [isBlank, Bool.or_eq_true, beq_iff_eq] at hb
    rcases hb with ((rfl | rfl) | rfl) | rfl <;> exact absurd hd (by decide)
  rw [readValue, skipBlank_cons hblank]
  split
  case h_8 => rfl
  all_goals
    next heq =>
    obtain ⟨rfl, -⟩ := List.cons.inj heq
    exact absurd hd (by decide)

theorem readValue_number {n : JsonNumber} (hn : n.Proper) {rest : List Char} (hr : Ends rest)
    (levels : Nat) : readValue (levels + 1) (n.chars ++ rest) = some (.number n, rest) := by
  have hread := readNumber?_chars hn hr
  rw [JsonNumber.chars_eq, List.append_assoc]
  cases hneg : n.negative with
  | true =>
    rw [hneg] at hread
    rw [if_pos rfl, List.singleton_append, readValue, skipBlank_cons (c := '-') rfl]
    simp only [hread, Option.map_some]
  | false =>
    rw [hneg] at hread
    obtain ⟨d, digits, hd⟩ := List.exists_cons_of_ne_nil hn.whole_ne_nil
    rw [if_neg Bool.false_ne_true, List.nil_append, readValue_digits, hread]
    · rfl
    · exact ⟨d, _, by rw [hd]; rfl, hn.whole_digits d (hd ▸ List.mem_cons_self)⟩

theorem objectOf_map (fields : List (String × JsonValue)) :
    objectOf (fields.map fun f => (f.1.toList.map .char, f.2)) = .object fields := by
  have hfields : (fields.map fun f => (f.1.toList.map Piece.char, f.2)).mapM fieldOf? =
      some fields := by
    induction fields with
    | nil => rfl
    | cons f fields ih =>
      rw [List.map_cons, List.mapM_cons, ih, fieldOf?, textOf?_map_char]
      rfl
  rw [objectOf, hfields]
  rfl

/-- Derived texts that are shorter than a number of levels are read back. -/
structure ReadsBack (levels : Nat) : Prop where
  value {v : JsonValue} {text rest : List Char} : Written v text → Ends rest →
    text.length < levels → readValue levels (text ++ rest) = some (v, rest)
  items {items : List JsonValue} {text : List Char} (rest : List Char) : WrittenItems items text →
    text.length < levels → readItems levels (text ++ rest) = some (items, rest)
  fields {fields : List (String × JsonValue)} {text : List Char} (rest : List Char) :
    WrittenFields fields text → text.length < levels →
      readFields levels (text ++ rest) =
        some (fields.map fun f => (f.1.toList.map .char, f.2), rest)

theorem WrittenItems.head {items : List JsonValue} {text : List Char} (h : WrittenItems items text)
    (rest : List Char) : ∃ c more, skipBlank (text ++ rest) = c :: more ∧ c ≠ ']' := by
  have hitem : ∀ {v : JsonValue} {before text : List Char} (after : List Char), Blank before →
      Written v text → ∃ c more, skipBlank (before ++ (text ++ after)) = c :: more ∧ c ≠ ']' := by
    intro v before text after hbefore hv
    obtain ⟨c, more, rfl, hc, hne⟩ := hv.head
    exact ⟨c, more ++ after, by rw [skipBlank_append hbefore]; exact skipBlank_cons hc _, hne⟩
  cases h with
  | last hbefore hv _ =>
    simp only [List.append_assoc]
    exact hitem _ hbefore hv
  | more hbefore hv _ =>
    simp only [List.append_assoc]
    exact hitem _ hbefore hv

theorem WrittenFields.head {fields : List (String × JsonValue)} {text : List Char}
    (h : WrittenFields fields text) (rest : List Char) :
    ∃ more, skipBlank (text ++ rest) = '"' :: more := by
  cases h with
  | last hbefore _ _ _ | more hbefore _ _ _ =>
    rw [List.append_assoc, skipBlank_append hbefore]
    exact ⟨_, skipBlank_cons rfl _⟩

theorem ReadsBack.value_succ {levels : Nat} (ih : ReadsBack levels) {v : JsonValue}
    {text rest : List Char} (h : Written v text) (hr : Ends rest)
    (hlevels : text.length < levels + 1) :
    readValue (levels + 1) (text ++ rest) = some (v, rest) := by
  cases h with
  | null => exact rfl
  | @bool value => cases value <;> rfl
  | number hn => exact readValue_number hn hr levels
  | @string s =>
    have hquote : quote s ++ rest = '"' :: (s.toList.flatMap escape ++ '"' :: rest) := by
      simp [quote]
    rw [hquote, readValue, skipBlank_cons (c := '"') rfl]
    simp only [readPieces_quoted, Option.bind_eq_bind, Option.bind_some, stringOf,
      textOf?_map_char]
    rfl
  | noItems => rfl
  | @items items text hitems =>
    have hread := ih.items rest hitems (Nat.lt_of_succ_lt_succ hlevels)
    obtain ⟨c, more, hskip, hne⟩ := hitems.head rest
    rw [← readItems_skipBlank] at hread
    rw [List.cons_append, readValue, skipBlank_cons (c := '[') rfl]
    simp only
    rw [hskip] at hread ⊢
    split
    next heq => exact absurd (List.cons.inj heq).1 hne
    next => rw [hread]; rfl
  | noFields => rfl
  | @fields fields text hfields =>
    have hread := ih.fields rest hfields (Nat.lt_of_succ_lt_succ hlevels)
    obtain ⟨more, hskip⟩ := hfields.head rest
    rw [← readFields_skipBlank] at hread
    rw [List.cons_append, readValue, skipBlank_cons (c := '\x7b') rfl]
    simp only
    rw [hskip] at hread ⊢
    split
    next heq => exact absurd (List.cons.inj heq).1 (by decide)
    next =>
      rw [hread, ← objectOf_map]
      rfl

theorem ReadsBack.items_succ {levels : Nat} (ih : ReadsBack levels) {items : List JsonValue}
    {text : List Char} (rest : List Char) (h : WrittenItems items text)
    (hlevels : text.length < levels + 1) :
    readItems (levels + 1) (text ++ rest) = some (items, rest) := by
  cases h with
  | @last item before text after hbefore hitem hafter =>
    have hlength : text.length < levels := by simp at hlevels; omega
    have hread := ih.value hitem (ends_of_blank hafter (.inr (.inl rfl)) rest) hlength
    have htext : before ++ (text ++ (after ++ [']'])) ++ rest =
        before ++ (text ++ (after ++ ']' :: rest)) := by simp
    rw [htext, readItems, readValue_append hbefore, hread]
    simp only [Option.bind_eq_bind, Option.bind_some, skipBlank_append hafter,
      skipBlank_cons (c := ']') rfl]
    rfl
  | @more item items before text more hbefore hitem hitems =>
    have hlength : text.length < levels ∧ more.length < levels := by simp at hlevels; omega
    have hread := ih.value hitem (ends_of_comma (more ++ rest)) hlength.1
    have htext : before ++ (text ++ ',' :: more) ++ rest =
        before ++ (text ++ ',' :: (more ++ rest)) := by simp
    rw [htext, readItems, readValue_append hbefore, hread]
    simp only [Option.bind_eq_bind, Option.bind_some, skipBlank_cons (c := ',') rfl,
      ih.items rest hitems hlength.2]
    rfl

theorem ReadsBack.fields_succ {levels : Nat} (ih : ReadsBack levels)
    {fields : List (String × JsonValue)} {text : List Char} (rest : List Char)
    (h : WrittenFields fields text) (hlevels : text.length < levels + 1) :
    readFields (levels + 1) (text ++ rest) =
      some (fields.map fun f => (f.1.toList.map .char, f.2), rest) := by
  cases h with
  | @last key value before between text after hbefore hbetween hvalue hafter =>
    have hlength : text.length < levels := by simp at hlevels; omega
    have hread := ih.value hvalue (ends_of_blank hafter (.inr (.inr rfl)) rest) hlength
    have htext :
        before ++ (quote key ++ ':' :: (between ++ (text ++ (after ++ ['\x7d'])))) ++ rest =
          before ++ '"' :: (key.toList.flatMap escape ++
            '"' :: ':' :: (between ++ (text ++ (after ++ '\x7d' :: rest)))) := by simp [quote]
    rw [htext, readFields, skipBlank_append hbefore]
    simp only [skipBlank_cons (c := '"') rfl, readPieces_quoted, Option.bind_eq_bind,
      Option.bind_some, skipBlank_cons (c := ':') rfl, readValue_append hbetween, hread,
      skipBlank_append hafter, skipBlank_cons (c := '\x7d') rfl]
    rfl
  | @more key value fields before between text more hbefore hbetween hvalue hfields =>
    have hlength : text.length < levels ∧ more.length < levels := by simp at hlevels; omega
    have hread := ih.value hvalue (ends_of_comma (more ++ rest)) hlength.1
    have htext : before ++ (quote key ++ ':' :: (between ++ (text ++ ',' :: more))) ++ rest =
        before ++ '"' :: (key.toList.flatMap escape ++
          '"' :: ':' :: (between ++ (text ++ ',' :: (more ++ rest)))) := by simp [quote]
    rw [htext, readFields, skipBlank_append hbefore]
    simp only [skipBlank_cons (c := '"') rfl, readPieces_quoted, Option.bind_eq_bind,
      Option.bind_some, skipBlank_cons (c := ':') rfl, readValue_append hbetween, hread,
      skipBlank_cons (c := ',') rfl, ih.fields rest hfields hlength.2]
    rfl

theorem readsBack (levels : Nat) : ReadsBack levels := by
  induction levels with
  | zero =>
    exact ⟨fun _ _ h => absurd h (Nat.not_lt_zero _), fun _ _ h => absurd h (Nat.not_lt_zero _),
      fun _ _ h => absurd h (Nat.not_lt_zero _)⟩
  | succ levels ih => exact ⟨ih.value_succ, ih.items_succ, ih.fields_succ⟩

/-- A derived text is read as its value. -/
theorem ofText?_written {v : JsonValue} {text : List Char} (h : Written v text) :
    ofText? (String.ofList text) = some v := by
  have hend : Ends [] := by simp [Ends]
  have hread : readValue (text.length + 1) text = some (v, []) := by
    simpa using (readsBack (text.length + 1)).value h hend (Nat.lt_succ_self _)
  rw [ofText?, String.toList_ofList, hread]
  rfl

/-! ## The two printers -/

/-- A value that has a text: its numbers are written as JSON writes them, and no part is broken. -/
inductive Proper : JsonValue → Prop
  | null : Proper .null
  | bool (value : Bool) : Proper (.bool value)
  | number {n : JsonNumber} : n.Proper → Proper (.number n)
  | string (s : String) : Proper (.string s)
  | array {items : List JsonValue} : (∀ item ∈ items, Proper item) → Proper (.array items)
  | object {fields : List (String × JsonValue)} :
    (∀ f ∈ fields, Proper f.2) → Proper (.object fields)

/-- Items with the same blanks in front of each. -/
theorem writtenItems_flatMap {before after : List Char} (hbefore : Blank before)
    (hafter : Blank after) {print : JsonValue → List Char} {item : JsonValue}
    {items : List JsonValue} (h : ∀ v ∈ item :: items, Written v (print v)) :
    WrittenItems (item :: items) (before ++ (print item ++
      (items.flatMap (fun v => ',' :: (before ++ print v)) ++ (after ++ [']'])))) := by
  obtain ⟨hitem, hitems⟩ := List.forall_mem_cons.1 h
  induction items generalizing item with
  | nil => exact .last hbefore hitem hafter
  | cons next items ih =>
    have hrest := ih hitems (hitems next List.mem_cons_self)
      fun v hv => hitems v (List.mem_cons_of_mem _ hv)
    simpa using WrittenItems.more hbefore hitem hrest

/-- Fields with the same blanks in front of each, and in front of each value. -/
theorem writtenFields_flatMap {before between after : List Char} (hbefore : Blank before)
    (hbetween : Blank between) (hafter : Blank after) {print : JsonValue → List Char}
    {field : String × JsonValue} {fields : List (String × JsonValue)}
    (h : ∀ f ∈ field :: fields, Written f.2 (print f.2)) :
    WrittenFields (field :: fields) (before ++ (quote field.1 ++ ':' ::
      (between ++ (print field.2 ++
      (fields.flatMap (fun f => ',' :: (before ++ (quote f.1 ++ ':' :: (between ++ print f.2)))) ++
        (after ++ ['\x7d'])))))) := by
  obtain ⟨hfield, hfields⟩ := List.forall_mem_cons.1 h
  induction fields generalizing field with
  | nil => exact .last hbefore hbetween hfield hafter
  | cons next fields ih =>
    have hrest := ih hfields (hfields next List.mem_cons_self)
      fun f hf => hfields f (List.mem_cons_of_mem _ hf)
    simpa using WrittenFields.more hbefore hbetween hfield hrest

theorem compactItems_eq (items : List JsonValue) :
    compactItems items = items.flatMap fun v => ',' :: ([] ++ compactChars v) := by
  induction items with
  | nil => rw [compactItems]; rfl
  | cons item items ih => rw [compactItems, ih]; simp

theorem compactFields_eq (fields : List (String × JsonValue)) :
    compactFields fields =
      fields.flatMap fun f => ',' :: ([] ++ (quote f.1 ++ ':' :: ([] ++ compactChars f.2))) := by
  induction fields with
  | nil => rw [compactFields]; rfl
  | cons field fields ih => rw [compactFields, ih]; simp

theorem prettyItems_eq (level : Nat) (items : List JsonValue) :
    prettyItems level items =
      items.flatMap fun v => ',' :: (lineBreak level ++ prettyChars level v) := by
  induction items with
  | nil => rw [prettyItems]; rfl
  | cons item items ih => rw [prettyItems, ih]; simp

theorem prettyFields_eq (level : Nat) (fields : List (String × JsonValue)) :
    prettyFields level fields = fields.flatMap fun f =>
      ',' :: (lineBreak level ++ (quote f.1 ++ ':' :: ([' '] ++ prettyChars level f.2))) := by
  induction fields with
  | nil => rw [prettyFields]; rfl
  | cons field fields ih => rw [prettyFields, ih]; simp

theorem blank_lineBreak (level : Nat) : Blank (lineBreak level) := by
  intro c hc
  rcases List.mem_cons.1 hc with rfl | hc
  · rfl
  · rw [List.eq_of_mem_replicate hc]; rfl

theorem written_compactChars {v : JsonValue} (h : v.Proper) : Written v v.compactChars := by
  induction h with
  | null => exact .null
  | bool value => exact .bool
  | number hn => exact .number hn
  | string s => exact .string
  | @array items hitems ih =>
    cases items with
    | nil => exact .noItems
    | cons item items =>
      rw [compactChars, compactItems_eq]
      simpa using Written.items (writtenItems_flatMap blank_nil blank_nil ih)
  | @object fields hfields ih =>
    cases fields with
    | nil => exact .noFields
    | cons field fields =>
      rw [compactChars, compactFields_eq]
      simpa using Written.fields (writtenFields_flatMap blank_nil blank_nil blank_nil ih)

theorem written_prettyChars {v : JsonValue} (h : v.Proper) (level : Nat) :
    Written v (v.prettyChars level) := by
  have hspace : Blank [' '] := by
    rintro _ (⟨⟩ | ⟨_, ⟨⟩⟩)
    rfl
  induction h generalizing level with
  | null => exact .null
  | bool value => exact .bool
  | number hn => exact .number hn
  | string s => exact .string
  | @array items hitems ih =>
    cases items with
    | nil => exact .noItems
    | cons item items =>
      rw [prettyChars, prettyItems_eq]
      simpa using Written.items (writtenItems_flatMap (blank_lineBreak (level + 1))
        (blank_lineBreak level) fun v hv => ih v hv (level + 1))
  | @object fields hfields ih =>
    cases fields with
    | nil => exact .noFields
    | cons field fields =>
      rw [prettyChars, prettyFields_eq]
      simpa using Written.fields (writtenFields_flatMap (blank_lineBreak (level + 1)) hspace
        (blank_lineBreak level) fun f hf => ih f hf (level + 1))

/-- Either text of a value is read as the value. -/
theorem ofText?_printed {v : JsonValue} (h : v.Proper) :
    ofText? v.compact = some v ∧ ofText? v.pretty = some v :=
  ⟨ofText?_written (written_compactChars h), ofText?_written (written_prettyChars h 0)⟩

end JsonValue

end BindlessHlsl
