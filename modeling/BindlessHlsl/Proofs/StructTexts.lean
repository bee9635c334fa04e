import BindlessHlsl.Proofs.Gathering
import BindlessHlsl.Proofs.ScanMoves
import BindlessHlsl.Proofs.Spelling
import Mathlib.Data.List.Nodup

/-!
Struct definitions as they are written. The bytes of a definition hold the declarations of its
members one behind the other, each up to its semicolon (`Struct.Written`), and a declaration is
enough to read the type name of its member again (`Struct.ReadsMember.typeName?_eq`). The structs of
a root file are written in its text in the order in which they were gathered
(`Declarations.written_of_mem`, `Declarations.structs_apart`).
-/

namespace BindlessHlsl

open Ascii Utf8 Relation

/-! ## Lexical elements at the front of a text -/

namespace Lexeme

variable {front rest : List UInt8}

theorem length_takeWhile_append_of_le {p : UInt8 → Bool}
    (h : ((front ++ rest).takeWhile p).length ≤ front.length) :
    (front.takeWhile p).length = ((front ++ rest).takeWhile p).length := by
  rw [List.takeWhile_append] at h ⊢
  split
  next hall =>
    rw [if_pos hall, List.length_append] at h
    rw [hall, List.length_append]
    omega
  next => rfl

/-- What reaches no further than the front of a text is measured there. -/
theorem identifier_append_of_le (h : identifier (front ++ rest) ≤ front.length) :
    identifier front = identifier (front ++ rest) := by
  cases front with
  | nil => exact (Nat.le_zero.1 h).symm
  | cons b front =>
    rw [List.cons_append] at h ⊢
    simp only [identifier, List.length_cons] at h ⊢
    by_cases hb : isIdentifierStart b = true
    · rw [if_pos hb] at h ⊢
      rw [if_pos hb]
      exact congrArg (1 + ·) (length_takeWhile_append_of_le (by omega))
    · rw [if_neg hb, if_neg hb]

theorem blockCommentRest_append_of_le (h : blockCommentRest (front ++ rest) ≤ front.length) :
    blockCommentRest front = blockCommentRest (front ++ rest) := by
  induction front with
  | nil => exact (Nat.le_zero.1 h).symm
  | cons b front ih =>
    rw [List.cons_append] at h ⊢
    rw [blockCommentRest, List.length_cons] at h
    rw [blockCommentRest, blockCommentRest]
    by_cases hclose : b = star ∧ (front ++ rest).head? = some slash
    · rw [if_pos hclose] at h ⊢
      cases front with
      | nil => simp at h
      | cons d front => exact if_pos hclose
    · rw [if_neg hclose] at h ⊢
      have hfront : ¬(b = star ∧ front.head? = some slash) := by
        rintro ⟨hb, hd⟩
        exact hclose ⟨hb, by rw [List.head?_append, hd]; rfl⟩
      rw [if_neg hfront, ih (by omega)]

theorem comment_append_of_le (h : comment (front ++ rest) ≤ front.length) :
    comment front = comment (front ++ rest) := by
  match front with
  | [] => exact (Nat.le_zero.1 h).symm
  | [b] =>
    -- A comment has two bytes at least.
    cases hn : comment ([b] ++ rest) with
    | zero => rfl
    | succ n =>
      rw [hn, List.length_singleton] at h
      cases rest with
      | nil => cases hn
      | cons mark rest =>
        simp only [List.cons_append, List.nil_append, comment] at hn
        split at hn
        · omega
        split at hn <;> omega
  | b :: mark :: front =>
    simp only [List.cons_append, comment, List.length_cons] at h ⊢
    by_cases hline : b = slash ∧ mark = slash
    · rw [if_pos hline] at h ⊢
      rw [if_pos hline]
      exact congrArg (2 + ·) (length_takeWhile_append_of_le (by omega))
    rw [if_neg hline] at h ⊢
    rw [if_neg hline]
    by_cases hblock : b = slash ∧ mark = star
    · rw [if_pos hblock] at h ⊢
      rw [if_pos hblock]
      exact congrArg (2 + ·) (blockCommentRest_append_of_le (by omega))
    · rw [if_neg hblock, if_neg hblock]

theorem trivia_append_of_le (h : trivia (front ++ rest) ≤ front.length) :
    trivia front = trivia (front ++ rest) := by
  fun_induction trivia front with
  | case1 => exact (Nat.le_zero.1 h).symm
  | case2 b front hb ih =>
    rw [List.cons_append, trivia, if_pos hb] at h ⊢
    rw [List.length_cons] at h
    rw [ih (by omega)]
  | case3 b front hb hc =>
    rw [List.cons_append, trivia, if_neg hb] at h ⊢
    cases hn : comment (b :: (front ++ rest)) with
    | zero => rfl
    | succ n =>
      have hlocal : comment (b :: front) = comment (b :: front ++ rest) := by
        refine comment_append_of_le ?_
        rw [List.cons_append, hn]
        simp only [hn] at h
        omega
      rw [hc, List.cons_append, hn] at hlocal
      cases hlocal
  | case4 b front hb n hc ih =>
    rw [List.cons_append, trivia, if_neg hb] at h ⊢
    have hle : comment (b :: front ++ rest) ≤ (b :: front).length := by
      rw [List.cons_append]
      cases hm : comment (b :: (front ++ rest)) with
      | zero => exact Nat.zero_le _
      | succ m =>
        simp only [hm] at h
        omega
    have hlocal := comment_append_of_le hle
    rw [hc, List.cons_append] at hlocal
    rw [← hlocal] at h ⊢
    have hn : n ≤ front.length := by
      simp only [List.length_cons] at h
      omega
    simp only [List.drop_append_of_le_length hn] at h ⊢
    rw [ih]
    simp only [List.length_cons, List.length_drop] at h ⊢
    omega

end Lexeme

namespace Cursor

variable {c d : Cursor} {source : String}

/-- A word that ends within the front of a text is read there. -/
theorem identifier_of_rest {front : Cursor} {rest : List UInt8} (hr : c.rest = front.rest ++ rest)
    (h : rest.length ≤ c.identifier.2.rest.length) :
    front.identifier.1 = c.identifier.1 ∧
      c.identifier.2.rest = front.identifier.2.rest ++ rest := by
  have hle : Lexeme.identifier (front.rest ++ rest) ≤ front.rest.length := by
    have hmax := Lexeme.identifier_le c.rest
    simp only [identifier, rest_advance, List.length_drop] at h
    rw [hr] at h hmax
    rw [List.length_append] at h hmax
    omega
  have hn := Lexeme.identifier_append_of_le hle
  simp only [identifier, upcoming, rest_advance, hr]
  rw [← hn, List.take_append_of_le_length (hn ▸ hle), List.drop_append_of_le_length (hn ▸ hle)]
  exact ⟨rfl, rfl⟩

theorem skipTrivia_of_rest {front : Cursor} {rest : List UInt8} (hr : c.rest = front.rest ++ rest)
    (h : rest.length ≤ c.skipTrivia.rest.length) :
    c.skipTrivia.rest = front.skipTrivia.rest ++ rest := by
  have hle : rest = [] ∨ Lexeme.trivia (front.rest ++ rest) ≤ front.rest.length := by
    simp only [skipTrivia_eq, rest_advance, List.length_drop] at h
    rw [hr, List.length_append] at h
    cases rest with
    | nil => exact .inl rfl
    | cons b rest =>
      rw [List.length_cons] at h
      exact .inr (by omega)
  rcases hle with rfl | hle
  · simp only [skipTrivia_eq, rest_advance, hr, List.append_nil]
  · have hn := Lexeme.trivia_append_of_le hle
    simp only [skipTrivia_eq, rest_advance, hr]
    rw [← hn, List.drop_append_of_le_length (hn ▸ hle)]

theorem peek_of_expectIdentifier {word : String} {what : Expectation}
    (h : c.expectIdentifier what = .ok (word, d)) :
    ∃ b, c.peek = some b ∧ isIdentifierStart b = true := by
  unfold expectIdentifier at h
  split at h
  · cases h
  next hw =>
    obtain ⟨b, rest, hb, hs, -⟩ := isIdentifier_of_ne_empty hw
    rw [encode_identifier] at hb
    refine ⟨b, ?_, hs⟩
    rw [peek]
    cases hr : c.rest with
    | nil => simp [hr] at hb
    | cons d rest' =>
      rw [hr] at hb
      cases hn : Lexeme.identifier (d :: rest') with
      | zero => simp [hn] at hb
      | succ n =>
        rw [hn, List.take_succ_cons] at hb
        rw [(List.cons.inj hb).1]
        rfl

theorem Within.rest_eq {text : List UInt8} (h : Within text c) : c.rest = text.drop c.pos := by
  rw [← h.bytes_eq, bytes, h.pos_eq, List.drop_left' (List.length_reverse ..)]

/-- The bytes between two cursors on boundaries are those of the text between them. -/
theorem Within.encode_textUntil (hc : Within (encode source) c) (h : c.Reaches d)
    (hb : c.OnBoundary) (hd : d.OnBoundary) :
    encode (c.textUntil d) = c.rest.take (d.pos - c.pos) := by
  obtain ⟨front, mid, back, hs, hf, hm⟩ := exists_parts (hb.isBoundary hc)
    (hd.isBoundary (hc.reaches h)) h.pos_le
  have hrest : c.rest.take (d.pos - c.pos) = encodeChars mid := by
    rw [hc.rest_eq, encode_eq_encodeChars, hs, ← hf, ← hm, Nat.add_sub_cancel_left]
    simp only [encodeChars_append, ← length_encodeChars]
    rw [List.drop_left, List.take_left]
  rw [textUntil, upcoming, hrest, ← encode_ofList, decode_encode]

theorem Reaches.spells (h : c.Reaches d) : c.Spells (c.rest.take (d.pos - c.pos)) d := by
  have hd := h.eq_advance
  constructor
  · conv => lhs; rw [← List.take_append_drop (d.pos - c.pos) c.rest]
    rw [← rest_advance, ← hd]
  · have hle := h.pos_sub_le
    rwa [List.length_take, Nat.min_eq_left hle]

theorem spells_identifier (c : Cursor) : c.Spells (encode c.identifier.1) c.identifier.2 := by
  rw [encode_identifier]
  constructor
  · rw [identifier, rest_advance, List.take_append_drop]
  · rw [List.length_take, Nat.min_eq_left (Lexeme.identifier_le _)]
    rfl

end Cursor

/-! ## Members -/

/-- The type name at the front of a member's declaration. -/
def Member.typeName? (m : Member) : Option String :=
  match Struct.readTypeName (.ofText m.declaration) with
  | .ok (word, _) => some word
  | .error _ => none

namespace Struct

variable {c d : Cursor} {source : String}

/-- A type name that ends within the front of a text is read there. -/
theorem readTypeName_of_rest (front : Cursor) {rest : List UInt8} {word : String}
    (h : readTypeName c = .ok (word, d)) (hr : c.rest = front.rest ++ rest)
    (hle : rest.length ≤ d.rest.length) : ∃ d', readTypeName front = .ok (word, d') := by
  have hword : ∀ {c next front : Cursor} {word : String},
      c.expectIdentifier .memberType = .ok (word, next) → c.rest = front.rest ++ rest →
      rest.length ≤ next.rest.length → ∃ next', front.expectIdentifier .memberType =
        .ok (word, next') ∧ next.rest = next'.rest ++ rest := by
    intro c next front word h hr hle
    unfold Cursor.expectIdentifier at h
    split at h
    · cases h
    next hw =>
      have he : c.identifier = (word, next) := Except.ok.inj h
      obtain ⟨hfirst, hrest⟩ := Cursor.identifier_of_rest hr (by rwa [he])
      rw [he] at hfirst hrest hw
      refine ⟨front.identifier.2, ?_, hrest⟩
      have hne : ¬front.identifier.1 = "" := hfirst ▸ hw
      rw [Cursor.expectIdentifier, if_neg hne]
      exact congrArg Except.ok (Prod.ext hfirst rfl)
  fun_induction readTypeName c generalizing front with
  | case1 => cases h
  | case2 c modifier next hi hm _ ih =>
    have hskip : rest.length ≤ next.skipTrivia.rest.length :=
      Nat.le_trans hle (passes_of_readTypeName h).reaches.rest_le
    have hnext : rest.length ≤ next.rest.length :=
      Nat.le_trans hskip next.reaches_skipTrivia.rest_le
    obtain ⟨next', hi', hr'⟩ := hword hi hr hnext
    obtain ⟨d', hd'⟩ := ih next'.skipTrivia h (Cursor.skipTrivia_of_rest hr' hskip)
    refine ⟨d', ?_⟩
    rw [readTypeName]
    split
    next hf =>
      rw [hi'] at hf
      cases hf
    next hf =>
      rw [hi'] at hf
      cases hf
      rw [if_pos hm]
      exact hd'
  | case3 c word' next hi hm =>
    cases h
    obtain ⟨next', hi', -⟩ := hword hi hr hle
    refine ⟨next', ?_⟩
    rw [readTypeName]
    split
    next hf =>
      rw [hi'] at hf
      cases hf
    next hf =>
      rw [hi'] at hf
      cases hf
      exact if_neg hm

theorem peek_of_readTypeName {word : String} (h : readTypeName c = .ok (word, d)) :
    ∃ b, c.peek = some b ∧ isIdentifierStart b = true := by
  rw [readTypeName] at h
  split at h
  · cases h
  next hi => exact Cursor.peek_of_expectIdentifier hi

theorem onBoundary_of_start {b : UInt8} (hp : c.peek = some b) (hb : isIdentifierStart b = true) :
    c.OnBoundary :=
  Cursor.onBoundary_of_peek hp
    (Cursor.isAscii_of_isIdentifierContinue (by simp [isIdentifierContinue, hb]))

/-- A text is its trimmed form with white space behind it. -/
theorem exists_trimRight (cs : List Char) :
    ∃ blanks, (∀ x ∈ blanks, isWhiteSpace x = true) ∧ cs = trimRight cs ++ blanks := by
  refine ⟨(cs.reverse.takeWhile isWhiteSpace).reverse, fun x hx => ?_, ?_⟩
  · exact List.all_eq_true.1 List.all_takeWhile x (List.mem_reverse.1 hx)
  · rw [trimRight, ← List.reverse_append, List.takeWhile_append_dropWhile, List.reverse_reverse]

/-- No identifier starts with white space. -/
theorem not_mem_encodeChars_of_start {blanks : List Char} {b : UInt8}
    (h : ∀ x ∈ blanks, isWhiteSpace x = true) (hb : isIdentifierStart b = true) :
    b ∉ encodeChars blanks := by
  intro hm
  have hascii := Cursor.isAscii_of_isIdentifierContinue
    (show isIdentifierContinue b = true by simp [isIdentifierContinue, hb])
  obtain ⟨offset, hlt, ho⟩ := List.getElem_of_mem hm
  obtain ⟨front, x, back, hx, -, hbytes⟩ :=
    exists_char_of_ascii (List.getElem?_eq_some_iff.2 ⟨hlt, ho⟩) hascii
  have hwhite := h x (by rw [hx]; simp)
  have hcode : x.toNat = b.toNat := toNat_of_utf8EncodeChar hbytes
  simp only [isIdentifierStart, isLetter, underscore, Bool.or_eq_true, Bool.and_eq_true,
    decide_eq_true_eq, beq_iff_eq, UInt8.le_iff_toNat_le, ← UInt8.toNat_inj,
    UInt8.reduceToNat] at hb
  simp only [isWhiteSpace, Bool.or_eq_true, Bool.and_eq_true, decide_eq_true_eq, beq_iff_eq,
    hcode] at hwhite
  omega

/-- How a data member is read: a type name, then from some place on a name, and all up to a
semicolon. -/
structure ReadsMember (c : Cursor) (m : Member) (d : Cursor) (typeName : String)
    (typed name stop : Cursor) : Prop where
  typeName_eq : readTypeName c = .ok (typeName, typed)
  typed_reaches : typed.Reaches name
  name_start : ∃ b, name.peek = some b ∧ isIdentifierStart b = true
  name_passes : name.Passes stop
  stop_peek : stop.peek = some semicolon
  declaration_eq : m.declaration = String.ofList (trimRight (c.textUntil stop).toList)
  next_eq : d = stop.advance 1

theorem peek_of_findSemicolon (h : findSemicolon c = .ok d) : d.peek = some semicolon := by
  unfold findSemicolon at h
  dsimp only at h
  split at h
  next hp =>
    cases h
    exact hp
  next => cases h

theorem reaches_of_readType {type : MemberType} (h : readType c = .ok (type, d)) :
    ∃ word next, readTypeName c = .ok (word, next) ∧ next.Reaches d := by
  simp only [readType, Reading.bind_eq_ok] at h
  obtain ⟨⟨word, next⟩, hword, h⟩ := h
  refine ⟨word, next, hword, next.reaches_skipTrivia.trans ?_⟩
  dsimp only at h
  split at h
  · exact reaches_of_readGeneric h
  · cases h
    exact .refl _

theorem readsMember_of_readMember {m : Member} (h : readMember c = .ok (some m, d)) :
    ∃ typeName typed name stop, ReadsMember c m d typeName typed name stop := by
  simp only [readMember, Reading.bind_eq_ok] at h
  obtain ⟨⟨type, typed⟩, htype, ⟨name, named⟩, hname, h⟩ := h
  obtain ⟨word, next, hword, hnext⟩ := reaches_of_readType htype
  dsimp only at h
  split at h
  · simp only [Reading.bind_eq_ok] at h
    obtain ⟨_, _, h⟩ := h
    cases h
  · simp only [readData, Reading.bind_eq_ok] at h
    obtain ⟨_, ⟨⟨length, counted⟩, hlength, stop, hstop, hm⟩, h⟩ := h
    cases hm
    cases h
    exact ⟨word, next, typed.skipTrivia, stop, {
      typeName_eq := hword
      typed_reaches := hnext.trans typed.reaches_skipTrivia
      name_start := Cursor.peek_of_expectIdentifier hname
      name_passes := (Cursor.passes_of_expectIdentifier hname).trans
        (named.reaches_skipTrivia.trans
          ((reaches_of_readArrayLength hlength).trans (reaches_of_findSemicolon hstop)))
      stop_peek := peek_of_findSemicolon hstop
      declaration_eq := rfl
      next_eq := rfl }⟩

namespace ReadsMember

variable {m : Member} {typeName : String} {typed name stop : Cursor}

theorem reaches_name (h : ReadsMember c m d typeName typed name stop) : c.Reaches name :=
  (passes_of_readTypeName h.typeName_eq).reaches.trans h.typed_reaches

/-- What is read up to the semicolon is the declaration with white space behind it. -/
theorem spells_stop (h : ReadsMember c m d typeName typed name stop)
    (hc : Cursor.Within (encode source) c) :
    ∃ blanks, (∀ x ∈ blanks, isWhiteSpace x = true) ∧
      c.Spells (encode m.declaration ++ encodeChars blanks) stop := by
  have hreaches : c.Reaches stop := h.reaches_name.trans h.name_passes.reaches
  obtain ⟨b, hp, hb⟩ := peek_of_readTypeName h.typeName_eq
  have htext := hc.encode_textUntil hreaches (onBoundary_of_start hp hb)
    (Cursor.onBoundary_of_peek h.stop_peek rfl)
  obtain ⟨blanks, hblanks, htrim⟩ := exists_trimRight (c.textUntil stop).toList
  refine ⟨blanks, hblanks, ?_⟩
  rw [h.declaration_eq, encode_ofList, ← encodeChars_append, ← htrim, ← encode_eq_encodeChars,
    htext]
  exact hreaches.spells

theorem spells (h : ReadsMember c m d typeName typed name stop)
    (hc : Cursor.Within (encode source) c) :
    ∃ blanks, (∀ x ∈ blanks, isWhiteSpace x = true) ∧
      c.Spells (encode m.declaration ++ (encodeChars blanks ++ [semicolon])) d := by
  obtain ⟨blanks, hblanks, hspells⟩ := h.spells_stop hc
  refine ⟨blanks, hblanks, ?_⟩
  rw [← List.append_assoc]
  refine Cursor.spells_append.2 ⟨stop, hspells, ?_, h.next_eq⟩
  obtain ⟨rest, hr⟩ := List.head?_eq_some_iff.1 h.stop_peek
  rw [h.next_eq, Cursor.rest_advance, hr]
  rfl

/-- The name stands in the declaration, and so does the type name in front of it. -/
theorem typeName?_eq (h : ReadsMember c m d typeName typed name stop)
    (hc : Cursor.Within (encode source) c) : m.typeName? = some typeName := by
  obtain ⟨blanks, hblanks, hspells⟩ := h.spells_stop hc
  obtain ⟨b, hp, hb⟩ := h.name_start
  have hrest : c.rest = encode m.declaration ++ (encodeChars blanks ++ stop.rest) := by
    rw [hspells.rest_eq, List.append_assoc]
  have hlt : (encodeChars blanks ++ stop.rest).length ≤ name.rest.length := by
    have hname := h.reaches_name.spells.rest_eq
    have hstop := h.name_passes.reaches.spells
    rw [hstop.rest_eq, List.length_append, List.length_append]
    rw [hrest, hstop.rest_eq, ← List.append_assoc, ← List.append_assoc] at hname
    rcases List.append_eq_append_iff.1 (List.append_cancel_right hname) with
      ⟨more, -, hmore⟩ | ⟨more, -, hmore⟩
    · -- The name starts in the white space, which it cannot.
      refine absurd ?_ (not_mem_encodeChars_of_start hblanks hb)
      obtain ⟨rest, hr⟩ := List.head?_eq_some_iff.1 hp
      have hpos := h.name_passes.pos_lt
      obtain ⟨n, hn⟩ := Nat.exists_eq_succ_of_ne_zero (Nat.sub_ne_zero_of_lt hpos)
      rw [hmore, hr, hn, List.take_succ_cons]
      exact List.mem_append_right _ List.mem_cons_self
    · rw [hmore, List.length_append]
      omega
  obtain ⟨d', hd'⟩ := readTypeName_of_rest (.ofText m.declaration) h.typeName_eq hrest
    (Nat.le_trans hlt h.typed_reaches.rest_le)
  rw [Member.typeName?, hd']

end ReadsMember

/-! ## Definitions -/

/-- The declarations of members stand in these bytes one behind the other, each with a semicolon
behind it. -/
inductive Lists : List Member → List UInt8 → Prop
  | nil (bytes : List UInt8) : Lists [] bytes
  | cons {m : Member} {members : List Member} (gap : List UInt8) {blanks : List Char}
      {rest : List UInt8} : (∀ x ∈ blanks, isWhiteSpace x = true) → Lists members rest →
    Lists (m :: members)
      (gap ++ (encode m.declaration ++ (encodeChars blanks ++ semicolon :: rest)))

theorem Lists.behind {members : List Member} {bytes : List UInt8} (h : Lists members bytes)
    (front : List UInt8) : Lists members (front ++ bytes) := by
  cases h with
  | nil => exact .nil _
  | cons gap hblanks hrest =>
    rw [← List.append_assoc]
    exact .cons _ hblanks hrest

theorem Lists.ahead {members : List Member} {bytes : List UInt8} (h : Lists members bytes)
    (back : List UInt8) : Lists members (bytes ++ back) := by
  induction h with
  | nil => exact .nil _
  | cons gap hblanks _ ih =>
    simp only [List.append_assoc, List.cons_append]
    exact .cons gap hblanks ih

/-- A struct is written as these bytes: the word that opens it, its name unless it has none, and its
members. -/
def Written (s : Struct) (bytes : List UInt8) : Prop :=
  ∃ gap name rest, bytes = encode "struct" ++ (gap ++ (encode name ++ rest)) ∧
    (name = s.name ∨ name = "") ∧ Lists s.members rest

theorem Written.ne_nil {s : Struct} {bytes : List UInt8} (h : s.Written bytes) : bytes ≠ [] := by
  obtain ⟨gap, name, rest, rfl, -⟩ := h
  exact List.append_ne_nil_of_left_ne_nil (by decide) _

/-- The members that are read were read before or stand in the bytes that are passed. -/
theorem lists_of_readMembers {read members : List Member}
    (h : readMembers read c = .ok (members, d)) (hc : Cursor.Within (encode source) c) :
    ∃ new bytes, members = read.reverse ++ new ∧ c.Spells bytes d ∧ Lists new bytes ∧
      ∀ m ∈ new, m.typeName?.isSome := by
  fun_induction readMembers read c with
  | case1 => cases h
  | case2 read c =>
    cases h
    have hreaches := c.reaches_skipTrivia.trans (Cursor.reaches_advance _ 1)
    exact ⟨[], _, by simp, hreaches.spells, .nil _, List.forall_mem_nil _⟩
  | case3 => cases h
  | case4 read c _ _ _ member next hm _ ih =>
    have hskip := c.reaches_skipTrivia
    have hc' := hc.reaches hskip
    obtain ⟨new, bytes, rfl, hspells, hlists, htyped⟩ :=
      ih h (hc'.reaches (passes_of_readMember hm).reaches)
    cases member with
    | none =>
      have hgap := (hskip.trans (passes_of_readMember hm).reaches).spells
      exact ⟨new, _, rfl, Cursor.spells_append.2 ⟨next, hgap, hspells⟩, hlists.behind _, htyped⟩
    | some m =>
      obtain ⟨typeName, typed, name, stop, hread⟩ := readsMember_of_readMember hm
      obtain ⟨blanks, hblanks, hmember⟩ := hread.spells hc'
      have hall := Cursor.spells_append.2 ⟨_, hskip.spells,
        Cursor.spells_append.2 ⟨_, hmember, hspells⟩⟩
      rw [List.append_assoc, List.append_assoc, List.singleton_append] at hall
      have htype : m.typeName?.isSome := by
        rw [hread.typeName?_eq hc']
        rfl
      exact ⟨m :: new, _, by simp, hall, .cons _ hblanks hlists,
        List.forall_mem_cons.2 ⟨htype, htyped⟩⟩

/-- A definition is written as its name and its members in the bytes behind the word that opens
it. -/
theorem lists_of_read {definition : Definition} (h : read c = .ok (some definition, d))
    (hc : Cursor.Within (encode source) c) :
    (∃ gap rest, c.Spells (gap ++ (encode definition.name ++ rest)) d ∧
      Lists definition.members rest) ∧ ∀ m ∈ definition.members, m.typeName?.isSome := by
  unfold read at h
  dsimp only at h
  split at h
  · cases h
  next inside he =>
    simp only [Reading.bind_eq_ok] at h
    obtain ⟨⟨members, last⟩, hm, h⟩ := h
    cases h
    have hname := c.skipTrivia.spells_identifier
    have hopen := (Cursor.reaches_skipTrivia _).trans (Cursor.passes_of_eat? he).reaches
    have hinside := hc.reaches (c.reaches_skipTrivia.trans
      ((Cursor.reaches_identifier _).trans hopen))
    obtain ⟨new, bytes, rfl, hspells, hlists, htyped⟩ := lists_of_readMembers hm hinside
    have hall := Cursor.spells_append.2 ⟨_, c.reaches_skipTrivia.spells,
      Cursor.spells_append.2 ⟨_, hname, Cursor.spells_append.2 ⟨_, hopen.spells,
        Cursor.spells_append.2 ⟨_, hspells, (reaches_skipSemicolon last).spells⟩⟩⟩⟩
    exact ⟨⟨_, _, hall, (hlists.ahead _).behind _⟩, htyped⟩

end Struct

namespace Scan

variable {s next : Scan} {items : List Item} {definition : Struct.Definition} {place : Location}
  {range : ByteRange} {b : UInt8}

theorem not_struct_of_directive (h : s.directive = ⟨items, .ok next⟩) :
    .struct definition place range ∉ items := by
  unfold directive at h
  dsimp only at h
  split at h
  · unfold inclusion at h
    split at h <;> cases h
    simp
  split at h
  · unfold pragma at h
    dsimp only at h
    split at h
    · unfold contentPath at h
      dsimp only at h
      split at h <;> cases h
      simp
    split at h
    · unfold bindGroup at h
      split at h <;> cases h
      simp
    · cases h
      simp
  · cases h
    simp

theorem not_struct_of_bracket (h : s.bracket = ⟨items, .ok next⟩) :
    .struct definition place range ∉ items := by
  unfold bracket at h
  dsimp only at h
  split at h
  · cases h
  split at h
  · cases h
  · cases h
    simp [mem_groupUses]

/-- A struct that a step notices is read behind the word that opens it. -/
theorem read_of_step (h : s.step b = ⟨items, .ok next⟩)
    (hi : .struct definition place range ∈ items) :
    s.cursor.identifier.1 = "struct" ∧
      Struct.read s.cursor.identifier.2 = .ok (some definition, next.cursor) ∧
      range = s.cursor.rangeUntil next.cursor := by
  unfold step at h
  split at h
  · cases h
    cases hi
  split at h
  · cases h
    cases hi
  split at h
  · exact absurd hi (not_struct_of_directive h)
  split at h
  · exact absurd hi (not_struct_of_bracket h)
  split at h
  · unfold word at h
    dsimp only at h
    split at h
    · unfold resource at h
      split at h <;> cases h
      simp at hi
    split at h
    · unfold sampler at h
      split at h <;> cases h <;> simp at hi
    split at h
    next hword =>
      unfold struct at h
      split at h
      · cases h
      · cases h
        cases hi
      next hread =>
        cases h
        cases List.mem_singleton.1 hi
        exact ⟨hword, hread, rfl⟩
    split at h
    · unfold function at h
      dsimp only at h
      split at h <;> cases h
      simp at hi
    · cases h
      cases hi
  · cases h
    cases hi

end Scan

/-! ## The structs of a text -/

theorem Cursor.Spells.slice_eq {text bytes : List UInt8} {c d : Cursor} (h : c.Spells bytes d)
    (hc : Within text c) : (c.rangeUntil d).slice text = bytes := by
  have hpos : d.pos = c.pos + bytes.length := by
    rw [h.advance_eq, pos_advance, h.rest_eq, List.length_append]
    omega
  rw [rangeUntil, ByteRange.slice, hpos, Nat.add_sub_cancel_left, ← hc.rest_eq, h.rest_eq,
    List.take_left]

theorem Outline.written_of_mem {source : String} {definition : Struct.Definition}
    {place : Location} {range : ByteRange} (hf : (ofText source).failure = none)
    (h : .struct definition place range ∈ (ofText source).items) :
    (∃ gap rest, range.slice (encode source) =
        encode "struct" ++ (gap ++ (encode definition.name ++ rest)) ∧
      Struct.Lists definition.members rest) ∧ ∀ m ∈ definition.members, m.typeName?.isSome := by
  obtain ⟨s, next, b, items, hreach, hp, hs, hi⟩ := exists_step_of_mem hf h
  obtain ⟨hword, hread, rfl⟩ := Scan.read_of_step hs hi
  have hc : Cursor.Within (encode source) s.cursor :=
    (Cursor.within_ofText source).reaches (Scan.reaches_of_goesOn hreach)
  obtain ⟨⟨gap, rest, hspells, hlists⟩, htyped⟩ :=
    Struct.lists_of_read hread (hc.reaches (Cursor.reaches_identifier _))
  have hall := Cursor.spells_append.2 ⟨_, s.cursor.spells_identifier, hspells⟩
  rw [hword] at hall
  exact ⟨⟨gap, rest, hall.slice_eq hc, hlists⟩, htyped⟩

/-- The range of a struct definition. -/
def Item.structRange? : Item → Option ByteRange
  | .struct _ _ range => some range
  | _ => none

namespace Declarations

theorem Gathers.structRanges {d d' : Declarations} {entries : List Entry}
    (h : Gathers d entries d') :
    d'.structs.map Struct.range = d.structs.map Struct.range ++
      entries.filterMap fun e => e.item.structRange?.map (rootRange e.inRoot) := by
  induction h with
  | nil => simp
  | @cons d d₁ d₂ e rest ha _ ih =>
    rw [ih, List.filterMap_cons]
    generalize e.item = item at ha
    cases ha with
    | struct =>
      rw [List.map_append, List.append_assoc]
      rfl
    | _ => rfl

theorem Gathers.nodup_structs {d d' : Declarations} {entries : List Entry}
    (h : Gathers d entries d') (hd : (d.structs.map Struct.name).Nodup) :
    (d'.structs.map Struct.name).Nodup := by
  induction h with
  | nil => exact hd
  | @cons d d₁ d₂ e rest ha _ ih =>
    refine ih ?_
    generalize e.item = item at ha
    cases ha with
    | struct hnew =>
      rw [List.map_append, List.nodup_append]
      refine ⟨hd, List.pairwise_singleton _ _, ?_⟩
      rintro _ hm _ hs rfl
      obtain ⟨s, hs', heq⟩ := List.mem_map.1 hm
      have hne := List.find?_eq_none.1 hnew s hs'
      rw [heq, List.mem_singleton.1 hs] at hne
      exact hne (beq_self_eq_true _)
    | _ => exact hd

variable {includes : Includes} {file source : String} {d : Declarations} {s : Struct}

theorem nodup_structs (h : ofRoot includes file source = .ok d) :
    (d.structs.map Struct.name).Nodup :=
  (gathers_of_ofRoot h).2.nodup_structs List.nodup_nil

theorem eq_of_name {t : Struct} (h : ofRoot includes file source = .ok d) (hs : s ∈ d.structs)
    (ht : t ∈ d.structs) (hname : s.name = t.name) : s = t :=
  List.inj_on_of_nodup_map (nodup_structs h) hs ht hname

/-- The structs of the root file are gathered in the order of its text. -/
theorem structRanges_eq (h : ofRoot includes file source = .ok d) :
    d.structs.filterMap Struct.range =
      (Outline.ofText source).items.filterMap Item.structRange? := by
  obtain ⟨hcomplete, hg⟩ := gathers_of_ofRoot h
  have hone : ∀ e : Entry, (e.item.structRange?.map (rootRange e.inRoot)).bind id =
      if e.inRoot then e.item.structRange? else none := by
    intro e
    cases e.item.structRange? <;> cases e.inRoot <;> rfl
  have hmap : d.structs.filterMap Struct.range = (d.structs.map Struct.range).filterMap id := by
    rw [List.filterMap_map]
    rfl
  rw [hmap, hg.structRanges, ← Expansion.rootItems_ofRoot hcomplete, List.filterMap_map,
    List.filterMap_filter, List.map_nil, List.nil_append, List.filterMap_filterMap]
  exact congrArg (List.filterMap · _) (funext hone)

/-- The structs of the root file lie one behind the other. -/
theorem structs_apart (h : ofRoot includes file source = .ok d) :
    d.structs.Pairwise fun s t =>
      ∀ a, s.range = some a → ∀ b, t.range = some b → a.stop ≤ b.start := by
  have hp := ((run_of_ofRoot h).ranges (Cursor.within_ofText source)).1
  have hitems : ((Outline.ofText source).items.filterMap Item.structRange?).Pairwise
      fun a b => a.stop ≤ b.start := by
    rw [List.pairwise_filterMap] at hp ⊢
    refine hp.imp fun {x y} hxy a ha b hb => hxy a ?_ b ?_
    · cases x <;> first | exact ha | cases ha
    · cases y <;> first | exact hb | cases hb
  rw [← structRanges_eq h] at hitems
  exact List.pairwise_filterMap.1 hitems

theorem structs_disjoint {t : Struct} {a b : ByteRange} (h : ofRoot includes file source = .ok d)
    (hs : s ∈ d.structs) (ht : t ∈ d.structs) (hne : s ≠ t) (ha : s.range = some a)
    (hb : t.range = some b) : a.stop ≤ b.start ∨ b.stop ≤ a.start := by
  have hp := structs_apart h
  refine List.Pairwise.forall_of_forall_of_flip
    (R := fun s t => s ≠ t → ∀ a, s.range = some a → ∀ b, t.range = some b →
      a.stop ≤ b.start ∨ b.stop ≤ a.start) ?_ ?_ ?_ hs ht hne a ha b hb
  · exact fun x _ hne => absurd rfl hne
  · exact hp.imp fun hxy _ a ha b hb => .inl (hxy a ha b hb)
  · exact hp.imp fun hxy _ a ha b hb => .inr (hxy b hb a ha)

/-- A struct of the root file is written where its range says. -/
theorem written_of_mem {r : ByteRange} (h : ofRoot includes file source = .ok d)
    (hs : s ∈ d.structs) (hr : s.range = some r) : s.Written (r.slice (encode source)) := by
  obtain ⟨hcomplete, hg⟩ := gathers_of_ofRoot h
  rcases hg.mem_structs hs with hs | ⟨e, he, definition, place, range, hi, hname, hmembers, hrange⟩
  · cases hs
  · rw [hr] at hrange
    cases hroot : e.inRoot with
    | false => simp [rootRange, hroot] at hrange
    | true =>
      obtain rfl : r = range := by simpa [rootRange, hroot] using hrange
      have hitem : .struct definition place r ∈ (Outline.ofText source).items := by
        rw [← Expansion.rootItems_ofRoot hcomplete]
        exact List.mem_map.2 ⟨e, List.mem_filter.2 ⟨he, hroot⟩, hi⟩
      obtain ⟨⟨gap, rest, hslice, hlists⟩, -⟩ :=
        Outline.written_of_mem (Expansion.complete_ofFile hcomplete).1 hitem
      exact ⟨gap, definition.name, rest, hslice, hname, hmembers ▸ hlists⟩

/-- Every member has a type name. -/
theorem typed_of_mem (h : ofRoot includes file source = .ok d) (hs : s ∈ d.structs) :
    ∀ m ∈ s.members, m.typeName?.isSome := by
  obtain ⟨hcomplete, hg⟩ := gathers_of_ofRoot h
  rcases hg.mem_structs hs with hs | ⟨e, he, definition, place, range, hi, -, hmembers, -⟩
  · cases hs
  · obtain ⟨text, hf, hitem, -⟩ := Expansion.origin_ofFile hcomplete he
    rw [hmembers]
    exact (Outline.written_of_mem hf (hi ▸ hitem)).2

end Declarations

end BindlessHlsl
