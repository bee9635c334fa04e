import BindlessHlsl.Proofs.Utf8
import BindlessHlsl.Reading

/-!
Cursors and the text they stand in. A cursor that was moved through a text stands at the offset that
it reports, between the bytes that it keeps (`Cursor.Within`). Where the byte on either side of it
is below 128 it does not cut a character apart (`Cursor.OnBoundary`), and an identifier that was
read is spelled by the bytes that were passed (`Cursor.encode_identifier`).
-/

namespace BindlessHlsl

open Ascii Utf8

namespace Cursor

/-! ## Places -/

theorem before_bump {c : Cursor} {b : UInt8} {rest : List UInt8} (h : c.rest = b :: rest) :
    c.bump.before = b :: c.before := by
  rw [bump, h]
  dsimp only
  split <;> rfl

theorem pos_bump {c : Cursor} {b : UInt8} {rest : List UInt8} (h : c.rest = b :: rest) :
    c.bump.pos = c.pos + 1 := by
  rw [bump, h]
  dsimp only
  split <;> rfl

theorem before_advance (c : Cursor) (n : Nat) :
    (c.advance n).before = (c.rest.take n).reverse ++ c.before := by
  induction n generalizing c with
  | zero => simp
  | succ n ih =>
    cases hr : c.rest with
    | nil => simp [advance_of_rest_nil hr]
    | cons b rest =>
      rw [advance_succ (by simp [hr]), ih, before_bump hr]
      simp [hr]

theorem pos_advance (c : Cursor) (n : Nat) : (c.advance n).pos = c.pos + min n c.rest.length := by
  induction n generalizing c with
  | zero => simp
  | succ n ih =>
    cases hr : c.rest with
    | nil => simp [advance_of_rest_nil hr]
    | cons b rest =>
      rw [advance_succ (by simp [hr]), ih, pos_bump hr]
      simp only [rest_bump, hr, List.drop_succ_cons, List.drop_zero, List.length_cons]
      omega

theorem Reaches.pos_le {a b : Cursor} : a.Reaches b → a.pos ≤ b.pos := by
  rintro ⟨n, rfl⟩
  rw [pos_advance]
  omega

theorem Passes.pos_lt {a b : Cursor} : a.Passes b → a.pos < b.pos := by
  rintro ⟨n, ha, rfl⟩
  have := List.length_pos_iff.2 ha
  rw [pos_advance]
  omega

/-- The cursor stands in a text, at the offset that it reports. -/
structure Within (text : List UInt8) (c : Cursor) : Prop where
  bytes_eq : c.bytes = text
  pos_eq : c.pos = c.before.length

theorem within_ofText (source : String) : Within (encode source) (ofText source) := ⟨rfl, rfl⟩

theorem Within.advance {text : List UInt8} {c : Cursor} (h : Within text c) (n : Nat) :
    Within text (c.advance n) where
  bytes_eq := by
    rw [← h.bytes_eq, bytes, before_advance, rest_advance]
    simp [bytes]
  pos_eq := by
    rw [before_advance, pos_advance, h.pos_eq]
    simp
    omega

theorem Within.reaches {text : List UInt8} {c d : Cursor} (h : Within text c) :
    c.Reaches d → Within text d := by
  rintro ⟨n, rfl⟩
  exact h.advance n

theorem Within.peek_eq {text : List UInt8} {c : Cursor} (h : Within text c) :
    c.peek = text[c.pos]? := by
  rw [← h.bytes_eq, bytes, List.getElem?_append_right (by simp [h.pos_eq]), peek]
  simp [h.pos_eq, List.head?_eq_getElem?]

theorem Within.getElem?_before {text : List UInt8} {c : Cursor} {b : UInt8} (h : Within text c)
    (hb : c.before.head? = some b) : text[c.pos - 1]? = some b := by
  obtain ⟨rest, hr⟩ := List.head?_eq_some_iff.1 hb
  rw [← h.bytes_eq, bytes, h.pos_eq, hr]
  simp

theorem Within.pos_le {text : List UInt8} {c : Cursor} (h : Within text c) :
    c.pos ≤ text.length := by
  rw [← h.bytes_eq, bytes, h.pos_eq]
  simp

/-! ## Character boundaries -/

/-- The byte in front of the cursor or the one behind it, if there is one, is below 128. -/
def OnBoundary (c : Cursor) : Prop :=
  (∀ b, c.before.head? = some b → isAscii b = true) ∨
    ∀ b, c.rest.head? = some b → isAscii b = true

theorem onBoundary_of_peek {c : Cursor} {b : UInt8} (h : c.peek = some b)
    (hb : isAscii b = true) : c.OnBoundary := by
  refine .inr fun d hd => ?_
  rw [peek, hd] at h
  cases h
  exact hb

/-- A cursor that does not cut a character apart stands at a boundary of its text. -/
theorem OnBoundary.isBoundary {source : String} {c : Cursor} (h : c.OnBoundary)
    (hc : Within (encode source) c) : IsBoundary source.toList c.pos := by
  have hp := hc.peek_eq
  rw [encode_eq_encodeChars] at hp
  rcases h with hb | hr
  · cases hbefore : c.before with
    | nil => exact ⟨[], source.toList, rfl, by simp [hc.pos_eq, hbefore]⟩
    | cons b rest =>
      have ht := hc.getElem?_before (b := b) (by simp [hbefore])
      rw [encode_eq_encodeChars] at ht
      have hpos : c.pos = c.pos - 1 + 1 := by
        have := hc.pos_eq
        simp [hbefore] at this
        omega
      rw [hpos]
      exact isBoundary_succ_of_ascii ht (hb b (by simp [hbefore]))
  · cases hrest : c.rest with
    | nil =>
      refine ⟨source.toList, [], by simp, ?_⟩
      rw [← length_eq_charsLength, ← length_encode, ← hc.bytes_eq, bytes, hrest, hc.pos_eq]
      simp
    | cons b rest =>
      rw [peek, hrest] at hp
      exact isBoundary_of_ascii hp.symm (hr b (by simp [hrest]))

theorem head?_before_advance {c : Cursor} {n : Nat} {b : UInt8}
    (h : (c.rest.take n).getLast? = some b) : (c.advance n).before.head? = some b := by
  rw [before_advance, List.head?_append, List.head?_reverse, h]
  rfl

theorem onBoundary_advance_of_last {c : Cursor} {n : Nat} {b : UInt8}
    (h : (c.rest.take n).getLast? = some b) (hb : isAscii b = true) :
    (c.advance n).OnBoundary := by
  refine .inl fun d hd => ?_
  rw [head?_before_advance h] at hd
  cases hd
  exact hb

theorem head?_before_of_peek {c : Cursor} {b : UInt8} (h : c.peek = some b) :
    (c.advance 1).before.head? = some b := by
  obtain ⟨rest, hr⟩ := List.head?_eq_some_iff.1 h
  exact head?_before_advance (by simp [hr])

theorem onBoundary_advance_of_peek {c : Cursor} {b : UInt8} (h : c.peek = some b)
    (hb : isAscii b = true) : (c.advance 1).OnBoundary := by
  refine .inl fun d hd => ?_
  rw [head?_before_of_peek h] at hd
  cases hd
  exact hb

theorem head?_before_of_eat? {c d : Cursor} {b : UInt8} (h : c.eat? b = some d) :
    d.before.head? = some b := by
  unfold eat? at h
  split at h
  next hp =>
    cases h
    exact head?_before_of_peek hp
  next => cases h

theorem onBoundary_of_eat? {c d : Cursor} {b : UInt8} (h : c.eat? b = some d)
    (hb : isAscii b = true) : d.OnBoundary := by
  refine .inl fun e he => ?_
  rw [head?_before_of_eat? h] at he
  cases he
  exact hb

theorem onBoundary_of_expectByte {c d : Cursor} {b : UInt8} {what : Expectation}
    (h : c.expectByte b what = .ok d) (hb : isAscii b = true) : d.OnBoundary := by
  unfold expectByte at h
  split at h
  next next he =>
    cases h
    exact onBoundary_of_eat? he hb
  next => cases h

theorem take_length_takeWhile (p : UInt8 → Bool) (bytes : List UInt8) :
    bytes.take (bytes.takeWhile p).length = bytes.takeWhile p :=
  (List.prefix_iff_eq_take.1 (List.takeWhile_prefix p)).symm

theorem drop_length_takeWhile (p : UInt8 → Bool) (bytes : List UInt8) :
    bytes.drop (bytes.takeWhile p).length = bytes.dropWhile p := by
  have h := List.take_append_drop (bytes.takeWhile p).length bytes
  rw [take_length_takeWhile] at h
  exact List.append_cancel_left (h.trans List.takeWhile_append_dropWhile.symm)

theorem OnBoundary.skipWhile {c : Cursor} {p : UInt8 → Bool} (h : c.OnBoundary)
    (hp : ∀ b, p b = true → isAscii b = true) : (c.skipWhile p).OnBoundary := by
  unfold Cursor.skipWhile
  cases hl : (c.rest.takeWhile p).getLast? with
  | none => simpa [List.getLast?_eq_none_iff.1 hl] using h
  | some b =>
    refine onBoundary_advance_of_last (by rwa [take_length_takeWhile]) (hp b ?_)
    exact List.all_eq_true.1 List.all_takeWhile b (List.mem_of_getLast? hl)

theorem isAscii_of_isInlineBlank {b : UInt8} (h : isInlineBlank b = true) : isAscii b = true := by
  simp only [isInlineBlank, Bool.or_eq_true, beq_iff_eq] at h
  rcases h with (rfl | rfl) | rfl <;> rfl

theorem isAscii_of_isBlank {b : UInt8} (h : isBlank b = true) : isAscii b = true := by
  simp only [isBlank, Bool.or_eq_true, beq_iff_eq] at h
  rcases h with (h | rfl) | rfl
  · exact isAscii_of_isInlineBlank h
  · rfl
  · rfl

theorem isAscii_of_isIdentifierContinue {b : UInt8} (h : isIdentifierContinue b = true) :
    isAscii b = true := by
  simp only [isIdentifierContinue, isIdentifierStart, isLetter, isDigit, underscore,
    Bool.or_eq_true, Bool.and_eq_true, decide_eq_true_eq, beq_iff_eq, UInt8.le_iff_toNat_le,
    ← UInt8.toNat_inj, UInt8.reduceToNat] at h
  simp only [isAscii, decide_eq_true_eq, UInt8.lt_iff_toNat_lt, UInt8.reduceToNat]
  omega

theorem OnBoundary.skipInline {c : Cursor} (h : c.OnBoundary) : c.skipInline.OnBoundary :=
  h.skipWhile fun _ => isAscii_of_isInlineBlank

/-- A block comment ends with its closing mark or with the text. -/
theorem blockCommentRest_end (bytes : List UInt8) :
    bytes.drop (Lexeme.blockCommentRest bytes) = [] ∨
      (bytes.take (Lexeme.blockCommentRest bytes)).getLast? = some slash := by
  induction bytes with
  | nil => exact .inl rfl
  | cons b rest ih =>
    rw [Lexeme.blockCommentRest]
    split
    next h =>
      obtain ⟨more, rfl⟩ := List.head?_eq_some_iff.1 h.2
      exact .inr rfl
    next =>
      rw [Nat.add_comm, List.drop_succ_cons, List.take_succ_cons]
      refine ih.imp id fun h => ?_
      rw [List.getLast?_cons, h]
      rfl

theorem lineRest_end (continued : Bool) (bytes : List UInt8) :
    ∀ b, (bytes.drop (Lexeme.lineRest continued bytes)).head? = some b → b = newline := by
  induction bytes generalizing continued with
  | nil => simp
  | cons b rest ih =>
    rw [Lexeme.lineRest]
    split
    next hb =>
      split
      · rw [Nat.add_comm, List.drop_succ_cons]
        exact ih false
      · intro d hd
        cases hd
        exact hb
    next =>
      split <;> rw [Nat.add_comm, List.drop_succ_cons] <;> exact ih _

theorem onBoundary_skipLine (c : Cursor) : c.skipLine.OnBoundary := by
  refine .inr fun b hb => ?_
  rw [skipLine, rest_advance] at hb
  rw [lineRest_end false c.rest b hb]
  rfl

/-- A comment ends with its closing mark, at a newline or with the text. -/
theorem comment_end (bytes : List UInt8) :
    Lexeme.comment bytes = 0 ∨
      (∀ b, (bytes.drop (Lexeme.comment bytes)).head? = some b → b = newline) ∨
      (bytes.take (Lexeme.comment bytes)).getLast? = some slash := by
  fun_cases Lexeme.comment bytes with
  | case1 b mark rest =>
    refine .inr (.inl fun d hd => ?_)
    have hn := List.head?_dropWhile_not (fun b => b != newline) rest
    rw [Nat.add_comm, List.drop_succ_cons, List.drop_succ_cons, drop_length_takeWhile] at hd
    simpa [hd] using hn
  | case2 b mark rest =>
    refine .inr ?_
    rw [Nat.add_comm, List.drop_succ_cons, List.drop_succ_cons, List.take_succ_cons,
      List.take_succ_cons]
    rcases blockCommentRest_end rest with hd | hd
    · simp [hd]
    · refine .inr ?_
      rw [List.getLast?_cons, List.getLast?_cons, hd]
      rfl
  | case3 => exact .inl rfl
  | case4 => exact .inl rfl

theorem onBoundary_skipComment {c : Cursor} (h : c.atComment = true) :
    c.skipComment.OnBoundary := by
  rcases comment_end c.rest with h₀ | hn | hs
  · simp [atComment, h₀] at h
  · refine .inr fun b hb => ?_
    rw [skipComment_eq, rest_advance] at hb
    rw [hn b hb]
    rfl
  · rw [skipComment_eq]
    exact onBoundary_advance_of_last hs rfl

theorem OnBoundary.skipTrivia {c : Cursor} (h : c.OnBoundary) : c.skipTrivia.OnBoundary := by
  rw [skipTrivia_eq]
  generalize hr : c.rest = bytes
  fun_induction Lexeme.trivia bytes generalizing c with
  | case1 => exact h
  | case2 b rest hb ih =>
    rw [← advance_advance]
    exact ih (onBoundary_advance_of_last (by rw [hr]; rfl) (isAscii_of_isBlank hb)) (by simp [hr])
  | case3 => exact h
  | case4 b rest _ n hn ih =>
    have hc : c.skipComment = c.advance (n + 1) := by rw [skipComment_eq, hr, hn]
    rw [← advance_advance, ← hc]
    exact ih (onBoundary_skipComment (by simp [atComment, hr, hn])) (by simp [hc, hr])

end Cursor

/-! ## Identifiers -/

/-- A text spelled as an identifier. -/
def IsIdentifier (word : String) : Prop :=
  ∃ b rest, encode word = b :: rest ∧ isIdentifierStart b = true ∧
    ∀ d ∈ rest, isIdentifierContinue d = true

instance decidableIsIdentifier : DecidablePred IsIdentifier := fun word =>
  match he : encode word with
  | [] => isFalse fun ⟨_, _, hcons, _⟩ => nomatch he.symm.trans hcons
  | b :: rest =>
    decidable_of_iff ((isIdentifierStart b && rest.all isIdentifierContinue) = true) <| by
      rw [Bool.and_eq_true, List.all_eq_true]
      refine ⟨fun h => ⟨b, rest, he, h⟩, ?_⟩
      rintro ⟨_, _, hcons, h⟩
      cases he.symm.trans hcons
      exact h

theorem IsIdentifier.forall_mem {word : String} (h : IsIdentifier word) :
    ∀ b ∈ encode word, isIdentifierContinue b = true := by
  obtain ⟨b, rest, he, hb, hr⟩ := h
  rw [he]
  intro d hd
  rcases List.mem_cons.1 hd with rfl | hd
  · simp [isIdentifierContinue, hb]
  · exact hr d hd

theorem IsIdentifier.encode_ne_nil {word : String} (h : IsIdentifier word) : encode word ≠ [] := by
  obtain ⟨b, rest, he, _, _⟩ := h
  simp [he]

namespace Cursor

theorem take_identifier (bytes : List UInt8) :
    bytes.take (Lexeme.identifier bytes) = [] ∨
      ∃ b rest, bytes.take (Lexeme.identifier bytes) = b :: rest ∧ isIdentifierStart b = true ∧
        ∀ d ∈ rest, isIdentifierContinue d = true := by
  fun_cases Lexeme.identifier bytes with
  | case1 => exact .inl rfl
  | case2 b rest hb =>
    refine .inr ⟨b, rest.takeWhile isIdentifierContinue, ?_, hb, fun d hd => ?_⟩
    · rw [Nat.add_comm, List.take_succ_cons, take_length_takeWhile]
    · exact List.all_eq_true.1 List.all_takeWhile d hd
  | case3 => exact .inl rfl

/-- An identifier is spelled by the bytes that were passed. -/
theorem encode_identifier (c : Cursor) :
    encode c.identifier.1 = c.rest.take (Lexeme.identifier c.rest) := by
  refine encode_decode_of_ascii fun d hd => ?_
  rcases take_identifier c.rest with h | ⟨b, rest, h, hb, hr⟩
  · simp [h] at hd
  · rw [h] at hd
    rcases List.mem_cons.1 hd with rfl | hd
    · exact isAscii_of_isIdentifierContinue (by simp [isIdentifierContinue, hb])
    · exact isAscii_of_isIdentifierContinue (hr d hd)

theorem isIdentifier_of_ne_empty {c : Cursor} (h : c.identifier.1 ≠ "") :
    IsIdentifier c.identifier.1 := by
  rcases take_identifier c.rest with h₀ | ⟨b, rest, hb⟩
  · exact absurd (encode_injective (by rw [encode_identifier, h₀]; rfl)) h
  · exact ⟨b, rest, (encode_identifier c).trans hb.1, hb.2⟩

theorem onBoundary_identifier {c : Cursor} (h : c.identifier.1 ≠ "") :
    c.identifier.2.OnBoundary := by
  have hw := isIdentifier_of_ne_empty h
  obtain ⟨b, hb⟩ := Option.ne_none_iff_exists'.1
    (mt List.getLast?_eq_none_iff.1 hw.encode_ne_nil)
  refine onBoundary_advance_of_last (b := b) (by rw [← encode_identifier, hb]) ?_
  exact isAscii_of_isIdentifierContinue (hw.forall_mem b (List.mem_of_getLast? hb))

theorem identifier_of_expectIdentifier {c d : Cursor} {word : String} {what : Expectation}
    (h : c.expectIdentifier what = .ok (word, d)) :
    IsIdentifier word ∧ d.OnBoundary := by
  unfold expectIdentifier at h
  split at h
  next => cases h
  next hw =>
    have he : c.identifier = (word, d) := Except.ok.inj h
    have hi := isIdentifier_of_ne_empty hw
    have hb := onBoundary_identifier hw
    rw [he] at hi hb
    exact ⟨hi, hb⟩

end Cursor

end BindlessHlsl
