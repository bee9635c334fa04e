import BindlessHlsl.Proofs.FailurePlaces
import BindlessHlsl.Proofs.IncludeStack
import BindlessHlsl.Proofs.Nesting
import BindlessHlsl.Proofs.ScanMoves

/-!
Which bytes of a text belong to comments, read from its first byte on, and where resources stand
beside them. A reader of the text is in one mode at each byte (`TextMode`): two slashes open a
comment up to the next newline, a slash and a star one up to the closing mark, and string literals
are passed over. The scan follows such a reader over comments, literals and words
(`Scan.fresh_or_exists_misreads`). It takes the line of a directive and a declaration as a whole,
and goes on behind it in code even where that is inside of a comment (`Scan.Misreads`).
-/

namespace BindlessHlsl

open Ascii Relation Utf8

/-! ## Modes -/

/-- What a reader of a text is in the midst of. -/
inductive TextMode where
  | code
  /-- Behind a slash that opens a comment if another slash or a star follows. -/
  | slash
  | line
  | block
  /-- In a block comment, behind a star that closes it if a slash follows. -/
  | star
  | literal
  /-- In a literal, behind a backslash. -/
  | escape
  deriving DecidableEq, Repr

namespace TextMode

/-- The mode behind a byte of code. -/
def ofCode (b : UInt8) : TextMode :=
  if b = Ascii.slash then .slash else if b = doubleQuote then .literal else .code

/-- The mode behind a byte. -/
def next : TextMode → UInt8 → TextMode
  | .code, b => ofCode b
  | .slash, b => if b = Ascii.slash then .line else if b = Ascii.star then .block else ofCode b
  | .line, b => if b = newline then .code else .line
  | .block, b => if b = Ascii.star then .star else .block
  | .star, b => if b = Ascii.slash then .code else if b = Ascii.star then .star else .block
  | .literal, b =>
    if b = backslash then .escape else if b = doubleQuote ∨ b = newline then .code else .literal
  | .escape, _ => .literal

/-- The mode behind bytes. -/
def after (m : TextMode) (bytes : List UInt8) : TextMode := bytes.foldl next m

/-- Whether a comment was opened and not closed. -/
def inComment : TextMode → Bool
  | .line | .block | .star => true
  | _ => false

theorem inComment_ofCode (b : UInt8) : (ofCode b).inComment = false := by
  unfold ofCode
  split
  · rfl
  split <;> rfl

theorem eq_slash_of_ofCode {b : UInt8} (h : ofCode b = .slash) : b = Ascii.slash := by
  unfold ofCode at h
  split at h
  · assumption
  split at h <;> cases h

/-- In a comment only the newline behind a line comment leads to where it leads in code. -/
theorem eq_newline_of_next {m : TextMode} {b : UInt8} (hm : m.inComment = true)
    (h : m.next b = ofCode b) : m = .line ∧ b = newline := by
  have hcode : (m.next b).inComment = false := h ▸ inComment_ofCode b
  cases m with
  | line =>
    by_cases hb : b = newline
    · exact ⟨rfl, hb⟩
    · rw [next, if_neg hb] at hcode
      cases hcode
  | block =>
    rw [next] at hcode
    split at hcode <;> cases hcode
  | star =>
    by_cases hb : b = Ascii.slash
    · rw [hb] at h
      cases h
    · simp only [next, if_neg hb] at hcode
      split at hcode <;> cases hcode
  | code | slash | literal | escape => cases hm

theorem mark_of_next_slash {b : UInt8} (h : (slash.next b).inComment = true) :
    b = Ascii.slash ∨ b = Ascii.star := by
  apply Classical.byContradiction
  intro hb
  rw [not_or] at hb
  simp only [next, if_neg hb.1, if_neg hb.2, inComment_ofCode] at h
  cases h

theorem after_append (m : TextMode) (front back : List UInt8) :
    m.after (front ++ back) = (m.after front).after back := List.foldl_append

theorem after_code {bytes : List UInt8}
    (h : ∀ b ∈ bytes, b ≠ Ascii.slash ∧ b ≠ doubleQuote) : code.after bytes = .code := by
  induction bytes with
  | nil => rfl
  | cons b rest ih =>
    obtain ⟨⟨hs, hq⟩, hrest⟩ := List.forall_mem_cons.1 h
    have hb : code.next b = .code := by rw [next, ofCode, if_neg hs, if_neg hq]
    rw [after, List.foldl_cons, hb]
    exact ih hrest

theorem after_line {bytes : List UInt8} (h : ∀ b ∈ bytes, b ≠ newline) :
    line.after bytes = .line := by
  induction bytes with
  | nil => rfl
  | cons b rest ih =>
    obtain ⟨hb, hrest⟩ := List.forall_mem_cons.1 h
    have hb : line.next b = .line := by rw [next, if_neg hb]
    rw [after, List.foldl_cons, hb]
    exact ih hrest

/-- A block comment is closed where it ends, unless the text ends there. A star that no slash
follows changes nothing. -/
theorem after_block (m : TextMode) (bytes : List UInt8)
    (h : ∀ b, bytes.head? = some b → m.next b = block.next b) :
    bytes.drop (Lexeme.blockCommentRest bytes) = [] ∨
      m.after (bytes.take (Lexeme.blockCommentRest bytes)) = .code := by
  induction bytes generalizing m with
  | nil => exact .inl rfl
  | cons b rest ih =>
    have hb := h b rfl
    rw [Lexeme.blockCommentRest]
    split
    next hclose =>
      obtain ⟨more, rfl⟩ := List.head?_eq_some_iff.1 hclose.2
      refine .inr ?_
      rw [hclose.1] at hb ⊢
      simp only [List.take_succ_cons, List.take_zero, after, List.foldl_cons, List.foldl_nil, hb]
      rfl
    next hopen =>
      rw [Nat.add_comm, List.drop_succ_cons, List.take_succ_cons, after, List.foldl_cons, hb]
      refine ih _ fun d hd => ?_
      rw [next]
      split
      next hstar =>
        have hslash : d ≠ Ascii.slash := fun hslash => hopen ⟨hstar, hslash ▸ hd⟩
        simp only [next, if_neg hslash]
      next => rfl

/-- A literal is closed where it ends, unless the line or the text ends there. -/
theorem after_literal (bytes : List UInt8) :
    bytes.drop (Lexeme.stringRest bytes) = [] ∨
      literal.after (bytes.take (Lexeme.stringRest bytes)) = .code ∨
      literal.after (bytes.take (Lexeme.stringRest bytes)) = .literal ∧
        (bytes.drop (Lexeme.stringRest bytes)).head? = some newline := by
  fun_induction Lexeme.stringRest bytes with
  | case1 => exact .inl rfl
  | case2 => exact .inr (.inr ⟨rfl, rfl⟩)
  | case3 => exact .inl rfl
  | case4 d rest ih =>
    rw [Nat.add_comm, List.drop_succ_cons, List.drop_succ_cons, List.take_succ_cons,
      List.take_succ_cons]
    exact ih
  | case5 => exact .inr (.inl rfl)
  | case6 => exact .inr (.inr ⟨rfl, rfl⟩)
  | case7 b d rest hb hq hn ih =>
    have hstep : literal.next b = .literal := by
      simp only [next, if_neg hb, hq, hn, or_self, if_false]
    rw [Nat.add_comm, List.drop_succ_cons, List.take_succ_cons, after, List.foldl_cons, hstep]
    exact ih

end TextMode

theorem Lexeme.comment_line (rest : List UInt8) :
    Lexeme.comment (slash :: slash :: rest) = 2 + (rest.takeWhile (· != newline)).length := by
  rw [Lexeme.comment, if_pos ⟨rfl, rfl⟩]

theorem Lexeme.comment_block (rest : List UInt8) :
    Lexeme.comment (slash :: star :: rest) = 2 + Lexeme.blockCommentRest rest := by
  rw [Lexeme.comment, if_neg (by decide), if_pos ⟨rfl, rfl⟩]

/-- The mode of a reader at an offset of a text. -/
def modeAt (text : String) (offset : Nat) : TextMode :=
  TextMode.code.after ((encode text).take offset)

/-- The byte at an offset of a text belongs to a comment: it is inside of one, or belongs to the
mark that opens one. The newline behind a line comment does not belong to it. -/
def InComment (text : String) (offset : Nat) : Prop :=
  offset < Utf8.length text ∧
    ((modeAt text offset).inComment = true ∧
        ¬(modeAt text offset = .line ∧ (encode text)[offset]? = some newline) ∨
      modeAt text offset = .slash ∧ (modeAt text (offset + 1)).inComment = true ∨
      modeAt text (offset + 1) = .slash ∧ (modeAt text (offset + 2)).inComment = true)

/-! ## Cursors -/

namespace Cursor

variable {c d : Cursor} {n : Nat} {b : UInt8} {text : String}

theorem atComment_iff : c.atComment = true ↔
    ∃ mark rest, c.rest = slash :: mark :: rest ∧ (mark = slash ∨ mark = star) := by
  rw [atComment, bne_iff_ne]
  constructor
  · intro h
    unfold Lexeme.comment at h
    split at h
    next b mark rest hr =>
      split at h
      next hmarks => exact ⟨mark, rest, by rw [hr, hmarks.1], .inl hmarks.2⟩
      next =>
        split at h
        next hmarks => exact ⟨mark, rest, by rw [hr, hmarks.1], .inr hmarks.2⟩
        next => exact absurd rfl h
    next => exact absurd rfl h
  · rintro ⟨mark, rest, hr, rfl | rfl⟩
    · rw [hr, Lexeme.comment_line]
      omega
    · rw [hr, Lexeme.comment_block]
      omega

/-- The mode of a reader at a cursor. -/
def mode (c : Cursor) : TextMode := TextMode.code.after c.before.reverse

theorem mode_advance (c : Cursor) (n : Nat) :
    (c.advance n).mode = c.mode.after (c.rest.take n) := by
  rw [mode, before_advance, List.reverse_append, List.reverse_reverse, TextMode.after_append]
  rfl

theorem modeAt_add (h : Within (encode text) c) (n : Nat) :
    modeAt text (c.pos + n) = c.mode.after (c.rest.take n) := by
  rw [modeAt, ← h.bytes_eq, bytes, h.pos_eq, ← List.length_reverse, List.take_length_add_append,
    TextMode.after_append]
  rfl

/-- A reader goes on from the cursor as in code. -/
def Fresh (c : Cursor) : Prop := ∀ b, c.peek = some b → c.mode.next b = TextMode.code.next b

theorem fresh_of_mode (h : c.mode = .code) : c.Fresh := fun b _ => by rw [h]

theorem fresh_of_end (h : c.rest = []) : c.Fresh := by
  intro b hp
  rw [peek, h] at hp
  cases hp

namespace Fresh

theorem mode_advance (h : c.Fresh) (hr : c.rest ≠ []) (hn : n ≠ 0) :
    (c.advance n).mode = TextMode.code.after (c.rest.take n) := by
  obtain ⟨n, rfl⟩ := Nat.exists_eq_succ_of_ne_zero hn
  rw [Cursor.mode_advance]
  cases hb : c.rest with
  | nil => exact absurd hb hr
  | cons b rest =>
    have hnext := h b (by rw [peek, hb]; rfl)
    rw [List.take_succ_cons, TextMode.after, TextMode.after, List.foldl_cons, List.foldl_cons,
      hnext]

/-- Bytes that open neither a comment nor a literal lead from code to code. -/
theorem advance (h : c.Fresh)
    (hb : ∀ b ∈ c.rest.take n, b ≠ slash ∧ b ≠ doubleQuote) : (c.advance n).Fresh := by
  by_cases hr : c.rest = []
  · rwa [advance_of_rest_nil hr]
  by_cases hn : n = 0
  · rwa [hn]
  · exact fresh_of_mode ((h.mode_advance hr hn).trans (TextMode.after_code hb))

theorem identifier (h : c.Fresh) : c.identifier.2.Fresh := by
  refine h.advance fun b hb => ?_
  have hw := isIdentifierContinue_of_mem_take hb
  exact ⟨ne_of_isIdentifierContinue hw rfl, ne_of_isIdentifierContinue hw rfl⟩

/-- A slash that opens no comment leads from code to code as well. -/
theorem byte (h : c.Fresh) (hp : c.peek = some b) (hc : c.atComment = false)
    (hq : b ≠ doubleQuote) : (c.advance 1).Fresh := by
  obtain ⟨rest, hr⟩ := List.head?_eq_some_iff.1 hp
  by_cases hs : b = slash
  · intro d hd
    rw [hs] at hr
    have hmode : (c.advance 1).mode = .slash := by
      rw [h.mode_advance (by simp [hr]) Nat.one_ne_zero, hr]
      rfl
    rw [peek, rest_advance, hr, List.drop_succ_cons, List.drop_zero] at hd
    obtain ⟨more, rfl⟩ := List.head?_eq_some_iff.1 hd
    have hmark : ¬(d = slash ∨ d = star) := fun hmark =>
      Bool.eq_false_iff.1 hc (atComment_iff.2 ⟨d, more, hr, hmark⟩)
    rw [not_or] at hmark
    simp only [hmode, TextMode.next, if_neg hmark.1, if_neg hmark.2]
  · refine h.advance ?_
    rw [hr, List.take_succ_cons, List.take_zero]
    exact List.forall_mem_singleton.2 ⟨hs, hq⟩

theorem skipComment (h : c.Fresh) (hc : c.atComment = true) : c.skipComment.Fresh := by
  obtain ⟨mark, rest, hr, hmark⟩ := atComment_iff.1 hc
  have hne : c.rest ≠ [] := by simp [hr]
  rw [skipComment_eq, hr]
  rcases hmark with rfl | rfl
  · rw [Lexeme.comment_line, Nat.add_comm]
    have hmode := h.mode_advance hne (Nat.succ_ne_zero ((rest.takeWhile (· != newline)).length + 1))
    rw [hr, List.take_succ_cons, List.take_succ_cons, take_length_takeWhile] at hmode
    have hline : (c.advance ((rest.takeWhile (· != newline)).length + 2)).mode = .line := by
      refine hmode.trans (TextMode.after_line fun b hb => ?_)
      exact bne_iff_ne.1 (List.all_eq_true.1 List.all_takeWhile b hb)
    intro b hb
    have hn := List.head?_dropWhile_not (· != newline) rest
    rw [peek, rest_advance, hr, List.drop_succ_cons, List.drop_succ_cons,
      drop_length_takeWhile] at hb
    rw [hb] at hn
    obtain rfl : b = newline := by simpa using hn
    rw [hline]
    rfl
  · rw [Lexeme.comment_block, Nat.add_comm]
    have hmode := h.mode_advance hne (Nat.succ_ne_zero (Lexeme.blockCommentRest rest + 1))
    rw [hr, List.take_succ_cons, List.take_succ_cons] at hmode
    rcases TextMode.after_block .block rest fun _ _ => rfl with hend | hclosed
    · exact fresh_of_end (by rw [rest_advance, hr, List.drop_succ_cons, List.drop_succ_cons, hend])
    · exact fresh_of_mode (hmode.trans hclosed)

theorem skipString (h : c.Fresh) (hp : c.peek = some doubleQuote) : c.skipString.Fresh := by
  obtain ⟨rest, hr⟩ := List.head?_eq_some_iff.1 hp
  have hne : c.rest ≠ [] := by simp [hr]
  rw [Cursor.skipString, hr, Lexeme.stringLiteral, if_pos rfl, Nat.add_comm]
  have hmode := h.mode_advance hne (Nat.succ_ne_zero (Lexeme.stringRest rest))
  rw [hr, List.take_succ_cons] at hmode
  have hrest :
      (c.advance (Lexeme.stringRest rest + 1)).rest = rest.drop (Lexeme.stringRest rest) := by
    rw [rest_advance, hr, List.drop_succ_cons]
  rcases TextMode.after_literal rest with hend | hclosed | ⟨hopen, hn⟩
  · exact fresh_of_end (hrest.trans hend)
  · exact fresh_of_mode (hmode.trans hclosed)
  · intro b hb
    rw [peek, hrest, hn] at hb
    cases hb
    rw [hmode.trans hopen]
    rfl

theorem skipTrivia (h : c.Fresh) : c.skipTrivia.Fresh := by
  rw [skipTrivia_eq]
  generalize hr : c.rest = bytes
  fun_induction Lexeme.trivia bytes generalizing c with
  | case1 => exact h
  | case2 b rest hb ih =>
    have hstep : (c.advance 1).Fresh := by
      refine h.advance ?_
      rw [hr, List.take_succ_cons, List.take_zero]
      refine List.forall_mem_singleton.2 ?_
      constructor <;> rintro rfl <;> cases hb
    rw [← advance_advance]
    exact ih hstep (by simp [hr])
  | case3 => exact h
  | case4 b rest hb n hn ih =>
    have hstep := h.skipComment (by simp [atComment, hr, hn])
    rw [skipComment_eq, hr, hn] at hstep
    rw [← advance_advance]
    exact ih hstep (by simp [hr])

/-- Where a reader goes on as in code and no comment starts, the next byte belongs to none. -/
theorem not_inComment (h : c.Fresh) (hw : Within (encode text) c) (hc : c.atComment = false) :
    ¬InComment text c.pos := by
  rintro ⟨hlt, hin⟩
  have hmode : modeAt text c.pos = c.mode := modeAt_add hw 0
  rw [modeAt_add hw 1, modeAt_add hw 2, hmode] at hin
  cases hr : c.rest with
  | nil =>
    have hend := hw.pos_add_rest
    rw [hr, length_encode, List.length_nil] at hend
    omega
  | cons b rest =>
    have hp : c.peek = some b := by rw [peek, hr]; rfl
    have hnext : c.mode.next b = TextMode.ofCode b := h b hp
    have hone : c.mode.after (c.rest.take 1) = TextMode.ofCode b := by rw [hr]; exact hnext
    rw [hone] at hin
    rcases hin with ⟨hcomment, hnot⟩ | ⟨-, hcomment⟩ | ⟨hslash, hcomment⟩
    · obtain ⟨hline, rfl⟩ := TextMode.eq_newline_of_next hcomment hnext
      exact hnot ⟨hline, hw.peek_eq ▸ hp⟩
    · rw [TextMode.inComment_ofCode] at hcomment
      cases hcomment
    · obtain rfl := TextMode.eq_slash_of_ofCode hslash
      rw [hr, List.take_succ_cons, TextMode.after, List.foldl_cons, hnext, hslash] at hcomment
      cases rest with
      | nil => cases hcomment
      | cons mark more =>
        have hmark := TextMode.mark_of_next_slash hcomment
        exact Bool.eq_false_iff.1 hc (atComment_iff.2 ⟨mark, more, hr, hmark⟩)

end Fresh

end Cursor

/-! ## The scan beside a reader -/

namespace Scan

variable {text : String} {s next : Scan} {b : UInt8} {items : List Item}

/-- What a step passes as a whole, comments and literals in it unread: the line of a directive, or
something that is noticed. -/
def TakesWhole (s next : Scan) : Prop :=
  s.cursor.peek = some hash ∨
    ∃ b items, s.cursor.peek = some b ∧ s.step b = ⟨items, .ok next⟩ ∧ items ≠ []

/-- The scan goes on as in code where a reader does not. The reader followed it up to a step that
takes something as a whole, with a slash or a quote in it, and is in another mode at each place
since. -/
structure Misreads (text : String) (s next last : Scan) : Prop where
  scanned : ReflTransGen GoesOn (.ofText text) s
  fresh : s.cursor.Fresh
  goesOn : s.GoesOn next
  takesWhole : s.TakesWhole next
  hidden : ∃ b ∈ s.cursor.rest.take (next.cursor.pos - s.cursor.pos), b = slash ∨ b = doubleQuote
  stale : ¬next.cursor.Fresh
  behind : ReflTransGen (fun a b => a.GoesOn b ∧ ¬b.cursor.Fresh) next last

/-- A reader follows one step of the scan, unless the step takes something as a whole. -/
theorem fresh_or_takesWhole (h : s.cursor.Fresh) (hp : s.cursor.peek = some b)
    (hs : s.step b = ⟨items, .ok next⟩) : next.cursor.Fresh ∨ s.TakesWhole next := by
  cases moves_of_step hp hs with
  | comment hc hn => exact .inl (hn ▸ h.skipComment hc)
  | literal hq hn => exact .inl (hn ▸ h.skipString hq)
  | directive hhash _ => exact .inr (.inl hhash)
  | word _ _ hn => exact .inl (hn ▸ h.identifier)
  | reference _ _ hn => exact .inl (hn ▸ h.identifier.skipTrivia.identifier.skipTrivia)
  | byte hp' hc hq _ hn => exact .inl (hn ▸ h.byte hp' hc hq)
  | declaration _ _ hitems _ => exact .inr (.inr ⟨b, items, hp, hs, hitems⟩)

theorem fresh_or_misreads (hr : ReflTransGen GoesOn (.ofText text) s) (h : s.cursor.Fresh)
    (hg : s.GoesOn next) : next.cursor.Fresh ∨ Misreads text s next next := by
  refine Classical.or_iff_not_imp_left.2 fun hstale => ?_
  obtain ⟨b, items, hp, hs⟩ := hg
  have hwhole := (fresh_or_takesWhole h hp hs).resolve_left hstale
  refine ⟨hr, h, ⟨b, items, hp, hs⟩, hwhole, ?_, hstale, .refl⟩
  apply Classical.byContradiction
  intro hplain
  have hpass := (step_progress hp next (by rw [hs])).reaches
  refine hstale ?_
  rw [hpass.eq_advance]
  exact h.advance fun b hb => not_or.1 fun hor => hplain ⟨b, hb, hor⟩

/-- At each place where the scan stops, a reader is in code, or the scan misreads the text. -/
theorem fresh_or_exists_misreads {last : Scan} (h : ReflTransGen GoesOn (.ofText text) last) :
    last.cursor.Fresh ∨ ∃ s next, Misreads text s next last := by
  induction h with
  | refl => exact .inl (Cursor.fresh_of_mode rfl)
  | @tail last after hreach hstep ih =>
    rcases ih with hfresh | ⟨s, next, hmisreads⟩
    · exact (fresh_or_misreads hreach hfresh hstep).imp_right fun hm => ⟨_, _, hm⟩
    · refine Classical.or_iff_not_imp_left.2 fun hstale => ⟨s, next, ?_⟩
      exact { hmisreads with behind := hmisreads.behind.tail ⟨hstep, hstale⟩ }

theorem not_atComment_of_step (hs : s.step b = ⟨items, .ok next⟩) (hi : items ≠ []) :
    s.cursor.atComment = false := by
  refine Bool.eq_false_iff.2 fun hc => ?_
  rw [step, if_pos hc] at hs
  exact hi (Step.mk.inj hs).1.symm

end Scan

/-! ## Offsets of locations -/

namespace Location

theorem behind_append_ne {more before : List UInt8} (h : more ≠ []) :
    behind (more ++ before) ≠ behind before := by
  intro he
  obtain ⟨hline, hcolumn⟩ := Location.mk.inj he
  by_cases hn : newline ∈ more
  · have hpos := List.count_pos_iff.2 hn
    rw [List.count_append] at hline
    omega
  · -- Within one line the column grows.
    have hne : ∀ b ∈ more, (b != newline) = true := fun b hb =>
      bne_iff_ne.2 fun he => hn (he ▸ hb)
    have hpos := List.length_pos_iff.2 h
    rw [List.takeWhile_append_of_pos hne, List.length_append] at hcolumn
    omega

theorem ofOffset_ne_of_lt {text : String} {p q : Nat} (h : p < q) (hq : q ≤ Utf8.length text) :
    ofOffset text p ≠ ofOffset text q := by
  rw [ofOffset, ofOffset, ← Nat.add_sub_of_le (Nat.le_of_lt h), List.take_add, List.reverse_append]
  refine Ne.symm (behind_append_ne ?_)
  rw [← length_encode] at hq
  apply List.ne_nil_of_length_pos
  rw [List.length_reverse, List.length_take, List.length_drop]
  omega

/-- Different offsets of a text have different locations. -/
theorem ofOffset_injective {text : String} {p q : Nat} (hp : p ≤ Utf8.length text)
    (hq : q ≤ Utf8.length text) (h : ofOffset text p = ofOffset text q) : p = q := by
  rcases Nat.lt_trichotomy p q with hlt | heq | hlt
  · exact absurd h (ofOffset_ne_of_lt hlt hq)
  · exact heq
  · exact absurd h.symm (ofOffset_ne_of_lt hlt hp)

/-- A location is that of a byte of a text and of no other offset. -/
structure IsAt (place : Location) (text : String) (offset : Nat) : Prop where
  lt : offset < Utf8.length text
  eq : ofOffset text offset = place
  unique : ∀ other ≤ Utf8.length text, ofOffset text other = place → other = offset

end Location

theorem Cursor.Reaches.isAt {text : String} {c : Cursor} {b : UInt8}
    (h : (Cursor.ofText text).Reaches c) (hp : c.peek = some b) :
    c.location.IsAt text c.pos := by
  have hw := (Cursor.within_ofText text).reaches h
  refine ⟨?_, h.location_eq.symm, fun other ho he => ?_⟩
  · rw [hw.peek_eq] at hp
    exact length_encode text ▸ (List.getElem?_eq_some_iff.1 hp).1
  · exact Location.ofOffset_injective ho h.pos_le_length (he.trans h.location_eq)

/-! ## Resources -/

/-- Whether an item includes a file. -/
def Item.isInclusion : Item → Bool
  | .inclusion .. => true
  | _ => false

instance decidableInclusionFree (items : List Item) : Decidable (Item.InclusionFree items) :=
  decidable_of_iff (∀ item ∈ items, item.isInclusion = false) <| by
    constructor
    · intro h path place hm
      exact nomatch h _ hm
    · intro h item hm
      cases item with
      | inclusion path place => exact absurd hm (h path place)
      | _ => rfl

namespace Shader

variable {includes : Includes} {file source : String} {shader : Shader} {r : Resource}

/-- A resource of a shader without included files stands where the scan comes to it. -/
theorem exists_scan_of_resource (h : ofSource includes file source = .ok shader)
    (hfree : Item.InclusionFree (Outline.ofText source).items) (hr : r ∈ shader.resources) :
    ∃ s next b items, ReflTransGen Scan.GoesOn (.ofText source) s ∧ s.cursor.peek = some b ∧
      s.step b = ⟨items, .ok next⟩ ∧ items ≠ [] ∧ s.cursor.location = r.location := by
  obtain ⟨d, hroot, hgenerate⟩ := ofSource_eq_ok h
  obtain ⟨hcomplete, hgathers⟩ := Declarations.gathers_of_ofRoot hroot
  obtain ⟨declared, hm, hslot⟩ := exists_declared hgenerate hr
  have hlocation : declared.unslotted.location = r.unslotted.location := by rw [hslot]
  rw [hgathers.resources] at hm
  obtain ⟨e, he, hdeclared⟩ : ∃ e ∈ (Expansion.ofRoot includes file source).entries,
      e.item.resource? = some declared := by simpa using hm
  obtain ⟨text, hlinks, hi⟩ := Expansion.exists_links_of_mem hcomplete he
  obtain rfl : text = source := by
    rcases hlinks.cases_head with heq | ⟨_, ⟨path, place, hinclusion, _⟩, _⟩
    · exact heq.symm
    · exact absurd hinclusion (hfree path place)
  obtain ⟨s, next, b, items, hreach, hp, hs, hi⟩ :=
    Outline.exists_step_of_mem (Expansion.complete_ofFile hcomplete).1 hi
  refine ⟨s, next, b, items, hreach, hp, hs, List.ne_nil_of_mem hi, ?_⟩
  generalize e.item = item at hi hdeclared
  cases item with
  | resource =>
    cases hdeclared
    refine Eq.trans ?_ hlocation
    exact ((Scan.notices_of_step hp hs).resource_eq hi).1.symm
  | _ => cases hdeclared

/-- A resource of a shader without included files stands outside of all comments, unless the scan
misreads the text before it. -/
theorem resource_outside_or_misread (h : ofSource includes file source = .ok shader)
    (hfree : Item.InclusionFree (Outline.ofText source).items) (r : Resource)
    (hr : r ∈ shader.resources) :
    ∃ offset, r.location.IsAt source offset ∧
      (¬InComment source offset ∨
        ∃ s next last, Scan.Misreads source s next last ∧ last.cursor.pos = offset) := by
  obtain ⟨s, next, b, items, hreach, hp, hs, hitems, hlocation⟩ :=
    exists_scan_of_resource h hfree hr
  have hmoved := Scan.reaches_of_goesOn hreach
  refine ⟨s.cursor.pos, hlocation ▸ Cursor.Reaches.isAt hmoved hp, ?_⟩
  rcases Scan.fresh_or_exists_misreads hreach with hfresh | ⟨first, second, hmisreads⟩
  · have hw := (Cursor.within_ofText source).reaches hmoved
    exact .inl (hfresh.not_inComment hw (Scan.not_atComment_of_step hs hitems))
  · exact .inr ⟨first, second, s, hmisreads, rfl⟩

/-- A resource behind comments that hold others. -/
theorem exists_resource_outside_or_misread :
    let source := "// Texture2D a;\nstring s = \"/*\"; /* Texture2D b; */\nTexture2D t;\n"
    ∃ shader, ofSource (.ofFiles []) "f.hlsl" source = .ok shader ∧
      Item.InclusionFree (Outline.ofText source).items ∧ ∃ r ∈ shader.resources, r.name = "t" ∧
      ∃ offset, r.location.IsAt source offset ∧
        (¬InComment source offset ∨
          ∃ s next last, Scan.Misreads source s next last ∧ last.cursor.pos = offset) := by
  intro source
  have hplan : planned (.ofFiles []) "f.hlsl" source = .ok (some ⟨.combined, 4, 0⟩) := by
    decide +kernel
  obtain ⟨shader, h⟩ := exists_ofSource hplan
  have hfree : Item.InclusionFree (Outline.ofText source).items := by decide +kernel
  have hroot : (Declarations.ofRoot (.ofFiles []) "f.hlsl" source).map
      (fun d => Resource.table d.resources) =
      .ok [⟨.texture2D, none, "t", .default, some 0, [], ⟨3, 1⟩⟩] := by decide +kernel
  have hr := Except.ok.inj (hroot.symm.trans (resources_ofRoot h)) ▸ List.mem_singleton_self _
  exact ⟨shader, h, hfree, _, hr, rfl, resource_outside_or_misread h hfree _ hr⟩

/-- The newline that ends a directive lies in a comment here. The scan goes on behind it in code. -/
theorem directive_exposes_comment :
    let source := "#define COUNT 4 /* was:\nTexture2D old;\n*/\n"
    ∃ shader, ofSource (.ofFiles []) "f.hlsl" source = .ok shader ∧
      Item.InclusionFree (Outline.ofText source).items ∧
      ∃ r ∈ shader.resources, r.location.IsAt source 24 ∧ InComment source 24 := by
  intro source
  have hplan : planned (.ofFiles []) "f.hlsl" source = .ok (some ⟨.combined, 4, 0⟩) := by
    decide +kernel
  obtain ⟨shader, h⟩ := exists_ofSource hplan
  have hfree : Item.InclusionFree (Outline.ofText source).items := by decide +kernel
  have hroot : (Declarations.ofRoot (.ofFiles []) "f.hlsl" source).map
      (fun d => Resource.table d.resources) =
      .ok [⟨.texture2D, none, "old", .default, some 0, [], ⟨2, 1⟩⟩] := by decide +kernel
  have hr := Except.ok.inj (hroot.symm.trans (resources_ofRoot h)) ▸ List.mem_singleton_self _
  refine ⟨shader, h, hfree, _, hr, ⟨by decide +kernel, by decide +kernel, ?_⟩, ?_⟩
  · intro other ho he
    refine Location.ofOffset_injective ho (by decide +kernel) (he.trans ?_)
    decide +kernel
  · unfold InComment
    decide +kernel

end Shader

end BindlessHlsl
