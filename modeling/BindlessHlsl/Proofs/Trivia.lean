import BindlessHlsl.Proofs.Blanks
import BindlessHlsl.Proofs.Comments

/-!
Blanks and comments between tokens. A text of them in which every comment is closed (`TriviaText`)
is passed over as a whole, by readers (`TriviaText.skipTrivia_eq`) as well as by the scan
(`Outline.ofScan_trivia`), and a word in front of it ends there (`TriviaText.ends_word`).
-/

namespace BindlessHlsl

open Ascii Utf8

/-- A comment that is closed, by the end of its line or by a mark. -/
inductive CommentText : String → Prop where
  | line {text : String} : newline ∉ encode text → CommentText ("//" ++ (text ++ "\n"))
  | block {text : String} : ¬[star, slash] <:+: encode text → CommentText ("/*" ++ (text ++ "*/"))

/-- Blanks and closed comments in any order. -/
inductive TriviaText : String → Prop where
  | nil : TriviaText ""
  | blanks {gap rest : String} : IsGap gap → TriviaText rest → TriviaText (gap ++ rest)
  | comment {comment rest : String} : CommentText comment → TriviaText rest →
      TriviaText (comment ++ rest)

/-- A block comment goes up to the first closing mark. -/
theorem Lexeme.blockCommentRest_of_close {bytes : List UInt8} (h : ¬[star, slash] <:+: bytes)
    (rest : List UInt8) : blockCommentRest (bytes ++ star :: slash :: rest) = bytes.length + 2 := by
  induction bytes with
  | nil => exact if_pos ⟨rfl, rfl⟩
  | cons b bytes ih =>
    have hopen : ¬(b = star ∧ (bytes ++ star :: slash :: rest).head? = some slash) := by
      rintro ⟨rfl, hhead⟩
      cases bytes with
      | nil => exact absurd (Option.some.inj hhead) (by decide)
      | cons b' bytes =>
        obtain rfl : b' = slash := Option.some.inj hhead
        exact h ⟨[], bytes, rfl⟩
    have hrest : ¬[star, slash] <:+: bytes := fun hinfix => h (List.infix_cons hinfix)
    rw [List.cons_append, blockCommentRest, if_neg hopen, ih hrest, List.length_cons]
    omega

theorem Cursor.skipTrivia_of_atComment {c : Cursor} (h : c.atComment = true) :
    c.skipTrivia = c.skipComment.skipTrivia := by
  obtain ⟨mark, rest, hr, -⟩ := atComment_iff.1 h
  have hblank : c.skipBlank = c := by
    refine skipBlank_of_peek fun b hb => ?_
    obtain rfl : slash = b := by simpa [peek, hr] using hb
    rfl
  rw [skipTrivia, hblank, if_pos h]

namespace CommentText

variable {c d : Cursor} {comment : String}

/-- A comment is passed over up to blanks at its end. -/
theorem skipComment (h : CommentText comment) (hc : c.Spells (encode comment) d) :
    c.atComment = true ∧
      ∃ bytes, c.skipComment.Spells bytes d ∧ ∀ b ∈ bytes, isBlank b = true := by
  cases h with
  | @line text hline =>
    have hsplit : encode ("//" ++ (text ++ "\n")) =
        ([slash, slash] ++ encode text) ++ [newline] := by
      simp only [encode_append, List.append_assoc]
      rfl
    rw [hsplit] at hc
    obtain ⟨e, hcomment, hend⟩ := Cursor.spells_append.1 hc
    have hrest : c.rest = slash :: slash :: (encode text ++ e.rest) := hcomment.rest_eq
    have htake : (encode text ++ e.rest).takeWhile (· != newline) = encode text := by
      rw [hend.rest_eq, List.takeWhile_append_of_pos]
      · simp
      · intro b hb
        simpa using ne_of_mem_of_not_mem hb hline
    refine ⟨Cursor.atComment_iff.2 ⟨_, _, hrest, .inl rfl⟩, [newline], ?_,
      List.forall_mem_singleton.2 rfl⟩
    have hskip : c.skipComment = e := by
      rw [Cursor.skipComment_eq, hrest, Lexeme.comment_line, htake, hcomment.advance_eq,
        List.length_append]
      rfl
    rwa [hskip]
  | @block text hblock =>
    have hsplit : encode ("/*" ++ (text ++ "*/")) =
        [slash, Ascii.star] ++ (encode text ++ [Ascii.star, slash]) := by
      simp only [encode_append]
      rfl
    rw [hsplit] at hc
    have hrest : c.rest = slash :: star :: (encode text ++ star :: slash :: d.rest) := by
      simpa using hc.rest_eq
    refine ⟨Cursor.atComment_iff.2 ⟨_, _, hrest, .inr rfl⟩, [], ?_, List.forall_mem_nil _⟩
    have hskip : c.skipComment = d := by
      rw [Cursor.skipComment_eq, hrest, Lexeme.comment_block,
        Lexeme.blockCommentRest_of_close hblock, hc.advance_eq, List.length_append,
        List.length_append]
      rfl
    rw [hskip]
    exact ⟨rfl, rfl⟩

end CommentText

namespace TriviaText

variable {c d : Cursor} {b : UInt8} {gap : String} {p : UInt8 → Bool}

theorem skipTrivia_eq (h : TriviaText gap) (hc : c.Spells (encode gap) d) :
    c.skipTrivia = d.skipTrivia := by
  induction h generalizing c with
  | nil =>
    obtain rfl : d = c := hc.advance_eq
    rfl
  | blanks hg _ ih =>
    obtain ⟨e, hgap, hrest⟩ := Cursor.spells_encode_append.1 hc
    rw [hgap.skipTrivia_gap hg, ih hrest]
  | comment hcomment _ ih =>
    obtain ⟨e, htext, hrest⟩ := Cursor.spells_encode_append.1 hc
    obtain ⟨hat, bytes, hbytes, hblank⟩ := hcomment.skipComment htext
    rw [Cursor.skipTrivia_of_atComment hat, Cursor.skipTrivia_of_blanks hbytes hblank, ih hrest]

/-- Trivia up to a mark. -/
theorem skipTrivia_mark (h : TriviaText gap) (hc : c.Spells (encode gap) d)
    (hd : d.peek = some b) (hb : isBlank b = false) (hs : b ≠ slash) : c.skipTrivia = d := by
  rw [h.skipTrivia_eq hc, Cursor.skipTrivia_of_peek hd hb hs]

theorem skipTrivia_atWord (h : TriviaText gap) (hc : c.Spells (encode gap) d) (hd : d.AtWord) :
    c.skipTrivia = d := by
  rw [h.skipTrivia_eq hc, hd.skipTrivia_eq]

/-- No byte of a class without blanks and slashes comes before trivia end. -/
theorem clear (h : TriviaText gap) (hc : c.Spells (encode gap) d)
    (hp : ∀ b, isBlank b = true → p b = false) (hs : p slash = false) (hd : d.Clear p) :
    c.Clear p := by
  induction h generalizing c with
  | nil =>
    obtain rfl : d = c := hc.advance_eq
    exact hd
  | blanks hg _ ih =>
    obtain ⟨e, hgap, hrest⟩ := Cursor.spells_encode_append.1 hc
    exact hgap.clear_gap hg hp (ih hrest)
  | comment hcomment =>
    obtain ⟨e, htext, -⟩ := Cursor.spells_encode_append.1 hc
    obtain ⟨mark, rest, hr, -⟩ := Cursor.atComment_iff.1 (hcomment.skipComment htext).1
    exact Cursor.clear_of_peek (b := slash) (by rw [Cursor.peek, hr]; rfl) hs

/-- A word in front of trivia ends there. -/
theorem ends_word (h : TriviaText gap) (hc : c.Spells (encode gap) d) (hd : d.peek = some b)
    (hb : isIdentifierContinue b = false) : c.Clear isIdentifierContinue :=
  h.clear hc (fun _ => isIdentifierContinue_of_isBlank) rfl (Cursor.clear_of_peek hd hb)

end TriviaText

end BindlessHlsl
