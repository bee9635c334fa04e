import BindlessHlsl.Cursor.Basic

/-!
How cursors of one text relate. A cursor reaches another if it gets there by moving forward, and
passes to it if it moves by at least one byte. Passing shortens what is left to read, so a loop
whose every round passes comes to an end.
-/

namespace BindlessHlsl

namespace Cursor

theorem skipBlank_of_peek {c : Cursor} (h : ∀ b, c.peek = some b → Ascii.isBlank b = false) :
    c.skipBlank = c := by
  cases hr : c.rest with
  | nil => simp [skipBlank, skipWhile, hr]
  | cons b rest => simp [skipBlank, skipWhile, hr, h b (by simp [peek, hr])]

/-- Blanks and comments are passed in turn, up to where there is none. -/
theorem skipTrivia_eq (c : Cursor) : c.skipTrivia = c.advance (Lexeme.trivia c.rest) := by
  generalize hr : c.rest = bytes
  fun_induction Lexeme.trivia bytes generalizing c with
  | case1 =>
    rw [skipTrivia, skipBlank_of_peek (by simp [peek, hr]),
      if_neg (by simp [atComment, hr, Lexeme.comment])]
    rfl
  | case2 b rest hb ih =>
    have hblank : c.skipBlank = (c.advance 1).skipBlank := by
      simp [skipBlank, skipWhile, hr, hb, advance_advance, Nat.add_comm]
    rw [← advance_advance, ← ih (c.advance 1) (by simp [hr]), skipTrivia, hblank]
    conv => rhs; rw [skipTrivia]
  | case3 b rest hb hn =>
    have hblank : c.skipBlank = c := skipBlank_of_peek (by simpa [peek, hr] using hb)
    rw [skipTrivia, hblank, if_neg (by simp [atComment, hr, hn])]
    rfl
  | case4 b rest hb n hn ih =>
    have hblank : c.skipBlank = c := skipBlank_of_peek (by simpa [peek, hr] using hb)
    have hcomment : c.skipComment = c.advance (n + 1) := by rw [skipComment_eq, hr, hn]
    rw [skipTrivia, hblank, if_pos (by simp [atComment, hr, hn]), hcomment,
      ih (c.advance (n + 1)) (by simp [hr]), advance_advance]

/-- One cursor gets to the other by moving forward. -/
def Reaches (a b : Cursor) : Prop := ∃ n, b = a.advance n

/-- One cursor gets to the other by moving forward at least one byte. -/
def Passes (a b : Cursor) : Prop := ∃ n, a.rest ≠ [] ∧ b = a.advance (n + 1)

theorem Reaches.refl (c : Cursor) : c.Reaches c := ⟨0, rfl⟩

theorem reaches_advance (c : Cursor) (n : Nat) : c.Reaches (c.advance n) := ⟨n, rfl⟩

theorem Reaches.trans {a b c : Cursor} : a.Reaches b → b.Reaches c → a.Reaches c := by
  rintro ⟨m, rfl⟩ ⟨n, rfl⟩
  exact ⟨m + n, advance_advance a m n⟩

theorem Passes.reaches {a b : Cursor} : a.Passes b → a.Reaches b
  | ⟨n, _, h⟩ => ⟨n + 1, h⟩

theorem Passes.trans {a b c : Cursor} : a.Passes b → b.Reaches c → a.Passes c := by
  rintro ⟨m, ha, rfl⟩ ⟨n, rfl⟩
  exact ⟨m + n, ha, by rw [advance_advance, Nat.add_right_comm]⟩

theorem Reaches.passes {a b c : Cursor} : a.Reaches b → b.Passes c → a.Passes c := by
  rintro ⟨m, rfl⟩ ⟨n, hb, rfl⟩
  refine ⟨m + n, fun ha => hb ?_, by rw [advance_advance, Nat.add_assoc]⟩
  simp [ha]

theorem Reaches.rest_le {a b : Cursor} : a.Reaches b → b.rest.length ≤ a.rest.length := by
  rintro ⟨n, rfl⟩
  simp

theorem Passes.rest_lt {a b : Cursor} : a.Passes b → b.rest.length < a.rest.length := by
  rintro ⟨n, ha, rfl⟩
  have := List.length_pos_iff.2 ha
  simp only [rest_advance, List.length_drop]
  omega

theorem passes_advance {c : Cursor} {n : Nat} (hr : c.rest ≠ []) (hn : n ≠ 0) :
    c.Passes (c.advance n) :=
  ⟨n - 1, hr, by congr; omega⟩

theorem rest_ne_nil_of_peek {c : Cursor} {b : UInt8} (h : c.peek = some b) : c.rest ≠ [] := by
  rintro hr
  simp [peek, hr] at h

theorem passes_of_peek {c : Cursor} {b : UInt8} (h : c.peek = some b) : c.Passes (c.advance 1) :=
  passes_advance (rest_ne_nil_of_peek h) (by omega)

theorem passes_of_eat? {c d : Cursor} {b : UInt8} (h : c.eat? b = some d) : c.Passes d := by
  unfold eat? at h
  split at h
  next hb =>
    cases h
    exact passes_of_peek hb
  next => cases h

theorem reaches_skipInline (c : Cursor) : c.Reaches c.skipInline := reaches_advance ..

theorem reaches_skipBlank (c : Cursor) : c.Reaches c.skipBlank := reaches_advance ..

theorem reaches_skipTrivia (c : Cursor) : c.Reaches c.skipTrivia := ⟨_, c.skipTrivia_eq⟩

theorem reaches_skipComment (c : Cursor) : c.Reaches c.skipComment := ⟨_, c.skipComment_eq⟩

theorem reaches_skipLine (c : Cursor) : c.Reaches c.skipLine := reaches_advance ..

theorem reaches_skipString (c : Cursor) : c.Reaches c.skipString := reaches_advance ..

theorem reaches_identifier (c : Cursor) : c.Reaches c.identifier.2 := reaches_advance ..

theorem reaches_valueToken (c : Cursor) : c.Reaches c.valueToken.2 := reaches_advance ..

theorem reaches_quoted (c : Cursor) : c.Reaches c.quoted.2 := by
  unfold quoted
  split
  · exact .refl c
  · split
    · dsimp only
      split <;> exact reaches_advance ..
    · exact .refl c

theorem reaches_value (c : Cursor) : c.Reaches c.value.2 := by
  have hq := c.reaches_quoted
  unfold value
  split
  next d hd =>
    have hr : c.Reaches d := by simpa [hd] using hq
    have ht := d.reaches_valueToken
    split
    next e he => exact hr.trans (by simpa [he] using ht)
    next token e _ he => exact hr.trans (by simpa [he] using ht)
  next => exact hq

theorem passes_skipComment {c : Cursor} (h : c.atComment = true) : c.Passes c.skipComment := by
  have hn : Lexeme.comment c.rest ≠ 0 := by simpa [atComment] using h
  rw [skipComment_eq]
  refine passes_advance (fun hr => hn ?_) hn
  rw [hr]; rfl

theorem passes_skipString {c : Cursor} (h : c.peek = some Ascii.doubleQuote) :
    c.Passes c.skipString := by
  refine passes_advance (rest_ne_nil_of_peek h) ?_
  cases hr : c.rest with
  | nil => simp [peek, hr] at h
  | cons b rest =>
    obtain rfl : b = Ascii.doubleQuote := by simpa [peek, hr] using h
    simp [Lexeme.stringLiteral]

theorem upcoming_zero (c : Cursor) : c.upcoming 0 = "" := by
  exact Utf8.decode_encode ""

theorem passes_identifier {c : Cursor} (h : c.identifier.1 ≠ "") : c.Passes c.identifier.2 := by
  have hn : Lexeme.identifier c.rest ≠ 0 := fun hn => h (by simp [identifier, hn, upcoming_zero])
  refine passes_advance (fun hr => hn ?_) hn
  rw [hr]; rfl

theorem passes_identifier_of_start {c : Cursor} {b : UInt8} (h : c.peek = some b)
    (hb : Ascii.isIdentifierStart b = true) : c.Passes c.identifier.2 := by
  refine passes_advance (rest_ne_nil_of_peek h) ?_
  cases hr : c.rest with
  | nil => simp [peek, hr] at h
  | cons d rest =>
    obtain rfl : d = b := by simpa [peek, hr] using h
    simp [Lexeme.identifier, hb]

end Cursor

end BindlessHlsl
