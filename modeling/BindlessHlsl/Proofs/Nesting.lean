import BindlessHlsl.Function.Reader
import BindlessHlsl.Proofs.CursorText
import BindlessHlsl.Struct.Reader

/-!
Readers look for a closing bracket in five places, each with a count of the brackets that are open.
All of them are one search (`Nesting.close`), which says where the count would fall below zero. A
search that starts with a bracket open, or at an opening one, never gets there and finds what its
reader finds (`Nesting.Follows.outcome_close`).
-/

namespace BindlessHlsl

open Ascii

namespace Cursor

variable {c : Cursor} {b : UInt8}

theorem not_atComment_of_end (h : c.peek = none) : ¬c.atComment = true := by
  have hr : c.rest = [] := by simpa [peek] using h
  rw [atComment, hr]
  decide

/-- A comment starts with a slash. -/
theorem not_atComment_of_peek (h : c.peek = some b) (hb : b ≠ slash) : ¬c.atComment = true := by
  obtain ⟨rest, hr⟩ := List.head?_eq_some_iff.1 h
  rw [atComment, hr]
  cases rest with
  | nil => exact Bool.false_ne_true
  | cons mark rest => simp [Lexeme.comment, hb]

end Cursor

/-- A search for the byte that closes what another byte opens. -/
structure Nesting where
  opening : UInt8
  closing : UInt8
  /-- Whether comments are passed over. -/
  comments : Bool := false
  /-- Whether string literals are passed over. -/
  strings : Bool := false
  /-- Bytes at which the search is given up. -/
  stops : List UInt8 := []

/-- How a search comes out. -/
inductive Closing where
  | closed (c : Cursor)
  | unclosed (c : Cursor)
  /-- More brackets are closed than were opened. -/
  | underflow
  deriving DecidableEq, Repr

/-- What is made of the place where a search ends. An underflow has no outcome. -/
def Closing.outcome {α : Type} (found lost : Cursor → α) : Closing → Option α
  | closed c => some (found c)
  | unclosed c => some (lost c)
  | underflow => none

namespace Nesting

variable (n : Nesting)

/-- What a search passes over as a whole. -/
def skips (c : Cursor) : Option Cursor :=
  if n.comments && c.atComment then some c.skipComment
  else if n.strings && c.peek == some doubleQuote then some c.skipString
  else none

variable {n}

theorem passes_of_skips {c d : Cursor} (h : n.skips c = some d) : c.Passes d := by
  unfold skips at h
  split at h
  next hc =>
    cases h
    exact Cursor.passes_skipComment (Bool.and_eq_true_iff.1 hc).2
  next =>
    split at h
    next hq =>
      cases h
      exact Cursor.passes_skipString (by simpa using (Bool.and_eq_true_iff.1 hq).2)
    next => cases h

variable (n)

/-- Looks for the closing byte that leaves nothing open, with a number of brackets open. -/
def close (depth : Nat) (c : Cursor) : Closing :=
  match hs : n.skips c with
  | some d =>
    have := (passes_of_skips hs).rest_lt
    close depth d
  | none =>
    match hp : c.peek with
    | none => .unclosed c
    | some b =>
      have := (Cursor.passes_of_peek hp).rest_lt
      if b = n.opening then close (depth + 1) (c.advance 1)
      else if b = n.closing then
        if depth = 0 then .underflow
        else if depth = 1 then .closed c
        else close (depth - 1) (c.advance 1)
      else if b ∈ n.stops then .unclosed c
      else close depth (c.advance 1)
termination_by c.rest.length

/-- A reader goes through its text as the search does, and makes something of the place where it
ends. Its own count stops at zero. -/
structure Follows {α : Type} (reader : Nat → Cursor → α) (found lost : Cursor → α) : Prop where
  skip : ∀ {depth c d}, n.skips c = some d → reader depth c = reader depth d
  stop : ∀ {depth c}, n.skips c = none → c.peek = none → reader depth c = lost c
  look : ∀ {depth c b}, n.skips c = none → c.peek = some b → reader depth c =
    if b = n.opening then reader (depth + 1) (c.advance 1)
    else if b = n.closing then
      if depth ≤ 1 then found c else reader (depth - 1) (c.advance 1)
    else if b ∈ n.stops then lost c
    else reader depth (c.advance 1)

variable {n} {depth : Nat} {c d : Cursor}

theorem close_of_opening (hs : n.skips c = none) (hp : c.peek = some n.opening) :
    n.close depth c = n.close (depth + 1) (c.advance 1) := by
  rw [close]
  split
  · simp_all
  · split
    · simp_all
    · simp_all

theorem reaches_of_close (h : n.close depth c = .closed d) : c.Reaches d := by
  fun_induction close n depth c with
  | case1 depth c d hs _ ih => exact (passes_of_skips hs).reaches.trans (ih h)
  | case2 | case4 | case7 => cases h
  | case5 =>
    cases h
    exact .refl _
  | case3 | case6 | case8 =>
    rename_i ih
    exact (Cursor.reaches_advance _ 1).trans (ih h)

theorem peek_of_close (h : n.close depth c = .closed d) : d.peek = some n.closing := by
  fun_induction close n depth c with
  | case2 | case4 | case7 => cases h
  | case5 =>
    cases h
    assumption
  | case1 | case3 | case6 | case8 =>
    rename_i ih
    exact ih h

namespace Follows

variable {α : Type} {reader : Nat → Cursor → α} {found lost : Cursor → α}

/-- With a bracket open, the count stays above zero, and the search finds what the reader finds. -/
theorem outcome_close (h : n.Follows reader found lost) (hdepth : 0 < depth) :
    (n.close depth c).outcome found lost = some (reader depth c) := by
  fun_induction close n depth c with
  | case1 depth c d hs _ ih =>
    rw [h.skip hs]
    exact ih hdepth
  | case2 depth c hs hp =>
    rw [h.stop hs hp]
    rfl
  | case3 depth c hs hp =>
    rename_i ih
    rw [h.look hs hp, if_pos rfl]
    exact ih (Nat.succ_pos depth)
  | case4 => omega
  | case5 c hs _ hp _ hne =>
    rw [h.look hs hp, if_neg hne, if_pos rfl, if_pos (Nat.le_refl 1)]
    rfl
  | case6 depth c hs hzero hone hp _ hne ih =>
    rw [h.look hs hp, if_neg hne, if_pos rfl, if_neg (by omega)]
    exact ih (by omega)
  | case7 depth c hs b hp _ ho hc hb =>
    rw [h.look hs hp, if_neg ho, if_neg hc, if_pos hb]
    rfl
  | case8 depth c hs b hp _ ho hc hb ih =>
    rw [h.look hs hp, if_neg ho, if_neg hc, if_neg hb]
    exact ih hdepth

theorem outcome_close_of_opening (h : n.Follows reader found lost) (hs : n.skips c = none)
    (hp : c.peek = some n.opening) :
    (n.close 0 c).outcome found lost = some (reader 0 c) := by
  rw [close_of_opening hs hp, h.look hs hp, if_pos rfl]
  exact h.outcome_close Nat.one_pos

end Follows

/-! ## The five searches -/

def angles : Nesting := { opening := less, closing := greater }

def parens : Nesting := { opening := openParen, closing := closeParen }

/-- The braces of a member function. -/
def braces : Nesting := { opening := openBrace, closing := closeBrace, comments := true }

def parameters : Nesting where
  opening := openParen
  closing := closeParen
  comments := true
  stops := [semicolon, openBrace, closeBrace]

/-- The braces of a function. -/
def body : Nesting where
  opening := openBrace
  closing := closeBrace
  comments := true
  strings := true

theorem skips_braces (c : Cursor) :
    braces.skips c = if c.atComment then some c.skipComment else none := by
  simp [skips, braces]

theorem skips_parameters (c : Cursor) :
    parameters.skips c = if c.atComment then some c.skipComment else none := by
  simp [skips, parameters]

theorem skips_body (c : Cursor) :
    body.skips c = if c.atComment then some c.skipComment
      else if c.peek = some doubleQuote then some c.skipString else none := by
  simp [skips, body]

end Nesting

/-- Past a closing byte. -/
def Cursor.past (c : Cursor) : Reading Cursor := .ok (c.advance 1)

/-- Nothing where a closing byte was looked for. -/
def Cursor.unfound (what : Expectation) (c : Cursor) : Reading Cursor := .error (c.failure what)

namespace Struct

open Nesting

theorem follows_closeAngles :
    angles.Follows closeAngles Cursor.past (Cursor.unfound .closingAngle) where
  skip h := by cases h
  stop _ hp := by
    rw [closeAngles]
    split
    · rfl
    · simp_all
  look _ hp := by
    rw [closeAngles]
    split
    · simp_all
    next b hb =>
      cases hb.symm.trans hp
      rfl

theorem follows_closeParens :
    parens.Follows closeParens Cursor.past (Cursor.unfound .closingParen) where
  skip h := by cases h
  stop _ hp := by
    rw [closeParens]
    split
    · rfl
    · simp_all
  look _ hp := by
    rw [closeParens]
    split
    · simp_all
    next b hb =>
      cases hb.symm.trans hp
      rfl

theorem follows_closeBraces :
    braces.Follows closeBraces Cursor.past (Cursor.unfound .memberFunctionEnd) where
  skip {depth c d} h := by
    rw [skips_braces] at h
    split at h
    next hc =>
      cases h
      rw [closeBraces, dif_pos hc]
    next => cases h
  stop {depth c} hs hp := by
    have hc : ¬c.atComment = true := Cursor.not_atComment_of_end hp
    rw [closeBraces, dif_neg hc]
    split
    · rfl
    · simp_all
  look {depth c b} hs hp := by
    have hc : ¬c.atComment = true := by
      rw [skips_braces] at hs
      simpa using hs
    rw [closeBraces, dif_neg hc]
    split
    · simp_all
    next b hb =>
      cases hb.symm.trans hp
      rfl

end Struct

namespace Function

open Nesting (parameters skips_parameters)

theorem follows_closeParameters :
    parameters.Follows closeParameters (fun c => some (c.advance 1)) (fun _ => none) where
  skip {depth c d} h := by
    rw [skips_parameters] at h
    split at h
    next hc =>
      cases h
      rw [closeParameters, dif_pos hc]
    next => cases h
  stop {depth c} hs hp := by
    have hc : ¬c.atComment = true := Cursor.not_atComment_of_end hp
    rw [closeParameters, dif_neg hc]
    split
    · rfl
    · simp_all
  look {depth c b} hs hp := by
    have hc : ¬c.atComment = true := by
      rw [skips_parameters] at hs
      simpa using hs
    rw [closeParameters, dif_neg hc]
    split
    · simp_all
    next b hb =>
      cases hb.symm.trans hp
      simp [parameters]

theorem follows_closeBody : Nesting.body.Follows closeBody some (fun _ => none) where
  skip {depth c d} h := by
    rw [Nesting.skips_body] at h
    split at h
    next hc =>
      cases h
      rw [closeBody]
      split
      next hp => exact absurd hc (Cursor.not_atComment_of_end hp)
      next => rw [dif_pos hc]
    next hc =>
      split at h
      next hq =>
        cases h
        rw [closeBody]
        split
        next hp => cases hp.symm.trans hq
        next b hp =>
          cases hp.symm.trans hq
          rw [dif_neg hc, dif_pos rfl]
      next => cases h
  stop {depth c} _ hp := by
    rw [closeBody]
    split
    · rfl
    · simp_all
  look {depth c b} hs hp := by
    rw [Nesting.skips_body] at hs
    have hc : ¬c.atComment = true := by
      intro hc
      rw [if_pos hc] at hs
      cases hs
    have hq : ¬b = doubleQuote := by
      rintro rfl
      rw [if_neg hc, if_pos hp] at hs
      cases hs
    rw [closeBody]
    split
    · simp_all
    next b hb =>
      cases hb.symm.trans hp
      rw [dif_neg hc, dif_neg hq]
      rfl

end Function

end BindlessHlsl
