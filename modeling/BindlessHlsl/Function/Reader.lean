import BindlessHlsl.Reading

/-!
Recognising a function definition around its name: a word and blanks in front of it, parameters in
parentheses behind it, an optional semantic, and a body in braces.
-/

namespace BindlessHlsl.Function

open Ascii

/-- Past the closing parenthesis that leaves none open. Statements and braces do not occur among
parameters. -/
def closeParameters (depth : Nat) (c : Cursor) : Option Cursor :=
  if hc : c.atComment = true then
    have := (Cursor.passes_skipComment hc).rest_lt
    closeParameters depth c.skipComment
  else
    match h : c.peek with
    | none => none
    | some b =>
      have := (Cursor.passes_of_peek h).rest_lt
      if b = openParen then closeParameters (depth + 1) (c.advance 1)
      else if b = closeParen then
        if depth ≤ 1 then some (c.advance 1) else closeParameters (depth - 1) (c.advance 1)
      else if b = semicolon ∨ b = openBrace ∨ b = closeBrace then none
      else closeParameters depth (c.advance 1)
termination_by c.rest.length

/-- Whether a word and at least one blank stand directly in front of a cursor. -/
def followsWord (c : Cursor) : Bool :=
  match c.before with
  | [] => false
  | b :: _ =>
    isBlank b && ((c.before.dropWhile isBlank).head?.map isIdentifierContinue).getD false

/-- Past a semantic after the parameters, if there is one. -/
def skipSemantic (c : Cursor) : Cursor :=
  match c.eat? colon with
  | none => c
  | some next => next.skipTrivia.identifier.2.skipTrivia

/-- The cursor at the opening brace of the body, if the word between two cursors names a function
that is defined here. -/
def bodyStart? (name afterName : Cursor) : Option Cursor :=
  if followsWord name then do
    let c ← afterName.skipTrivia.eat? openParen
    let c ← closeParameters 1 c
    let c := skipSemantic c.skipTrivia
    if c.peek = some openBrace then some c else none
  else none

/-- To the closing brace that leaves none open, outside comments and strings. -/
def closeBody (depth : Nat) (c : Cursor) : Option Cursor :=
  match h : c.peek with
  | none => none
  | some b =>
    have := (Cursor.passes_of_peek h).rest_lt
    if hc : c.atComment = true then
      have := (Cursor.passes_skipComment hc).rest_lt
      closeBody depth c.skipComment
    else if hq : b = doubleQuote then
      have := (Cursor.passes_skipString (hq ▸ h)).rest_lt
      closeBody depth c.skipString
    else if b = openBrace then closeBody (depth + 1) (c.advance 1)
    else if b = closeBrace then
      if depth ≤ 1 then some c else closeBody (depth - 1) (c.advance 1)
    else closeBody depth (c.advance 1)
termination_by c.rest.length

theorem reaches_of_closeParameters {depth : Nat} {c d : Cursor}
    (h : closeParameters depth c = some d) : c.Reaches d := by
  fun_induction closeParameters depth c with
  | case1 depth c hc _ ih => exact (Cursor.passes_skipComment hc).reaches.trans (ih h)
  | case2 => cases h
  | case3 depth c =>
    rename_i ih
    exact (c.reaches_advance 1).trans (ih h)
  | case4 depth c =>
    cases h
    exact c.reaches_advance 1
  | case5 depth c =>
    rename_i ih
    exact (c.reaches_advance 1).trans (ih h)
  | case6 => cases h
  | case7 depth c =>
    rename_i ih
    exact (c.reaches_advance 1).trans (ih h)

theorem reaches_skipSemantic (c : Cursor) : c.Reaches (skipSemantic c) := by
  unfold skipSemantic
  split
  · exact .refl c
  next next he =>
    refine (Cursor.passes_of_eat? he).reaches.trans (next.reaches_skipTrivia.trans ?_)
    exact (Cursor.reaches_identifier _).trans (Cursor.reaches_skipTrivia _)

theorem passes_of_bodyStart? {name afterName c : Cursor}
    (h : bodyStart? name afterName = some c) : afterName.Passes c := by
  unfold bodyStart? at h
  split at h
  next =>
    simp only [Option.bind_eq_bind, Option.bind_eq_some_iff] at h
    obtain ⟨c₁, h₁, c₂, h₂, h⟩ := h
    split at h <;> cases h
    refine (afterName.reaches_skipTrivia.passes (Cursor.passes_of_eat? h₁)).trans ?_
    refine (reaches_of_closeParameters h₂).trans (c₂.reaches_skipTrivia.trans ?_)
    exact reaches_skipSemantic _
  next => cases h

theorem reaches_of_closeBody {depth : Nat} {c d : Cursor} (h : closeBody depth c = some d) :
    c.Reaches d := by
  fun_induction closeBody depth c with
  | case1 => cases h
  | case2 depth c _ _ _ hc =>
    rename_i ih
    exact (Cursor.passes_skipComment hc).reaches.trans (ih h)
  | case3 depth c =>
    rename_i ih
    exact c.reaches_skipString.trans (ih h)
  | case4 depth c =>
    rename_i ih
    exact (c.reaches_advance 1).trans (ih h)
  | case5 depth c =>
    cases h
    exact .refl _
  | case6 depth c =>
    rename_i ih
    exact (c.reaches_advance 1).trans (ih h)
  | case7 depth c =>
    rename_i ih
    exact (c.reaches_advance 1).trans (ih h)

end BindlessHlsl.Function
