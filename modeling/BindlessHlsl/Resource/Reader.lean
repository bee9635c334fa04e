import BindlessHlsl.Reading

/-!
Reading a resource declaration: an optional element type in angle brackets and a name. The rest of
the declaration, up to its semicolon or the end of the line, is not looked at.
-/

namespace BindlessHlsl.Resource

open Ascii

/-- Reads the element type of a resource, if it has one. -/
def readElement (c : Cursor) : Reading (Option String × Cursor) :=
  match c.skipInline.eat? less with
  | none => .ok (none, c.skipInline)
  | some next => do
    let (element, next) ← next.skipInline.expectIdentifier .elementType
    let next ← next.skipInline.expectByte greater .closingAngle
    return (some element, next.skipInline)

/-- Reads the element type and the name of a resource. -/
def read (c : Cursor) : Reading (Option String × String × Cursor) := do
  let (element, next) ← readElement c
  let (name, next) ← next.expectIdentifier .resourceName
  return (element, name, next)

/-- Past the rest of a declaration: through its semicolon, or to the end of the line. -/
def skipDeclaration (c : Cursor) : Cursor :=
  let next := c.skipWhile fun b => b != newline && b != semicolon
  (next.eat? semicolon).getD next

theorem reaches_of_readElement {c d : Cursor} {element : Option String}
    (h : readElement c = .ok (element, d)) : c.Reaches d := by
  unfold readElement at h
  refine c.reaches_skipInline.trans ?_
  split at h
  · cases h
    exact .refl _
  next next he =>
    simp only [Reading.bind_eq_ok] at h
    obtain ⟨⟨word, c₁⟩, h₁, c₂, h₂, h⟩ := h
    cases h
    refine (Cursor.passes_of_eat? he).reaches.trans (next.reaches_skipInline.trans ?_)
    refine (Cursor.passes_of_expectIdentifier h₁).reaches.trans (c₁.reaches_skipInline.trans ?_)
    exact (Cursor.passes_of_expectByte h₂).reaches.trans c₂.reaches_skipInline

theorem passes_of_read {c d : Cursor} {element : Option String} {name : String}
    (h : read c = .ok (element, name, d)) : c.Passes d := by
  simp only [read, Reading.bind_eq_ok] at h
  obtain ⟨⟨element', c₁⟩, h₁, ⟨name', c₂⟩, h₂, h⟩ := h
  cases h
  exact (reaches_of_readElement h₁).passes (Cursor.passes_of_expectIdentifier h₂)

theorem reaches_skipDeclaration (c : Cursor) : c.Reaches (skipDeclaration c) := by
  unfold skipDeclaration
  dsimp only
  cases he : (c.skipWhile fun b => b != newline && b != semicolon).eat? semicolon with
  | none => exact c.reaches_advance _
  | some next => exact (c.reaches_advance _).trans (Cursor.passes_of_eat? he).reaches

end BindlessHlsl.Resource
