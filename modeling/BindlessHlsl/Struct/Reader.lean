import BindlessHlsl.Reading
import BindlessHlsl.Struct.Basic

/-!
Reading a struct definition. A member is a type with modifiers in front of it, a name, an optional
array length and anything else up to its semicolon. Member functions are passed over. Texts of
members lose the white space at their ends, in the sense of Unicode.
-/

namespace BindlessHlsl

/-- The characters with the Unicode property of white space. -/
def isWhiteSpace (c : Char) : Bool :=
  let n := c.toNat
  (9 ≤ n && n ≤ 13) || n == 0x20 || n == 0x85 || n == 0xa0 || n == 0x1680 ||
    (0x2000 ≤ n && n ≤ 0x200a) || n == 0x2028 || n == 0x2029 || n == 0x202f || n == 0x205f ||
    n == 0x3000

/-- Characters without white space at the end. -/
def trimRight (chars : List Char) : List Char := (chars.reverse.dropWhile isWhiteSpace).reverse

/-- Characters without white space at either end. -/
def trim (chars : List Char) : List Char := trimRight (chars.dropWhile isWhiteSpace)

end BindlessHlsl

namespace BindlessHlsl.Struct

open Ascii

/-- Words that may stand in front of a member type. -/
def modifiers : List String :=
  ["row_major", "column_major", "linear", "centroid", "nointerpolation", "noperspective", "sample",
    "precise", "const", "static", "uniform"]

/-- Reads the type name of a member, past its modifiers. -/
def readTypeName (c : Cursor) : Reading (String × Cursor) :=
  match h : c.expectIdentifier .memberType with
  | .error failure => .error failure
  | .ok (word, next) =>
    if modifiers.contains word then
      have := ((Cursor.passes_of_expectIdentifier h).trans next.reaches_skipTrivia).rest_lt
      readTypeName next.skipTrivia
    else .ok (word, next)
termination_by c.rest.length

/-- Past the closing angle bracket that leaves none open. -/
def closeAngles (depth : Nat) (c : Cursor) : Reading Cursor :=
  match h : c.peek with
  | none => .error (c.failure .closingAngle)
  | some b =>
    have := (Cursor.passes_of_peek h).rest_lt
    if b = less then closeAngles (depth + 1) (c.advance 1)
    else if b = greater then
      if depth ≤ 1 then .ok (c.advance 1) else closeAngles (depth - 1) (c.advance 1)
    else closeAngles depth (c.advance 1)
termination_by c.rest.length

/-- Splits characters at commas. -/
def splitCommas (chars : List Char) : List (List Char) := chars.splitOn ','

/-- The matrix type with a scalar, a number of rows and a number of columns as arguments. -/
def matrixType? (arguments : String) : Option MemberType :=
  match (splitCommas arguments.toList).map trim with
  | [scalar, rows, columns] => do
    let scalar ← (MemberType.ofWord? (String.ofList scalar)).filter fun t =>
      t.rows == 1 && t.columns == 1
    let rows ← (MemberType.shape? rows).filter fun s => s.2 == 1
    let columns ← (MemberType.shape? columns).filter fun s => s.2 == 1
    return ⟨scalar.scalar, rows.1, columns.1⟩
  | _ => none

/-- Reads the arguments of a generic type from their opening bracket on. Only a matrix is more than
a struct. -/
def readGeneric (typeName : String) (c : Cursor) : Reading (MemberType × Cursor) := do
  let next ← closeAngles 0 c
  if typeName = "matrix" then
    let arguments := (c.advance 1).upcoming (next.pos - c.pos - 2)
    match matrixType? arguments with
    | some type => return (type, next)
    | none => throw (.at next.location (.invalidValue "matrix" ("<" ++ arguments ++ ">")))
  else return (.unknownStruct, next)

/-- Reads the type of a member. -/
def readType (c : Cursor) : Reading (MemberType × Cursor) := do
  let (typeName, next) ← readTypeName c
  let next := next.skipTrivia
  if next.peek = some less then readGeneric typeName next
  else return ((MemberType.ofWord? typeName).getD .unknownStruct, next)

/-- Past the closing parenthesis that leaves none open. -/
def closeParens (depth : Nat) (c : Cursor) : Reading Cursor :=
  match h : c.peek with
  | none => .error (c.failure .closingParen)
  | some b =>
    have := (Cursor.passes_of_peek h).rest_lt
    if b = openParen then closeParens (depth + 1) (c.advance 1)
    else if b = closeParen then
      if depth ≤ 1 then .ok (c.advance 1) else closeParens (depth - 1) (c.advance 1)
    else closeParens depth (c.advance 1)
termination_by c.rest.length

/-- Past the closing brace that leaves none open, outside comments. -/
def closeBraces (depth : Nat) (c : Cursor) : Reading Cursor :=
  if hc : c.atComment = true then
    have := (Cursor.passes_skipComment hc).rest_lt
    closeBraces depth c.skipComment
  else
    match h : c.peek with
    | none => .error (c.failure .memberFunctionEnd)
    | some b =>
      have := (Cursor.passes_of_peek h).rest_lt
      if b = openBrace then closeBraces (depth + 1) (c.advance 1)
      else if b = closeBrace then
        if depth ≤ 1 then .ok (c.advance 1) else closeBraces (depth - 1) (c.advance 1)
      else closeBraces depth (c.advance 1)
termination_by c.rest.length

/-- Past a member function, from its parameters on. -/
def skipFunction (c : Cursor) : Reading Cursor := do
  let next ← closeParens 0 c
  let next := next.skipTrivia
  match next.eat? semicolon with
  | some next => return next
  | none =>
    if next.peek = some openBrace then closeBraces 0 next
    else throw (next.failure .memberFunctionBody)

/-- Reads the array length of a member, if it has one. -/
def readArrayLength (name : String) (c : Cursor) : Reading (Option UInt32 × Cursor) :=
  match c.eat? openBracket with
  | none => .ok (none, c)
  | some next => do
    let next := next.skipTrivia
    let place := next.location
    let (token, next) := next.valueToken
    match Word.ofText? token with
    | none => throw (.at place (.invalidValue (name ++ "[]") token))
    | some length => do
      let next ← next.skipTrivia.expectByte closeBracket .closingBracket
      return (some length, next)

/-- To the semicolon of a member. -/
def findSemicolon (c : Cursor) : Reading Cursor :=
  let next := c.skipWhile fun b => b != semicolon && b != closeBrace
  if next.peek = some semicolon then .ok next else .error (next.failure .memberEnd)

/-- Reads what follows the name of a data member, up to its semicolon, and past it. -/
def readData (start : Cursor) (type : MemberType) (name : String) (c : Cursor) :
    Reading (Member × Cursor) := do
  let (arrayLength, next) ← readArrayLength name c
  let stop ← findSemicolon next
  let declaration := String.ofList (trimRight (start.textUntil stop).toList)
  return (⟨type, arrayLength, name, declaration⟩, stop.advance 1)

/-- Reads a member. A member function yields none. -/
def readMember (c : Cursor) : Reading (Option Member × Cursor) := do
  let (type, next) ← readType c
  let (name, next) ← next.skipTrivia.expectIdentifier .memberName
  let next := next.skipTrivia
  if next.peek = some openParen then
    let next ← skipFunction next
    return (none, next)
  else
    let (member, next) ← readData c type name next
    return (some member, next)

theorem passes_of_readTypeName {c d : Cursor} {word : String}
    (h : readTypeName c = .ok (word, d)) : c.Passes d := by
  fun_induction readTypeName c with
  | case1 => cases h
  | case2 c word' next hi _ _ ih =>
    have hnext := (Cursor.passes_of_expectIdentifier hi).trans next.reaches_skipTrivia
    exact hnext.trans (ih h).reaches
  | case3 c word' next hi =>
    cases h
    exact Cursor.passes_of_expectIdentifier hi

theorem reaches_of_closeAngles {depth : Nat} {c d : Cursor} (h : closeAngles depth c = .ok d) :
    c.Reaches d := by
  fun_induction closeAngles depth c with
  | case1 => cases h
  | case2 depth c =>
    rename_i ih
    exact (c.reaches_advance 1).trans (ih h)
  | case3 depth c =>
    cases h
    exact c.reaches_advance 1
  | case4 depth c =>
    rename_i ih
    exact (c.reaches_advance 1).trans (ih h)
  | case5 depth c =>
    rename_i ih
    exact (c.reaches_advance 1).trans (ih h)

theorem reaches_of_readGeneric {typeName : String} {c d : Cursor} {type : MemberType}
    (h : readGeneric typeName c = .ok (type, d)) : c.Reaches d := by
  simp only [readGeneric, Reading.bind_eq_ok] at h
  obtain ⟨next, hn, h⟩ := h
  split at h
  · split at h <;> cases h
    exact reaches_of_closeAngles hn
  · cases h
    exact reaches_of_closeAngles hn

theorem passes_of_readType {c d : Cursor} {type : MemberType}
    (h : readType c = .ok (type, d)) : c.Passes d := by
  simp only [readType, Reading.bind_eq_ok] at h
  obtain ⟨⟨typeName, next⟩, hn, h⟩ := h
  refine ((passes_of_readTypeName hn).trans next.reaches_skipTrivia).trans ?_
  dsimp only at h
  split at h
  · exact reaches_of_readGeneric h
  · cases h
    exact .refl _

theorem reaches_of_closeParens {depth : Nat} {c d : Cursor} (h : closeParens depth c = .ok d) :
    c.Reaches d := by
  fun_induction closeParens depth c with
  | case1 => cases h
  | case2 depth c =>
    rename_i ih
    exact (c.reaches_advance 1).trans (ih h)
  | case3 depth c =>
    cases h
    exact c.reaches_advance 1
  | case4 depth c =>
    rename_i ih
    exact (c.reaches_advance 1).trans (ih h)
  | case5 depth c =>
    rename_i ih
    exact (c.reaches_advance 1).trans (ih h)

theorem reaches_of_closeBraces {depth : Nat} {c d : Cursor} (h : closeBraces depth c = .ok d) :
    c.Reaches d := by
  fun_induction closeBraces depth c with
  | case1 depth c hc _ ih => exact (Cursor.passes_skipComment hc).reaches.trans (ih h)
  | case2 => cases h
  | case3 depth c =>
    rename_i ih
    exact (c.reaches_advance 1).trans (ih h)
  | case4 depth c =>
    cases h
    exact c.reaches_advance 1
  | case5 depth c =>
    rename_i ih
    exact (c.reaches_advance 1).trans (ih h)
  | case6 depth c =>
    rename_i ih
    exact (c.reaches_advance 1).trans (ih h)

theorem reaches_of_skipFunction {c d : Cursor} (h : skipFunction c = .ok d) : c.Reaches d := by
  simp only [skipFunction, Reading.bind_eq_ok] at h
  obtain ⟨next, hn, h⟩ := h
  refine ((reaches_of_closeParens hn).trans next.reaches_skipTrivia).trans ?_
  split at h
  next he =>
    cases h
    exact (Cursor.passes_of_eat? he).reaches
  next =>
    split at h
    · exact reaches_of_closeBraces h
    · cases h

theorem reaches_of_readArrayLength {name : String} {c d : Cursor} {length : Option UInt32}
    (h : readArrayLength name c = .ok (length, d)) : c.Reaches d := by
  unfold readArrayLength at h
  split at h
  next =>
    cases h
    exact .refl c
  next next he =>
    refine ((Cursor.passes_of_eat? he).reaches.trans next.reaches_skipTrivia).trans ?_
    refine (Cursor.reaches_valueToken _).trans ?_
    dsimp only at h
    split at h
    · cases h
    · simp only [Reading.bind_eq_ok] at h
      obtain ⟨last, hl, h⟩ := h
      cases h
      exact (Cursor.reaches_skipTrivia _).trans (Cursor.passes_of_expectByte hl).reaches

theorem reaches_of_findSemicolon {c d : Cursor} (h : findSemicolon c = .ok d) : c.Reaches d := by
  unfold findSemicolon at h
  dsimp only at h
  split at h <;> cases h
  exact c.reaches_advance _

theorem reaches_of_readData {start c d : Cursor} {type : MemberType} {name : String}
    {member : Member} (h : readData start type name c = .ok (member, d)) : c.Reaches d := by
  simp only [readData, Reading.bind_eq_ok] at h
  obtain ⟨⟨length, next⟩, hl, stop, hs, h⟩ := h
  cases h
  refine (reaches_of_readArrayLength hl).trans ((reaches_of_findSemicolon hs).trans ?_)
  exact stop.reaches_advance 1

theorem passes_of_readMember {c d : Cursor} {member : Option Member}
    (h : readMember c = .ok (member, d)) : c.Passes d := by
  simp only [readMember, Reading.bind_eq_ok] at h
  obtain ⟨⟨type, c₁⟩, h₁, ⟨name, c₂⟩, h₂, h⟩ := h
  refine (passes_of_readType h₁).trans (c₁.reaches_skipTrivia.trans ?_)
  refine (Cursor.passes_of_expectIdentifier h₂).reaches.trans (c₂.reaches_skipTrivia.trans ?_)
  dsimp only at h
  split at h
  · simp only [Reading.bind_eq_ok] at h
    obtain ⟨next, hn, h⟩ := h
    cases h
    exact reaches_of_skipFunction hn
  · simp only [Reading.bind_eq_ok] at h
    obtain ⟨⟨m, next⟩, hn, h⟩ := h
    cases h
    exact reaches_of_readData hn

/-- Reads members up to the closing brace, behind those that were read before, the latest first. -/
def readMembers (read : List Member) (c : Cursor) : Reading (List Member × Cursor) :=
  match c.skipTrivia.peek with
  | none => .error (c.skipTrivia.failure .structEnd)
  | some b =>
    if b = closeBrace then .ok (read.reverse, c.skipTrivia.advance 1)
    else
      match h : readMember c.skipTrivia with
      | .error failure => .error failure
      | .ok (member, next) =>
        have := (c.reaches_skipTrivia.passes (passes_of_readMember h)).rest_lt
        readMembers (member.toList ++ read) next
termination_by c.rest.length

theorem reaches_of_readMembers {read members : List Member} {c d : Cursor}
    (h : readMembers read c = .ok (members, d)) : c.Reaches d := by
  fun_induction readMembers read c with
  | case1 => cases h
  | case2 read c =>
    cases h
    exact c.reaches_skipTrivia.trans (Cursor.reaches_advance _ 1)
  | case3 => cases h
  | case4 read c _ _ _ member next hm _ ih =>
    exact (c.reaches_skipTrivia.passes (passes_of_readMember hm)).reaches.trans (ih h)

/-- Past a semicolon on this line, if there is one. -/
def skipSemicolon (c : Cursor) : Cursor := (c.skipInline.eat? semicolon).getD c

/-- A definition read after the word that opens it. The name is empty for an anonymous struct. -/
structure Definition where
  name : String
  members : List Member
  deriving DecidableEq, Repr

/-- Reads a struct after the word that opens it. Anything but a definition is passed over as far as
it was read. -/
def read (c : Cursor) : Reading (Option Definition × Cursor) :=
  let (name, next) := c.skipTrivia.identifier
  match next.skipTrivia.eat? openBrace with
  | none => .ok (none, next.skipTrivia)
  | some next => do
    let (members, next) ← readMembers [] next
    return (some ⟨name, members⟩, skipSemicolon next)

theorem reaches_skipSemicolon (c : Cursor) : c.Reaches (skipSemicolon c) := by
  unfold skipSemicolon
  cases he : c.skipInline.eat? semicolon with
  | none => exact .refl c
  | some next => exact c.reaches_skipInline.trans (Cursor.passes_of_eat? he).reaches

theorem reaches_of_read {c d : Cursor} {definition : Option Definition}
    (h : read c = .ok (definition, d)) : c.Reaches d := by
  unfold read at h
  dsimp only at h
  refine (c.reaches_skipTrivia.trans (Cursor.reaches_identifier _)).trans ?_
  split at h
  · cases h
    exact Cursor.reaches_skipTrivia _
  next next he =>
    simp only [Reading.bind_eq_ok] at h
    obtain ⟨⟨members, last⟩, hm, h⟩ := h
    cases h
    refine (Cursor.reaches_skipTrivia _).trans ((Cursor.passes_of_eat? he).reaches.trans ?_)
    exact (reaches_of_readMembers hm).trans (reaches_skipSemicolon last)

end BindlessHlsl.Struct
