import BindlessHlsl.Reading

/-!
Reading an attribute: a name in square brackets with optional arguments `key = value` in
parentheses. The arguments are checked in a fixed order, so that of several faults always the same
one is reported.
-/

namespace BindlessHlsl.Attribute

open Ascii

/-- An argument with the place of its key. -/
structure Argument where
  key : String
  value : String
  location : Location
  deriving DecidableEq, Repr

/-- The argument with a key. -/
def argument? (arguments : List Argument) (key : String) : Option Argument :=
  arguments.find? fun a => a.key == key

/-- Reads one argument and the separator after it. -/
def readArgument (earlier : List Argument) (c : Cursor) : Reading (Argument × Cursor) := do
  let place := c.location
  let (key, c) ← c.expectIdentifier .argumentName
  require (argument? earlier key).isNone (.at place (.duplicateArgument key))
  let c ← c.skipBlank.expectByte equals .argumentEquals
  let (value, c) ← c.skipBlank.expectValue .argumentValue
  let c ← c.skipBlank.expectSeparator closeParen .argumentSeparator
  return (⟨key, value, place⟩, c)

theorem passes_of_readArgument {earlier : List Argument} {c d : Cursor} {a : Argument}
    (h : readArgument earlier c = .ok (a, d)) : c.Passes d := by
  simp only [readArgument, Reading.bind_eq_ok] at h
  obtain ⟨⟨key, c₁⟩, h₁, _, _, c₂, h₂, ⟨value, c₃⟩, h₃, c₄, h₄, h⟩ := h
  cases h
  refine (Cursor.passes_of_expectIdentifier h₁).trans ?_
  refine (c₁.reaches_skipBlank.passes (Cursor.passes_of_expectByte h₂)).reaches.trans ?_
  refine (c₂.reaches_skipBlank.trans (Cursor.reaches_of_expectValue h₃)).trans ?_
  exact c₃.reaches_skipBlank.trans (Cursor.reaches_of_expectSeparator h₄)

/-- Reads arguments up to the closing parenthesis. -/
def readArguments (read : List Argument) (c : Cursor) : Reading (List Argument × Cursor) :=
  match c.skipBlank.eat? closeParen with
  | some next => .ok (read, next)
  | none =>
    match h : readArgument read c.skipBlank with
    | .error failure => .error failure
    | .ok (a, next) =>
      have := (c.reaches_skipBlank.passes (passes_of_readArgument h)).rest_lt
      readArguments (read ++ [a]) next
termination_by c.rest.length

/-- Refuses arguments with other keys than the known ones. -/
def checkKeys (arguments : List Argument) (known : List String) : Reading Unit :=
  match arguments.find? fun a => !known.contains a.key with
  | some a => .error (.at a.location (.unknownKeyword a.key .attributeArgument))
  | none => .ok ()

/-- The value of an argument that takes a word. -/
def wordArgument? {α : Type} [Keyword α] (arguments : List Argument) (key : String) :
    Reading (Option α) :=
  match argument? arguments key with
  | none => .ok none
  | some a =>
    match Keyword.ofWord? a.value with
    | some value => .ok (some value)
    | none => .error (.at a.location (.unknownKeyword a.value .value))

/-- The value of an argument that takes a number. -/
def numberArgument? (arguments : List Argument) (key : String) : Reading (Option UInt32) :=
  match argument? arguments key with
  | none => .ok none
  | some a =>
    match Word.ofText? a.value with
    | some value => .ok (some value)
    | none => .error (.at a.location (.invalidValue key a.value))

/-- A value that must be given. -/
def given {α : Type} (value : Option α) (kind : AttributeKind) (key : String) (place : Location) :
    Reading α :=
  match value with
  | some value => .ok value
  | none => .error (.at place (.missingArgument kind key))

/-- The input element that arguments describe. -/
def inputElement (arguments : List Argument) (place : Location) : Reading InputElement := do
  checkKeys arguments ["Name", "Offset", "Slot", "Class", "Format"]
  let name ← given (argument? arguments "Name") .inputLayout "Name" place
  let offset ← numberArgument? arguments "Offset"
  let slot ← numberArgument? arguments "Slot"
  let inputClass ← wordArgument? arguments "Class"
  let format ← wordArgument? arguments "Format"
  let format ← given format .inputLayout "Format" place
  return ⟨name.value, offset, slot, inputClass.getD .perVertex, format⟩

/-- The property that arguments describe. -/
def propertyOf (arguments : List Argument) (place : Location) : Reading Property := do
  checkKeys arguments ["Name", "Default"]
  let name ← given (argument? arguments "Name") .property "Name" place
  let fallback ← wordArgument? arguments "Default"
  return ⟨name.value, fallback⟩

/-- The bind group that arguments name. -/
def groupOf (arguments : List Argument) : Reading BindGroup := do
  checkKeys arguments ["Group"]
  return match argument? arguments "Group" with
    | some a => ⟨a.value⟩
    | none => .default

/-- An attribute that takes no arguments. -/
def withoutArguments (a : Attribute) (arguments : List Argument) (place : Location) :
    Reading Attribute :=
  if arguments.isEmpty then .ok a else .error (.at place (.unexpectedArguments a.kind))

/-- The attribute of a kind with its arguments. -/
def ofArguments (kind : AttributeKind) (arguments : List Argument) (place : Location) :
    Reading Attribute :=
  match kind with
  | .vertex => withoutArguments .vertex arguments place
  | .pixel => withoutArguments .pixel arguments place
  | .constants => withoutArguments .constants arguments place
  | .inputLayout => return .inputLayout (← inputElement arguments place)
  | .property => return .property (← propertyOf arguments place)
  | .bindGroup => return .bindGroup (← groupOf arguments)

/-- Reads the name of an attribute. -/
def readKind (c : Cursor) : Reading (AttributeKind × Cursor) :=
  let (word, next) := c.identifier
  match Keyword.ofWord? word with
  | some kind => .ok (kind, next)
  | none =>
    if word.isEmpty then .error (next.failure .attributeName)
    else .error (.at c.location (.unknownKeyword word .attributeName))

/-- Reads the arguments of an attribute, if it has any. -/
def readOptionalArguments (c : Cursor) : Reading (List Argument × Cursor) :=
  if c.peek = some openParen then readArguments [] (c.advance 1) else .ok ([], c)

/-- Reads an attribute from its opening bracket up to its closing one. -/
def read (c : Cursor) : Reading (Attribute × Cursor) := do
  let (kind, next) ← readKind (c.advance 1).skipInline
  let (arguments, next) ← readOptionalArguments next.skipInline
  let a ← ofArguments kind arguments c.location
  return (a, next.skipInline)

theorem reaches_of_readArguments {read result : List Argument} {c d : Cursor}
    (h : readArguments read c = .ok (result, d)) : c.Reaches d := by
  fun_induction readArguments read c with
  | case1 read c next he =>
    cases h
    exact c.reaches_skipBlank.trans (Cursor.passes_of_eat? he).reaches
  | case2 => cases h
  | case3 read c _ a next ha _ ih =>
    exact (c.reaches_skipBlank.passes (passes_of_readArgument ha)).reaches.trans (ih h)

theorem reaches_of_readKind {c d : Cursor} {kind : AttributeKind}
    (h : readKind c = .ok (kind, d)) : c.Reaches d := by
  unfold readKind at h
  dsimp only at h
  split at h
  · cases h
    exact c.reaches_identifier
  · split at h <;> cases h

theorem reaches_of_readOptionalArguments {c d : Cursor} {arguments : List Argument}
    (h : readOptionalArguments c = .ok (arguments, d)) : c.Reaches d := by
  unfold readOptionalArguments at h
  split at h
  · exact (c.reaches_advance 1).trans (reaches_of_readArguments h)
  · cases h
    exact .refl c

theorem reaches_of_read {c d : Cursor} {a : Attribute} (h : read c = .ok (a, d)) :
    (c.advance 1).Reaches d := by
  simp only [read, Reading.bind_eq_ok] at h
  obtain ⟨⟨kind, c₁⟩, h₁, ⟨arguments, c₂⟩, h₂, a', _, h⟩ := h
  cases h
  refine (Cursor.reaches_skipInline _).trans ((reaches_of_readKind h₁).trans ?_)
  refine (c₁.reaches_skipInline.trans (reaches_of_readOptionalArguments h₂)).trans ?_
  exact c₂.reaches_skipInline

end BindlessHlsl.Attribute
