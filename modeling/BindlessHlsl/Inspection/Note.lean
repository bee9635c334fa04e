import BindlessHlsl.Cursor.Motion
import BindlessHlsl.Keyword
import BindlessHlsl.NameMap

/-!
What an inspection notices in one text: bind groups, variants, included files, and faults. A fault
never stops the inspection, and what is noticed depends on the text alone.
-/

namespace BindlessHlsl

open Ascii

/-- What a variant of a shader is. -/
inductive VariantKind where
  | toggle
  deriving DecidableEq, Repr, Inhabited

instance : Keyword VariantKind where
  spellings := [("toggle", .toggle)]

instance : Tagged VariantKind where
  tags := [(.toggle, "toggle")]

/-- A variant of a shader. -/
structure Variant where
  kind : VariantKind
  /-- In lower case. -/
  identifier : String
  displayName : Option String
  deriving DecidableEq, Repr, Inhabited

/-- A text in quotes that a directive asks for. -/
inductive QuotedPart where
  | bindGroupName
  | variantIdentifier
  | variantDisplayName
  | includePath
  deriving DecidableEq, Repr

/-- What a quoted part is called. -/
def QuotedPart.text : QuotedPart → String
  | bindGroupName => "bind group name"
  | variantIdentifier => "variant identifier"
  | variantDisplayName => "variant display name"
  | includePath => "include path"

/-- A text of a variant. -/
inductive VariantPart where
  | identifier
  | displayName
  deriving DecidableEq, Repr

/-- What a text of a variant is called. -/
def VariantPart.text : VariantPart → String
  | identifier => "Identifier text"
  | displayName => "Display name"

/-- What is wrong with a directive. -/
inductive NoteFault where
  | missing (part : QuotedPart)
  | unterminated (part : QuotedPart)
  | groupNotPrintable (name : String)
  | emptyVariant (part : VariantPart)
  | longVariant (part : VariantPart)
  | variantNotPrintable (part : VariantPart) (text : String)
  | unknownVariant (word : String)
  | duplicateVariant (identifier : String)
  | includeNotFound (path : String)
  | includeUnreadable (path message : String)
  deriving DecidableEq, Repr

namespace NoteFault

/-- The length in bytes up to which the texts of a variant are accepted. -/
def variantLimit : Nat := 256

/-- The message of a fault. -/
def message : NoteFault → String
  | missing part => s!"Expected a quoted {part.text}"
  | unterminated part => s!"Reading {part.text} ended before the closing quote"
  | groupNotPrintable name =>
    s!"Bind group '{name}' contains a character outside of the valid ascii range (32 - 127)"
  | emptyVariant part => s!"{part.text} for shader variant must be longer than 0 characters"
  | longVariant part =>
    s!"{part.text} for shader variant must be at most {variantLimit} characters long"
  | variantNotPrintable part text =>
    s!"{part.text} '{text}' for shader variant contains a character outside of the " ++
      "valid ascii range (32 - 127)"
  | unknownVariant word => s!"Unknown variant type '{word}' specified in pragma"
  | duplicateVariant identifier => s!"Variant with identifier '{identifier}' already exists"
  | includeNotFound path =>
    s!"Could not find include '{path}' file within provided search directories"
  | includeUnreadable path message => s!"Failed to read include '{path}': {message}"

end NoteFault

/-- Something that an inspection notices. -/
inductive Note where
  | bindGroup (name : String)
  | variant (variant : Variant)
  | inclusion (path : String) (span : Span)
  | fault (reason : NoteFault) (span : Span)
  deriving DecidableEq, Repr

namespace Note

/-- What a directive gives, and the cursor after what was read of it. -/
abbrev Outcome := Option Note × Cursor

/-- Whether every byte lies in the accepted range. -/
def isPrintable (text : String) : Bool := (Utf8.encode text).all fun b => 32 ≤ b && b ≤ 127

/-- A text in lower case, which concerns ASCII letters only. -/
def lower (text : String) : String := String.ofList (text.toList.map Char.toLower)

/-- The fault of a directive that starts at a place and was read up to a cursor. -/
def faulty (start : Location) (c : Cursor) (reason : NoteFault) : Outcome :=
  (some (.fault reason (.between start c.location)), c)

/-- Reads a quoted text and goes on with it. -/
def withQuoted (start : Location) (part : QuotedPart) (c : Cursor)
    (next : String → Cursor → Outcome) : Outcome :=
  match c.skipInline.quoted with
  | (.text value, c) => next value c
  | (.missing, c) => faulty start c (.missing part)
  | (.unterminated, c) => faulty start c (.unterminated part)

/-- What is wrong with a text of a variant. -/
def variantFault? (part : VariantPart) (text : String) : Option NoteFault :=
  if text = "" then some (.emptyVariant part)
  else if NoteFault.variantLimit < Utf8.length text then some (.longVariant part)
  else if !isPrintable text then some (.variantNotPrintable part text)
  else none

/-- A directive that declares a bind group, from its name on. -/
def bindGroupAt (start : Location) (c : Cursor) : Outcome :=
  withQuoted start .bindGroupName c fun name c =>
    if isPrintable name then (some (.bindGroup name), c)
    else faulty start c (.groupNotPrintable name)

/-- Whether a display name follows: anything but a comment or the end of the line. -/
def hasDisplayName (c : Cursor) : Bool :=
  !c.atEnd && c.peek != some newline && !c.atComment

/-- The optional display name of a variant. -/
def displayNameAt (start : Location) (kind : VariantKind) (identifier : String) (c : Cursor) :
    Outcome :=
  let c := c.skipInline
  if hasDisplayName c then
    withQuoted start .variantDisplayName c fun name c =>
      match variantFault? .displayName name with
      | some reason => faulty start c reason
      | none => (some (.variant ⟨kind, identifier, some name⟩), c)
  else (some (.variant ⟨kind, identifier, none⟩), c)

/-- A directive that declares a variant, from its kind on, with the identifiers declared before. -/
def variantAt (start : Location) (known : List String) (c : Cursor) : Outcome :=
  let (word, c) := c.skipInline.identifier
  match Keyword.ofWord? (lower word) with
  | none => faulty start c (.unknownVariant word)
  | some kind =>
    withQuoted start .variantIdentifier c fun text c =>
      match variantFault? .identifier text with
      | some reason => faulty start c reason
      | none =>
        if lower text ∈ known then faulty start c (.duplicateVariant (lower text))
        else displayNameAt start kind (lower text) c

/-- A directive that includes a file, from its path on. -/
def inclusionAt (start : Location) (c : Cursor) : Outcome :=
  withQuoted start .includePath c fun path c =>
    (some (.inclusion path (.between start c.location)), c)

/-- A pragma, from its name on. -/
def pragmaAt (start : Location) (known : List String) (c : Cursor) : Outcome :=
  let (word, c) := c.skipInline.identifier
  if word = "bindgroup" then bindGroupAt start c
  else if word = "variant" then variantAt start known c
  else (none, c)

/-- A directive, from its hash sign on. -/
def directiveAt (known : List String) (c : Cursor) : Outcome :=
  let start := c.location
  let (word, c) := (c.advance 1).skipInline.identifier
  if word = "pragma" then pragmaAt start known c
  else if word = "include" then inclusionAt start c
  else (none, c)

theorem reaches_withQuoted {d c : Cursor} {start : Location} {part : QuotedPart}
    {next : String → Cursor → Outcome} (h : d.Reaches c)
    (hn : ∀ text c, d.Reaches c → d.Reaches (next text c).2) :
    d.Reaches (withQuoted start part c next).2 := by
  have hq := (h.trans c.reaches_skipInline).trans c.skipInline.reaches_quoted
  unfold withQuoted
  split
  next hv => exact hn _ _ (by simpa [hv] using hq)
  next hv => simpa [faulty, hv] using hq
  next hv => simpa [faulty, hv] using hq

theorem reaches_bindGroupAt {d c : Cursor} {start : Location} (h : d.Reaches c) :
    d.Reaches (bindGroupAt start c).2 := by
  refine reaches_withQuoted h fun name c hc => ?_
  split <;> exact hc

theorem reaches_displayNameAt {d c : Cursor} {start : Location} {kind : VariantKind}
    {identifier : String} (h : d.Reaches c) :
    d.Reaches (displayNameAt start kind identifier c).2 := by
  have hs := h.trans c.reaches_skipInline
  unfold displayNameAt
  dsimp only
  split
  · refine reaches_withQuoted hs fun name c hc => ?_
    split <;> exact hc
  · exact hs

theorem reaches_variantAt {d c : Cursor} {start : Location} {known : List String}
    (h : d.Reaches c) : d.Reaches (variantAt start known c).2 := by
  have hs := (h.trans c.reaches_skipInline).trans c.skipInline.reaches_identifier
  unfold variantAt
  dsimp only
  split
  · exact hs
  · refine reaches_withQuoted hs fun text c hc => ?_
    split
    · exact hc
    · split
      · exact hc
      · exact reaches_displayNameAt hc

theorem reaches_inclusionAt {d c : Cursor} {start : Location} (h : d.Reaches c) :
    d.Reaches (inclusionAt start c).2 :=
  reaches_withQuoted h fun _ _ hc => hc

theorem reaches_pragmaAt {d c : Cursor} {start : Location} {known : List String}
    (h : d.Reaches c) : d.Reaches (pragmaAt start known c).2 := by
  have hs := (h.trans c.reaches_skipInline).trans c.skipInline.reaches_identifier
  unfold pragmaAt
  dsimp only
  split
  · exact reaches_bindGroupAt hs
  · split
    · exact reaches_variantAt hs
    · exact hs

theorem passes_directiveAt {c : Cursor} {b : UInt8} {known : List String} (h : c.peek = some b) :
    c.Passes (directiveAt known c).2 := by
  refine (Cursor.passes_of_peek h).trans ?_
  have hs := (c.advance 1).reaches_skipInline.trans (Cursor.reaches_identifier _)
  unfold directiveAt
  dsimp only
  split
  · exact reaches_pragmaAt hs
  · split
    · exact reaches_inclusionAt hs
    · exact hs

/-- The identifier that a note adds to the known ones. -/
def identifiers : Note → List String
  | .variant v => [v.identifier]
  | _ => []

/-- One step over a text, at a byte of it. Comments hide directives; strings do not. -/
def step (known : List String) (c : Cursor) (b : UInt8) : Outcome :=
  if c.atComment then (none, c.skipComment)
  else if b = hash then
    let outcome := directiveAt known c
    (outcome.1, outcome.2.skipLine)
  else (none, c.advance 1)

theorem passes_step (known : List String) {c : Cursor} {b : UInt8} (h : c.peek = some b) :
    c.Passes (step known c b).2 := by
  unfold step
  split
  next hc => exact Cursor.passes_skipComment hc
  split
  · exact (passes_directiveAt h).trans (Cursor.reaches_skipLine _)
  · exact Cursor.passes_of_peek h

/-- What is noticed from a cursor on, with the identifiers declared before. -/
def fromCursor (known : List String) (c : Cursor) : List Note :=
  match hp : c.peek with
  | none => []
  | some b =>
    match hs : step known c b with
    | (none, next) =>
      have : next.rest.length < c.rest.length := by simpa [hs] using (passes_step known hp).rest_lt
      fromCursor known next
    | (some note, next) =>
      have : next.rest.length < c.rest.length := by simpa [hs] using (passes_step known hp).rest_lt
      note :: fromCursor (note.identifiers ++ known) next
termination_by c.rest.length

/-- What is noticed in a text. -/
def ofText (source : String) : List Note := fromCursor [] (.ofText source)

end Note

/-- What a file declares. -/
structure FileRecord where
  groups : NameSet
  variants : List Variant
  deriving DecidableEq, Repr, Inhabited

namespace FileRecord

/-- The record of a list of notes. -/
def ofNotes (notes : List Note) : FileRecord where
  groups := NameSet.ofList <| notes.filterMap fun
    | .bindGroup name => some name
    | _ => none
  variants := notes.filterMap fun
    | .variant v => some v
    | _ => none

/-- The record of a text. -/
def ofText (source : String) : FileRecord := ofNotes (Note.ofText source)

end FileRecord

end BindlessHlsl
