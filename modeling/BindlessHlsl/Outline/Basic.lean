import BindlessHlsl.Attribute.Reader
import BindlessHlsl.Function.Reader
import BindlessHlsl.Outline.Item
import BindlessHlsl.Resource.Reader
import BindlessHlsl.Sampler.Reader

/-!
The outline of a shader text: its items in order and, where reading had to stop, the failure. The
text is scanned once from front to back. Attributes wait until a resource or a function takes them;
an opening bracket starts an attribute only where a declaration may start.

Every step of the scan moves the cursor (`step_progress`), so the scan ends.
-/

namespace BindlessHlsl

open Ascii

/-- The state of a scan. -/
structure Scan where
  cursor : Cursor
  /-- Attributes that no declaration has taken yet. -/
  pending : List PlacedAttribute := []
  /-- Whether a bracket here would start an attribute. -/
  atDeclaration : Bool := true
  deriving DecidableEq, Repr, Inhabited

/-- What a step of the scan notices, and how it goes on. The items count even if the step fails. -/
structure Step where
  items : List Item := []
  next : Reading Scan

/-- What is noticed in a text up to its end or the first failure. -/
structure Outline where
  items : List Item
  failure : Option Failure
  deriving DecidableEq, Repr

namespace Scan

/-- The scan of a text at its start. -/
def ofText (source : String) : Scan := { cursor := Cursor.ofText source }

/-- The scan after it moved. -/
def moved (s : Scan) (cursor : Cursor) (atDeclaration : Bool) : Scan :=
  { s with cursor := cursor, atDeclaration := atDeclaration }

/-- The scan after a declaration took the pending attributes. -/
def declared (cursor : Cursor) : Scan := { cursor := cursor }

/-- The content path directive. That it was begun counts before its text is read. -/
def contentPath (s : Scan) (c : Cursor) : Step :=
  let place := s.cursor.location
  match c.expectQuoted .contentPath with
  | .error failure => ⟨[.pathDirective place], .error failure⟩
  | .ok (path, next) =>
    ⟨[.pathDirective place, .contentPath path (s.cursor.rangeUntil next.skipLine)],
      .ok (s.moved next.skipLine true)⟩

/-- The directive that declares a bind group. -/
def bindGroup (s : Scan) (c : Cursor) : Step :=
  match c.expectQuoted .bindGroupName with
  | .error failure => ⟨[], .error failure⟩
  | .ok (name, next) =>
    ⟨[.bindGroup name s.cursor.location (s.cursor.rangeUntil next.skipLine)],
      .ok (s.moved next.skipLine true)⟩

/-- A pragma; those that are not known here are passed over. -/
def pragma (s : Scan) (c : Cursor) : Step :=
  let (word, next) := c.skipInline.identifier
  if word = "path" then s.contentPath next
  else if word = "bindgroup" then s.bindGroup next
  else ⟨[], .ok (s.moved next.skipLine true)⟩

/-- The directive that includes a file. -/
def inclusion (s : Scan) (c : Cursor) : Step :=
  match c.expectQuoted .includePath with
  | .error failure => ⟨[], .error failure⟩
  | .ok (path, next) =>
    ⟨[.inclusion path s.cursor.location], .ok (s.moved next.skipLine true)⟩

/-- A directive; those that are not known here are passed over. -/
def directive (s : Scan) : Step :=
  let (word, next) := (s.cursor.advance 1).skipInline.identifier
  if word = "include" then s.inclusion next
  else if word = "pragma" then s.pragma next
  else ⟨[], .ok (s.moved next.skipLine true)⟩

/-- The bind group that an attribute refers to, unless it is the default one. -/
def groupUses (a : Attribute) (place : Location) : List Item :=
  match a with
  | .bindGroup group => if group.isDefault then [] else [.groupUse group place]
  | _ => []

/-- An attribute that waits for a declaration. The default group is nothing to wait with. -/
def awaited (placed : PlacedAttribute) : List PlacedAttribute :=
  match placed.value with
  | .bindGroup group => if group.isDefault then [] else [placed]
  | _ => [placed]

/-- An attribute in brackets. A reference to a bind group counts before the closing bracket. -/
def bracket (s : Scan) : Step :=
  let c := s.cursor
  match Attribute.read c with
  | .error failure => ⟨[], .error failure⟩
  | .ok (a, next) =>
    let uses := groupUses a c.location
    match next.expectByte closeBracket .closingBracket with
    | .error failure => ⟨uses, .error failure⟩
    | .ok next =>
      let placed : PlacedAttribute := ⟨a, .between c.location next.location⟩
      ⟨uses ++ [.bracketed placed (c.rangeUntil next)],
        .ok ⟨next, s.pending ++ awaited placed, true⟩⟩

/-- A resource declaration, from the word for its kind on. It takes the pending attributes. -/
def resource (s : Scan) (kind : ResourceKind) (c : Cursor) : Step :=
  match Resource.read c with
  | .error failure => ⟨[], .error failure⟩
  | .ok (element, name, next) =>
    let stop := Resource.skipDeclaration next
    ⟨[.resource kind element name s.cursor.location s.pending (s.cursor.rangeUntil stop)],
      .ok (declared stop)⟩

/-- A sampler declaration, unless it is one to be left alone. -/
def sampler (s : Scan) (c : Cursor) : Step :=
  match Sampler.read c with
  | .error failure => ⟨[], .error failure⟩
  | .ok none => ⟨[], .ok (s.moved c false)⟩
  | .ok (some (name, settings, next)) =>
    ⟨[.sampler name settings (s.cursor.rangeUntil next)], .ok (s.moved next true)⟩

/-- A struct definition, or another use of the word. -/
def struct (s : Scan) (c : Cursor) : Step :=
  match Struct.read c with
  | .error failure => ⟨[], .error failure⟩
  | .ok (none, next) => ⟨[], .ok (s.moved next false)⟩
  | .ok (some definition, next) =>
    ⟨[.struct definition s.cursor.location (s.cursor.rangeUntil next)], .ok (s.moved next true)⟩

/-- A function definition, from the opening brace of its body on. It takes the pending attributes,
which counts before the body is read. -/
def function (s : Scan) (name : String) (c : Cursor) : Step :=
  let start := c.advance 1
  match Function.closeBody 1 start with
  | none =>
    ⟨[.functionStart name s.pending],
      .error (.at s.cursor.location (.unexpectedEnd .functionEnd))⟩
  | some stop =>
    ⟨[.functionStart name s.pending, .function name (start.rangeUntil stop)],
      .ok (declared (stop.advance 1))⟩

/-- A word: the start of a declaration, the name of a function, or anything else. -/
def word (s : Scan) : Step :=
  let (word, next) := s.cursor.identifier
  match Keyword.ofWord? word with
  | some kind => s.resource kind next
  | none =>
    if word = "SamplerState" then s.sampler next
    else if word = "struct" then s.struct next
    else
      match Function.bodyStart? s.cursor next with
      | some body => s.function word body
      | none => ⟨[], .ok (s.moved next false)⟩

/-- Whether a bracket may start an attribute after a byte. Blanks change nothing. -/
def declarationAfter (s : Scan) (b : UInt8) : Bool :=
  if isBlank b then s.atDeclaration
  else b == semicolon || b == openBrace || b == closeBrace || b == closeBracket

/-- One step of the scan, at a byte of the text. -/
def step (s : Scan) (b : UInt8) : Step :=
  if s.cursor.atComment then ⟨[], .ok (s.moved s.cursor.skipComment s.atDeclaration)⟩
  else if b = doubleQuote then ⟨[], .ok (s.moved s.cursor.skipString false)⟩
  else if b = hash then s.directive
  else if b = openBracket ∧ s.atDeclaration = true then s.bracket
  else if isIdentifierStart b then s.word
  else ⟨[], .ok (s.moved (s.cursor.advance 1) (s.declarationAfter b))⟩

/-- The failure at the end of a text: attributes that no declaration took. -/
def unresolved? (pending : List PlacedAttribute) : Option Failure :=
  match pending with
  | [] => none
  | first :: _ => some ⟨first.span, .unresolvedAttributes (pending.map fun p => p.value.kind)⟩

end Scan

namespace Step

/-- If the step does not fail, the scan goes on behind a cursor. -/
def Progress (step : Step) (c : Cursor) : Prop := ∀ s, step.next = .ok s → c.Passes s.cursor

theorem Progress.of_error {items : List Item} {failure : Failure} {c : Cursor} :
    Progress ⟨items, .error failure⟩ c := by
  intro s h
  cases h

theorem Progress.of_ok {items : List Item} {s : Scan} {c : Cursor} (h : c.Passes s.cursor) :
    Progress ⟨items, .ok s⟩ c := by
  intro t ht
  cases ht
  exact h

end Step

namespace Scan

open Step (Progress)

theorem contentPath_progress {s : Scan} {c d : Cursor} (h : d.Passes c) :
    Progress (s.contentPath c) d := by
  unfold contentPath
  dsimp only
  split
  · exact .of_error
  next hq => exact .of_ok ((h.trans (Cursor.reaches_of_expectQuoted hq)).trans
      (Cursor.reaches_skipLine _))

theorem bindGroup_progress {s : Scan} {c d : Cursor} (h : d.Passes c) :
    Progress (s.bindGroup c) d := by
  unfold bindGroup
  split
  · exact .of_error
  next hq => exact .of_ok ((h.trans (Cursor.reaches_of_expectQuoted hq)).trans
      (Cursor.reaches_skipLine _))

theorem inclusion_progress {s : Scan} {c d : Cursor} (h : d.Passes c) :
    Progress (s.inclusion c) d := by
  unfold inclusion
  split
  · exact .of_error
  next hq => exact .of_ok ((h.trans (Cursor.reaches_of_expectQuoted hq)).trans
      (Cursor.reaches_skipLine _))

theorem pragma_progress {s : Scan} {c d : Cursor} (h : d.Passes c) : Progress (s.pragma c) d := by
  have hn := (h.trans c.reaches_skipInline).trans (Cursor.reaches_identifier _)
  unfold pragma
  dsimp only
  split
  · exact contentPath_progress hn
  · split
    · exact bindGroup_progress hn
    · exact .of_ok (hn.trans (Cursor.reaches_skipLine _))

theorem directive_progress {s : Scan} {b : UInt8} (h : s.cursor.peek = some b) :
    Progress s.directive s.cursor := by
  have hn := ((Cursor.passes_of_peek h).trans (Cursor.reaches_skipInline _)).trans
    (Cursor.reaches_identifier _)
  unfold directive
  dsimp only
  split
  · exact inclusion_progress hn
  · split
    · exact pragma_progress hn
    · exact .of_ok (hn.trans (Cursor.reaches_skipLine _))

theorem bracket_progress {s : Scan} {b : UInt8} (h : s.cursor.peek = some b) :
    Progress s.bracket s.cursor := by
  unfold bracket
  dsimp only
  split
  · exact .of_error
  next ha =>
    split
    · exact .of_error
    next he =>
      refine .of_ok ((Cursor.passes_of_peek h).trans ((Attribute.reaches_of_read ha).trans ?_))
      exact (Cursor.passes_of_expectByte he).reaches

theorem resource_progress {s : Scan} {kind : ResourceKind} {c d : Cursor} (h : d.Passes c) :
    Progress (s.resource kind c) d := by
  unfold resource
  split
  · exact .of_error
  next hr =>
    refine .of_ok ((h.trans (Resource.passes_of_read hr).reaches).trans ?_)
    exact Resource.reaches_skipDeclaration _

theorem sampler_progress {s : Scan} {c d : Cursor} (h : d.Passes c) :
    Progress (s.sampler c) d := by
  unfold sampler
  split
  · exact .of_error
  · exact .of_ok h
  next hs => exact .of_ok (h.trans (Sampler.reaches_of_read hs))

theorem struct_progress {s : Scan} {c d : Cursor} (h : d.Passes c) : Progress (s.struct c) d := by
  unfold struct
  split
  · exact .of_error
  next hs => exact .of_ok (h.trans (Struct.reaches_of_read hs))
  next hs => exact .of_ok (h.trans (Struct.reaches_of_read hs))

theorem function_progress {s : Scan} {name : String} {c d : Cursor} (h : d.Passes c) :
    Progress (s.function name c) d := by
  unfold function
  dsimp only
  split
  · exact .of_error
  next stop hb =>
    refine .of_ok ((h.trans (c.reaches_advance 1)).trans ?_)
    exact (Function.reaches_of_closeBody hb).trans (stop.reaches_advance 1)

theorem word_progress {s : Scan} {b : UInt8} (h : s.cursor.peek = some b)
    (hb : isIdentifierStart b = true) : Progress s.word s.cursor := by
  have hn := Cursor.passes_identifier_of_start h hb
  unfold word
  dsimp only
  split
  · exact resource_progress hn
  · split
    · exact sampler_progress hn
    · split
      · exact struct_progress hn
      · split
        next hf => exact function_progress (hn.trans (Function.passes_of_bodyStart? hf).reaches)
        · exact .of_ok hn

/-- Every step that does not fail moves the cursor. -/
theorem step_progress {s : Scan} {b : UInt8} (h : s.cursor.peek = some b) :
    Progress (s.step b) s.cursor := by
  unfold step
  split
  next hc => exact .of_ok (Cursor.passes_skipComment hc)
  split
  next hq => exact .of_ok (Cursor.passes_skipString (hq ▸ h))
  split
  · exact directive_progress h
  split
  · exact bracket_progress h
  split
  next hb => exact word_progress h hb
  · exact .of_ok (Cursor.passes_of_peek h)

end Scan

namespace Outline

/-- An outline with items in front of it. -/
def after (o : Outline) (items : List Item) : Outline := { o with items := items ++ o.items }

/-- The outline of what a scan has in front of it. -/
def ofScan (s : Scan) : Outline :=
  match hp : s.cursor.peek with
  | none => ⟨[], Scan.unresolved? s.pending⟩
  | some b =>
    match hs : s.step b with
    | ⟨items, .error failure⟩ => ⟨items, some failure⟩
    | ⟨items, .ok next⟩ =>
      have := (Scan.step_progress hp next (by rw [hs])).rest_lt
      match items with
      | [] => ofScan next
      | items => (ofScan next).after items
termination_by s.cursor.rest.length

/-- The outline of a text. -/
def ofText (source : String) : Outline := ofScan (.ofText source)

end Outline

end BindlessHlsl
