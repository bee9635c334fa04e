import BindlessHlsl.Reading
import BindlessHlsl.Sampler.Basic

/-!
Reading an immutable sampler: a name, an optional preset after a colon, and an optional block of
settings `field = value` in braces. A sampler that is bound to a register, or that has neither
preset nor block, is not one of these and is left alone.
-/

namespace BindlessHlsl.Sampler

open Ascii

/-- The failure to set a field. -/
def settingFailure (place : Location) (field value : String) : SettingFault → Failure
  | .unknownWord => .at place (.unknownKeyword value .value)
  | .notANumber => .at place (.invalidValue field value)

/-- Reads the name of a field. -/
def readField (c : Cursor) : Reading (SamplerField × String × Cursor) := do
  let (word, next) ← c.expectIdentifier .samplerField
  match Keyword.ofWord? word with
  | some field => return (field, word, next)
  | none => throw (.at c.location (.unknownKeyword word .samplerField))

/-- Past the equals sign after a field. -/
def readEquals (c : Cursor) (place : Location) (field : String) : Reading Cursor :=
  match c.skipTrivia.eat? equals with
  | some next => .ok next.skipTrivia
  | none => .error (.at place (.missingSamplerValue field))

/-- Reads one setting and the separator after it. -/
def readSetting (s : SamplerSettings) (c : Cursor) : Reading (SamplerSettings × Cursor) := do
  let (field, word, next) ← readField c
  let next ← readEquals next c.location word
  let place := next.location
  let (value, next) ← next.expectValue .samplerValue
  let s ← (s.set field value).mapError (settingFailure place word value)
  let next ← next.skipTrivia.expectSeparator closeBrace .samplerSeparator
  return (s, next)

theorem passes_of_readField {c d : Cursor} {field : SamplerField} {word : String}
    (h : readField c = .ok (field, word, d)) : c.Passes d := by
  simp only [readField, Reading.bind_eq_ok] at h
  obtain ⟨⟨word', c₁⟩, h₁, h⟩ := h
  dsimp only at h
  split at h <;> cases h
  exact Cursor.passes_of_expectIdentifier h₁

theorem reaches_of_readEquals {c d : Cursor} {place : Location} {field : String}
    (h : readEquals c place field = .ok d) : c.Reaches d := by
  unfold readEquals at h
  split at h <;> cases h
  next next he =>
    exact (c.reaches_skipTrivia.trans (Cursor.passes_of_eat? he).reaches).trans
      next.reaches_skipTrivia

theorem passes_of_readSetting {s t : SamplerSettings} {c d : Cursor}
    (h : readSetting s c = .ok (t, d)) : c.Passes d := by
  simp only [readSetting, Reading.bind_eq_ok] at h
  obtain ⟨⟨field, word, c₁⟩, h₁, c₂, h₂, ⟨value, c₃⟩, h₃, t', _, c₄, h₄, h⟩ := h
  cases h
  refine (passes_of_readField h₁).trans ((reaches_of_readEquals h₂).trans ?_)
  refine (Cursor.reaches_of_expectValue h₃).trans ?_
  exact c₃.reaches_skipTrivia.trans (Cursor.reaches_of_expectSeparator h₄)

/-- Reads settings up to the closing brace. -/
def readBlock (s : SamplerSettings) (c : Cursor) : Reading (SamplerSettings × Cursor) :=
  match c.skipTrivia.peek with
  | none => .error (c.skipTrivia.failure .samplerEnd)
  | some b =>
    if b = closeBrace then .ok (s, c.skipTrivia.advance 1)
    else
      match h : readSetting s c.skipTrivia with
      | .error failure => .error failure
      | .ok (s, next) =>
        have := (c.reaches_skipTrivia.passes (passes_of_readSetting h)).rest_lt
        readBlock s next
termination_by c.rest.length

/-- Reads a preset after a colon. There is none if a register stands there instead. -/
def readPreset (c : Cursor) : Reading (Option (SamplerSettings × Cursor)) :=
  let (word, next) := c.identifier
  if word = "register" then .ok none
  else
    match Keyword.ofWord? word with
    | some (preset : SamplerPreset) => .ok (some (preset.settings, next))
    | none => .error (.at c.location (.unknownKeyword word .samplerPreset))

/-- Reads the settings that a sampler starts from, after its name. There are none for a sampler that
is left alone. -/
def readStart (c : Cursor) : Reading (Option (SamplerSettings × Cursor)) :=
  match c.peek with
  | none => .ok none
  | some b =>
    if b = colon then readPreset (c.advance 1).skipTrivia
    else if b = openBrace then .ok (some (SamplerPreset.default.settings, c))
    else .ok none

/-- Reads the block of a sampler, if it has one. -/
def readOptionalBlock (s : SamplerSettings) (c : Cursor) : Reading (SamplerSettings × Cursor) :=
  if c.peek = some openBrace then readBlock s (c.advance 1) else .ok (s, c)

/-- Past an optional semicolon on this line. -/
def skipSemicolon (c : Cursor) : Cursor :=
  (c.skipInline.eat? semicolon).getD c.skipInline

/-- Reads a sampler after the word that opens it. There is none if it is left alone. -/
def read (c : Cursor) : Reading (Option (String × SamplerSettings × Cursor)) := do
  let (name, next) := c.skipInline.identifier
  if name = "" then return none
  else
    match ← readStart next.skipTrivia with
    | none => return none
    | some (start, next) => do
      let (settings, next) ← readOptionalBlock start next.skipTrivia
      return some (name, settings, skipSemicolon next)

theorem reaches_of_readBlock {s t : SamplerSettings} {c d : Cursor}
    (h : readBlock s c = .ok (t, d)) : c.Reaches d := by
  fun_induction readBlock s c with
  | case1 => cases h
  | case2 s c =>
    cases h
    exact c.reaches_skipTrivia.trans (Cursor.reaches_advance _ 1)
  | case3 => cases h
  | case4 s c _ _ _ t' next hs _ ih =>
    exact (c.reaches_skipTrivia.passes (passes_of_readSetting hs)).reaches.trans (ih h)

theorem reaches_of_readPreset {c d : Cursor} {s : SamplerSettings}
    (h : readPreset c = .ok (some (s, d))) : c.Reaches d := by
  unfold readPreset at h
  dsimp only at h
  split at h
  · cases h
  · split at h <;> cases h
    exact c.reaches_identifier

theorem reaches_of_readStart {c d : Cursor} {s : SamplerSettings}
    (h : readStart c = .ok (some (s, d))) : c.Reaches d := by
  unfold readStart at h
  split at h
  · cases h
  · split at h
    · refine (c.reaches_advance 1).trans ?_
      exact (Cursor.reaches_skipTrivia _).trans (reaches_of_readPreset h)
    · split at h <;> cases h
      exact .refl _

theorem reaches_of_readOptionalBlock {s t : SamplerSettings} {c d : Cursor}
    (h : readOptionalBlock s c = .ok (t, d)) : c.Reaches d := by
  unfold readOptionalBlock at h
  split at h
  · exact (c.reaches_advance 1).trans (reaches_of_readBlock h)
  · cases h
    exact .refl _

theorem reaches_skipSemicolon (c : Cursor) : c.Reaches (skipSemicolon c) := by
  unfold skipSemicolon
  cases he : c.skipInline.eat? semicolon with
  | none => exact c.reaches_skipInline
  | some next => exact c.reaches_skipInline.trans (Cursor.passes_of_eat? he).reaches

theorem reaches_of_read {c d : Cursor} {name : String} {s : SamplerSettings}
    (h : read c = .ok (some (name, s, d))) : c.Reaches d := by
  unfold read at h
  dsimp only at h
  split at h
  · cases h
  · simp only [Reading.bind_eq_ok] at h
    obtain ⟨start, hs, h⟩ := h
    refine (c.reaches_skipInline.trans (Cursor.reaches_identifier _)).trans ?_
    split at h
    · cases h
    · simp only [Reading.bind_eq_ok] at h
      obtain ⟨⟨t, next⟩, hb, h⟩ := h
      cases h
      refine (Cursor.reaches_skipTrivia _).trans ((reaches_of_readStart hs).trans ?_)
      refine (Cursor.reaches_skipTrivia _).trans ((reaches_of_readOptionalBlock hb).trans ?_)
      exact reaches_skipSemicolon next

end BindlessHlsl.Sampler
