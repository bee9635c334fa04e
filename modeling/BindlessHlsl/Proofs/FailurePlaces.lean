import BindlessHlsl.Outline.Basic
import BindlessHlsl.Proofs.CursorText

/-!
Where readers fail. A location is that of an offset of a text (`Location.ofOffset`) if it is the
location of a cursor that was moved through the text. Every reader fails at such a cursor, one that
its own cursor reaches (`Reading.FailsIn`). So the span of a failure lies in the text that was read
(`Cursor.Marks.liesIn`).
-/

namespace BindlessHlsl

open Ascii Utf8

/-! ## Places in a text -/

/-- The location behind bytes that are listed from the nearest one on. -/
def Location.behind (before : List UInt8) : Location :=
  ⟨before.count newline + 1, (before.takeWhile (· != newline)).length + 1⟩

/-- Line and column of an offset of a text, both counted from one. -/
def Location.ofOffset (text : String) (offset : Nat) : Location :=
  .behind ((encode text).take offset).reverse

/-- The span is one between offsets of a text. -/
def Span.LiesIn (text : String) : Span → Prop
  | .point place => ∃ offset ≤ Utf8.length text, Location.ofOffset text offset = place
  | .range start stop => ∃ first last, first < last ∧ last ≤ Utf8.length text ∧
    Location.ofOffset text first = start ∧ Location.ofOffset text last = stop

namespace Cursor

variable {o c d : Cursor}

theorem location_bump (h : c.location = .behind c.before) :
    c.bump.location = .behind c.bump.before := by
  obtain ⟨hline, hcolumn⟩ := Location.mk.inj h
  unfold bump
  split
  · exact h
  next b rest hr =>
    split
    next hb => simp [location, Location.behind, hb, hline]
    next hb => simp [location, Location.behind, hb, hline, hcolumn]

theorem location_advance (h : c.location = .behind c.before) (n : Nat) :
    (c.advance n).location = .behind (c.advance n).before := by
  induction n generalizing c with
  | zero => exact h
  | succ n ih =>
    unfold advance
    split
    · exact h
    · exact ih (location_bump h)

/-- A cursor that was moved through a text is at the line and column of its offset. -/
theorem Reaches.location_eq {text : String} (h : (ofText text).Reaches c) :
    c.location = Location.ofOffset text c.pos := by
  have hw := (within_ofText text).reaches h
  have hbefore : c.before.reverse = (encode text).take c.pos := by
    rw [← hw.bytes_eq, bytes, hw.pos_eq, ← List.length_reverse, List.take_left]
  have hlocation : c.location = .behind c.before := by
    obtain ⟨n, rfl⟩ := h
    exact location_advance rfl n
  rw [hlocation, Location.ofOffset, ← hbefore, List.reverse_reverse]

theorem Reaches.pos_le_length {text : String} (h : (ofText text).Reaches c) :
    c.pos ≤ Utf8.length text :=
  length_encode text ▸ ((within_ofText text).reaches h).pos_le

/-- The span of a place that a cursor reaches, or between two such places. -/
inductive Marks (o : Cursor) : Span → Prop
  | point {c : Cursor} : o.Reaches c → Marks o (.point c.location)
  | between {c d : Cursor} : o.Reaches c → c.Passes d → Marks o (.between c.location d.location)

theorem Marks.liesIn {text : String} {span : Span} (h : (ofText text).Marks span) :
    span.LiesIn text := by
  cases h with
  | point hc => exact ⟨_, hc.pos_le_length, hc.location_eq.symm⟩
  | between hc hcd =>
    unfold Span.between
    split
    · exact ⟨_, hc.pos_le_length, hc.location_eq.symm⟩
    · have hd := hc.trans hcd.reaches
      exact ⟨_, _, hcd.pos_lt, hd.pos_le_length, hc.location_eq.symm, hd.location_eq.symm⟩

end Cursor

/-! ## Failures -/

namespace Reading

variable {α β : Type} {o c : Cursor} {x : Reading α}

/-- Reading fails only at places that a cursor reaches. -/
def FailsIn (o : Cursor) (x : Reading α) : Prop :=
  ∀ failure, x = .error failure → o.Marks failure.span

theorem failsIn_ok {a : α} : FailsIn o (.ok a) := nofun

theorem failsIn_at {cause : Cause} (h : o.Reaches c) :
    FailsIn (α := α) o (.error (.at c.location cause)) := by
  rintro _ ⟨⟩
  exact .point h

theorem failsIn_failure {what : Expectation} (h : o.Reaches c) :
    FailsIn (α := α) o (.error (c.failure what)) := failsIn_at h

theorem FailsIn.bind {f : α → Reading β} (hx : FailsIn o x)
    (hf : ∀ a, x = .ok a → FailsIn o (f a)) : FailsIn o (x >>= f) := by
  cases x with
  | error failure =>
    rintro _ ⟨⟩
    exact hx _ rfl
  | ok a => exact hf a rfl

theorem FailsIn.of_error {failure : Failure} (hx : FailsIn o x) (h : x = .error failure) :
    FailsIn (α := β) o (.error failure) := by
  rintro _ ⟨⟩
  exact hx failure h

theorem FailsIn.mapError {ε : Type} {x : Except ε α} {fail : ε → Failure}
    (h : ∀ e, o.Marks (fail e).span) : FailsIn o (x.mapError fail) := by
  cases x with
  | error e =>
    rintro _ ⟨⟩
    exact h e
  | ok a => exact failsIn_ok

theorem failsIn_require {condition : Bool} {cause : Cause} (h : o.Reaches c) :
    FailsIn o (require condition (.at c.location cause)) := by
  unfold require
  split
  · exact failsIn_ok
  · exact failsIn_at h

end Reading

open Reading

namespace Cursor

variable {o c : Cursor} {what : Expectation}

theorem failsIn_expectByte {b : UInt8} (h : o.Reaches c) : FailsIn o (c.expectByte b what) := by
  unfold expectByte
  split
  · exact failsIn_ok
  · exact failsIn_failure h

theorem failsIn_expectIdentifier (h : o.Reaches c) : FailsIn o (c.expectIdentifier what) := by
  unfold expectIdentifier
  split
  · exact failsIn_failure (h.trans c.reaches_identifier)
  · exact failsIn_ok

theorem failsIn_expectValue (h : o.Reaches c) : FailsIn o (c.expectValue what) := by
  have hvalue := h.trans c.reaches_value
  unfold expectValue
  split
  · exact failsIn_ok
  next next _ he =>
    rw [he] at hvalue
    exact failsIn_failure hvalue

theorem failsIn_expectQuoted (h : o.Reaches c) : FailsIn o (c.expectQuoted what) := by
  have hquoted := (h.trans c.reaches_skipInline).trans (Cursor.reaches_quoted _)
  unfold expectQuoted
  split
  · exact failsIn_ok
  next next _ he =>
    rw [he] at hquoted
    exact failsIn_failure hquoted

theorem failsIn_expectSeparator {closing : UInt8} (h : o.Reaches c) :
    FailsIn o (c.expectSeparator closing what) := by
  unfold expectSeparator
  split
  · exact failsIn_ok
  · split
    · exact failsIn_ok
    · exact failsIn_failure h

end Cursor

/-! ## Attributes -/

namespace Attribute

variable {o c : Cursor} {arguments : List Argument}

/-- Arguments whose keys stand at places that a cursor reaches. -/
def Located (o : Cursor) (arguments : List Argument) : Prop :=
  ∀ a ∈ arguments, ∃ c, o.Reaches c ∧ a.location = c.location

theorem failsIn_readArgument (earlier : List Argument) (h : o.Reaches c) :
    FailsIn o (readArgument earlier c) := by
  refine .bind (Cursor.failsIn_expectIdentifier h) fun ⟨key, c₁⟩ h₁ => ?_
  have hc₁ := h.trans (Cursor.passes_of_expectIdentifier h₁).reaches
  refine .bind (failsIn_require h) fun _ _ => ?_
  have hs₁ := hc₁.trans c₁.reaches_skipBlank
  refine .bind (Cursor.failsIn_expectByte hs₁) fun c₂ h₂ => ?_
  have hs₂ := (hs₁.trans (Cursor.passes_of_expectByte h₂).reaches).trans c₂.reaches_skipBlank
  refine .bind (Cursor.failsIn_expectValue hs₂) fun ⟨value, c₃⟩ h₃ => ?_
  have hs₃ := (hs₂.trans (Cursor.reaches_of_expectValue h₃)).trans c₃.reaches_skipBlank
  exact .bind (Cursor.failsIn_expectSeparator hs₃) fun _ _ => failsIn_ok

theorem location_of_readArgument {earlier : List Argument} {a : Argument} {d : Cursor}
    (h : readArgument earlier c = .ok (a, d)) : a.location = c.location := by
  simp only [readArgument, Reading.bind_eq_ok] at h
  obtain ⟨_, _, _, _, _, _, _, _, _, _, h⟩ := h
  cases h
  rfl

theorem failsIn_readArguments {earlier : List Argument} (h : o.Reaches c) :
    FailsIn o (readArguments earlier c) := by
  fun_induction readArguments earlier c with
  | case1 => exact failsIn_ok
  | case2 earlier c _ failure hf =>
    exact (failsIn_readArgument earlier (h.trans c.reaches_skipBlank)).of_error hf
  | case3 earlier c _ a next ha _ ih =>
    exact ih ((h.trans c.reaches_skipBlank).trans (passes_of_readArgument ha).reaches)

theorem located_of_readArguments {earlier result : List Argument} {d : Cursor} (h : o.Reaches c)
    (hr : readArguments earlier c = .ok (result, d)) (he : Located o earlier) :
    Located o result := by
  fun_induction readArguments earlier c with
  | case1 =>
    cases hr
    exact he
  | case2 => cases hr
  | case3 earlier c _ a next ha _ ih =>
    have hc := h.trans c.reaches_skipBlank
    refine ih (hc.trans (passes_of_readArgument ha).reaches) hr fun a' ha' => ?_
    rcases List.mem_append.1 ha' with ha' | ha'
    · exact he a' ha'
    · obtain rfl := List.mem_singleton.1 ha'
      exact ⟨_, hc, location_of_readArgument ha⟩

theorem Located.failsIn_at {α : Type} {a : Argument} {cause : Cause} (h : Located o arguments)
    (ha : a ∈ arguments) : FailsIn (α := α) o (.error (.at a.location cause)) := by
  obtain ⟨c, hc, he⟩ := h a ha
  rw [he]
  exact Reading.failsIn_at hc

theorem failsIn_checkKeys {known : List String} (h : Located o arguments) :
    FailsIn o (checkKeys arguments known) := by
  unfold checkKeys
  split
  next a ha => exact h.failsIn_at (List.mem_of_find?_eq_some ha)
  next => exact failsIn_ok

theorem failsIn_wordArgument? {α : Type} [Keyword α] {key : String} (h : Located o arguments) :
    FailsIn o (wordArgument? (α := α) arguments key) := by
  unfold wordArgument?
  split
  · exact failsIn_ok
  next a ha =>
    split
    · exact failsIn_ok
    · exact h.failsIn_at (List.mem_of_find?_eq_some ha)

theorem failsIn_numberArgument? {key : String} (h : Located o arguments) :
    FailsIn o (numberArgument? arguments key) := by
  unfold numberArgument?
  split
  · exact failsIn_ok
  next a ha =>
    split
    · exact failsIn_ok
    · exact h.failsIn_at (List.mem_of_find?_eq_some ha)

theorem failsIn_given {α : Type} {value : Option α} {kind : AttributeKind} {key : String}
    (h : o.Reaches c) : FailsIn o (given value kind key c.location) := by
  unfold given
  split
  · exact failsIn_ok
  · exact Reading.failsIn_at h

theorem failsIn_inputElement (h : o.Reaches c) (ha : Located o arguments) :
    FailsIn o (inputElement arguments c.location) := by
  refine .bind (failsIn_checkKeys ha) fun _ _ => ?_
  refine .bind (failsIn_given h) fun _ _ => ?_
  refine .bind (failsIn_numberArgument? ha) fun _ _ => ?_
  refine .bind (failsIn_numberArgument? ha) fun _ _ => ?_
  refine .bind (failsIn_wordArgument? ha) fun _ _ => ?_
  refine .bind (failsIn_wordArgument? ha) fun _ _ => ?_
  exact .bind (failsIn_given h) fun _ _ => failsIn_ok

theorem failsIn_propertyOf (h : o.Reaches c) (ha : Located o arguments) :
    FailsIn o (propertyOf arguments c.location) := by
  refine .bind (failsIn_checkKeys ha) fun _ _ => ?_
  refine .bind (failsIn_given h) fun _ _ => ?_
  exact .bind (failsIn_wordArgument? ha) fun _ _ => failsIn_ok

theorem failsIn_withoutArguments {a : Attribute} (h : o.Reaches c) :
    FailsIn o (withoutArguments a arguments c.location) := by
  unfold withoutArguments
  split
  · exact failsIn_ok
  · exact Reading.failsIn_at h

theorem failsIn_ofArguments {kind : AttributeKind} (h : o.Reaches c) (ha : Located o arguments) :
    FailsIn o (ofArguments kind arguments c.location) := by
  cases kind with
  | vertex | pixel | constants => exact failsIn_withoutArguments h
  | inputLayout => exact .bind (failsIn_inputElement h ha) fun _ _ => failsIn_ok
  | property => exact .bind (failsIn_propertyOf h ha) fun _ _ => failsIn_ok
  | bindGroup =>
    exact .bind (.bind (failsIn_checkKeys ha) fun _ _ => failsIn_ok) fun _ _ => failsIn_ok

theorem failsIn_readKind (h : o.Reaches c) : FailsIn o (readKind c) := by
  unfold readKind
  dsimp only
  split
  · exact failsIn_ok
  · split
    · exact failsIn_failure (h.trans c.reaches_identifier)
    · exact Reading.failsIn_at h

theorem failsIn_readOptionalArguments (h : o.Reaches c) :
    FailsIn o (readOptionalArguments c) := by
  unfold readOptionalArguments
  split
  · exact failsIn_readArguments (h.trans (c.reaches_advance 1))
  · exact failsIn_ok

theorem located_of_readOptionalArguments {d : Cursor} (h : o.Reaches c)
    (hr : readOptionalArguments c = .ok (arguments, d)) : Located o arguments := by
  unfold readOptionalArguments at hr
  split at hr
  · exact located_of_readArguments (h.trans (c.reaches_advance 1)) hr nofun
  · cases hr
    exact nofun

theorem failsIn_read (h : o.Reaches c) : FailsIn o (read c) := by
  have hs := (h.trans (c.reaches_advance 1)).trans (Cursor.reaches_skipInline _)
  refine .bind (failsIn_readKind hs) fun ⟨kind, c₁⟩ h₁ => ?_
  have hs₁ := (hs.trans (reaches_of_readKind h₁)).trans c₁.reaches_skipInline
  refine .bind (failsIn_readOptionalArguments hs₁) fun ⟨arguments, c₂⟩ h₂ => ?_
  exact .bind (failsIn_ofArguments h (located_of_readOptionalArguments hs₁ h₂)) fun _ _ =>
    failsIn_ok

end Attribute

/-! ## Resources and samplers -/

namespace Resource

variable {o c : Cursor}

theorem failsIn_readElement (h : o.Reaches c) : FailsIn o (readElement c) := by
  unfold readElement
  split
  · exact failsIn_ok
  next next he =>
    have hs := ((h.trans c.reaches_skipInline).trans (Cursor.passes_of_eat? he).reaches).trans
      next.reaches_skipInline
    refine .bind (Cursor.failsIn_expectIdentifier hs) fun ⟨element, c₁⟩ h₁ => ?_
    have hs₁ := (hs.trans (Cursor.passes_of_expectIdentifier h₁).reaches).trans
      c₁.reaches_skipInline
    exact .bind (Cursor.failsIn_expectByte hs₁) fun _ _ => failsIn_ok

theorem failsIn_read (h : o.Reaches c) : FailsIn o (read c) := by
  refine .bind (failsIn_readElement h) fun ⟨element, c₁⟩ h₁ => ?_
  exact .bind (Cursor.failsIn_expectIdentifier (h.trans (reaches_of_readElement h₁))) fun _ _ =>
    failsIn_ok

end Resource

namespace Sampler

variable {o c : Cursor} {s : SamplerSettings}

theorem failsIn_readField (h : o.Reaches c) : FailsIn o (readField c) := by
  refine .bind (Cursor.failsIn_expectIdentifier h) fun ⟨word, c₁⟩ _ => ?_
  dsimp only
  split
  · exact failsIn_ok
  · exact failsIn_at h

theorem failsIn_readEquals {d : Cursor} {field : String} (h : o.Reaches d) :
    FailsIn o (readEquals c d.location field) := by
  unfold readEquals
  split
  · exact failsIn_ok
  · exact failsIn_at h

theorem failsIn_readSetting (s : SamplerSettings) (h : o.Reaches c) :
    FailsIn o (readSetting s c) := by
  refine .bind (failsIn_readField h) fun ⟨field, word, c₁⟩ h₁ => ?_
  have hc₁ := h.trans (passes_of_readField h₁).reaches
  refine .bind (failsIn_readEquals h) fun c₂ h₂ => ?_
  have hc₂ := hc₁.trans (reaches_of_readEquals h₂)
  refine .bind (Cursor.failsIn_expectValue hc₂) fun ⟨value, c₃⟩ h₃ => ?_
  have hs₃ := (hc₂.trans (Cursor.reaches_of_expectValue h₃)).trans c₃.reaches_skipTrivia
  refine .bind (.mapError fun fault => ?_) fun s _ => ?_
  · cases fault <;> exact .point hc₂
  · exact .bind (Cursor.failsIn_expectSeparator hs₃) fun _ _ => failsIn_ok

theorem failsIn_readBlock (s : SamplerSettings) (h : o.Reaches c) : FailsIn o (readBlock s c) := by
  fun_induction readBlock s c with
  | case1 s c => exact failsIn_failure (h.trans c.reaches_skipTrivia)
  | case2 => exact failsIn_ok
  | case3 s c _ _ _ failure hf =>
    exact (failsIn_readSetting s (h.trans c.reaches_skipTrivia)).of_error hf
  | case4 s c _ _ _ t next hs _ ih =>
    exact ih ((h.trans c.reaches_skipTrivia).trans (passes_of_readSetting hs).reaches)

theorem failsIn_readPreset (h : o.Reaches c) : FailsIn o (readPreset c) := by
  unfold readPreset
  dsimp only
  split
  · exact failsIn_ok
  · split
    · exact failsIn_ok
    · exact failsIn_at h

theorem failsIn_readStart (h : o.Reaches c) : FailsIn o (readStart c) := by
  unfold readStart
  split
  · exact failsIn_ok
  · split
    · exact failsIn_readPreset ((h.trans (c.reaches_advance 1)).trans (Cursor.reaches_skipTrivia _))
    · split <;> exact failsIn_ok

theorem failsIn_readOptionalBlock (h : o.Reaches c) : FailsIn o (readOptionalBlock s c) := by
  unfold readOptionalBlock
  split
  · exact failsIn_readBlock s (h.trans (c.reaches_advance 1))
  · exact failsIn_ok

theorem failsIn_read (h : o.Reaches c) : FailsIn o (read c) := by
  have hname := (h.trans c.reaches_skipInline).trans (Cursor.reaches_identifier _)
  have hs := hname.trans (Cursor.reaches_skipTrivia _)
  unfold read
  dsimp only
  split
  · exact failsIn_ok
  · refine .bind (failsIn_readStart hs) fun start h₁ => ?_
    cases start with
    | none => exact failsIn_ok
    | some start =>
      obtain ⟨settings, c₁⟩ := start
      have hs₁ := (hs.trans (reaches_of_readStart h₁)).trans c₁.reaches_skipTrivia
      exact .bind (failsIn_readOptionalBlock hs₁) fun _ _ => failsIn_ok

end Sampler

/-! ## Structs -/

namespace Struct

variable {o c : Cursor}

theorem failsIn_readTypeName (h : o.Reaches c) : FailsIn o (readTypeName c) := by
  fun_induction readTypeName c with
  | case1 c failure hf => exact (Cursor.failsIn_expectIdentifier h).of_error hf
  | case2 c word next hi _ _ ih =>
    exact ih
      ((h.trans (Cursor.passes_of_expectIdentifier hi).reaches).trans next.reaches_skipTrivia)
  | case3 => exact failsIn_ok

theorem failsIn_closeAngles (depth : Nat) (h : o.Reaches c) : FailsIn o (closeAngles depth c) := by
  fun_induction closeAngles depth c with
  | case1 => exact failsIn_failure h
  | case3 => exact failsIn_ok
  | case2 depth c | case4 depth c | case5 depth c =>
    rename_i ih
    exact ih (h.trans (c.reaches_advance 1))

theorem failsIn_readGeneric {typeName : String} (h : o.Reaches c) :
    FailsIn o (readGeneric typeName c) := by
  refine .bind (failsIn_closeAngles 0 h) fun next hn => ?_
  split
  · dsimp only
    split
    · exact failsIn_ok
    · exact failsIn_at (h.trans (reaches_of_closeAngles hn))
  · exact failsIn_ok

theorem failsIn_readType (h : o.Reaches c) : FailsIn o (readType c) := by
  refine .bind (failsIn_readTypeName h) fun ⟨typeName, next⟩ hn => ?_
  have hs := (h.trans (passes_of_readTypeName hn).reaches).trans next.reaches_skipTrivia
  dsimp only
  split
  · exact failsIn_readGeneric hs
  · exact failsIn_ok

theorem failsIn_closeParens (depth : Nat) (h : o.Reaches c) : FailsIn o (closeParens depth c) := by
  fun_induction closeParens depth c with
  | case1 => exact failsIn_failure h
  | case3 => exact failsIn_ok
  | case2 depth c | case4 depth c | case5 depth c =>
    rename_i ih
    exact ih (h.trans (c.reaches_advance 1))

theorem failsIn_closeBraces (depth : Nat) (h : o.Reaches c) : FailsIn o (closeBraces depth c) := by
  fun_induction closeBraces depth c with
  | case1 depth c hc _ ih => exact ih (h.trans (Cursor.passes_skipComment hc).reaches)
  | case2 => exact failsIn_failure h
  | case4 => exact failsIn_ok
  | case3 depth c | case5 depth c | case6 depth c =>
    rename_i ih
    exact ih (h.trans (c.reaches_advance 1))

theorem failsIn_skipFunction (h : o.Reaches c) : FailsIn o (skipFunction c) := by
  refine .bind (failsIn_closeParens 0 h) fun next hn => ?_
  have hs := (h.trans (reaches_of_closeParens hn)).trans next.reaches_skipTrivia
  dsimp only
  split
  · exact failsIn_ok
  · split
    · exact failsIn_closeBraces 0 hs
    · exact failsIn_failure hs

theorem failsIn_readArrayLength {name : String} (h : o.Reaches c) :
    FailsIn o (readArrayLength name c) := by
  unfold readArrayLength
  split
  · exact failsIn_ok
  next next he =>
    have hs := (h.trans (Cursor.passes_of_eat? he).reaches).trans next.reaches_skipTrivia
    have hs₁ := (hs.trans (Cursor.reaches_valueToken _)).trans (Cursor.reaches_skipTrivia _)
    dsimp only
    split
    · exact failsIn_at hs
    · exact .bind (Cursor.failsIn_expectByte hs₁) fun _ _ => failsIn_ok

theorem failsIn_findSemicolon (h : o.Reaches c) : FailsIn o (findSemicolon c) := by
  unfold findSemicolon
  dsimp only
  split
  · exact failsIn_ok
  · exact failsIn_failure (h.trans (c.reaches_advance _))

theorem failsIn_readData {start : Cursor} {type : MemberType} {name : String} (h : o.Reaches c) :
    FailsIn o (readData start type name c) := by
  refine .bind (failsIn_readArrayLength h) fun ⟨length, next⟩ hn => ?_
  exact .bind (failsIn_findSemicolon (h.trans (reaches_of_readArrayLength hn))) fun _ _ =>
    failsIn_ok

theorem failsIn_readMember (h : o.Reaches c) : FailsIn o (readMember c) := by
  refine .bind (failsIn_readType h) fun ⟨type, c₁⟩ h₁ => ?_
  have hs₁ := (h.trans (passes_of_readType h₁).reaches).trans c₁.reaches_skipTrivia
  refine .bind (Cursor.failsIn_expectIdentifier hs₁) fun ⟨name, c₂⟩ h₂ => ?_
  have hs₂ := (hs₁.trans (Cursor.passes_of_expectIdentifier h₂).reaches).trans c₂.reaches_skipTrivia
  dsimp only
  split
  · exact .bind (failsIn_skipFunction hs₂) fun _ _ => failsIn_ok
  · exact .bind (failsIn_readData hs₂) fun _ _ => failsIn_ok

theorem failsIn_readMembers (earlier : List Member) (h : o.Reaches c) :
    FailsIn o (readMembers earlier c) := by
  fun_induction readMembers earlier c with
  | case1 earlier c => exact failsIn_failure (h.trans c.reaches_skipTrivia)
  | case2 => exact failsIn_ok
  | case3 earlier c _ _ _ failure hf =>
    exact (failsIn_readMember (h.trans c.reaches_skipTrivia)).of_error hf
  | case4 earlier c _ _ _ member next hm _ ih =>
    exact ih ((h.trans c.reaches_skipTrivia).trans (passes_of_readMember hm).reaches)

theorem failsIn_read (h : o.Reaches c) : FailsIn o (read c) := by
  have hs := ((h.trans c.reaches_skipTrivia).trans (Cursor.reaches_identifier _)).trans
    (Cursor.reaches_skipTrivia _)
  unfold read
  dsimp only
  split
  · exact failsIn_ok
  next next he =>
    exact .bind (failsIn_readMembers [] (hs.trans (Cursor.passes_of_eat? he).reaches)) fun _ _ =>
      failsIn_ok

end Struct

end BindlessHlsl
