import BindlessHlsl.Proofs.InspectionEffects
import BindlessHlsl.Proofs.InspectionLocality
import BindlessHlsl.Proofs.Spelling

/-!
A pragma on a line of its own is handled in one step of an inspection, which stops at the newline
behind it (`NoteScan.next_line`) and reports one diagnostic at most. A pragma that is rejected
leaves no trace in what is recorded: without its line the file gives the same notes, further up
(`NoteScan.notes_of_rejected`), and every inspection that meets the file gives the same records
(`Inspection.ofSource_exchange`).
-/

namespace BindlessHlsl

open Ascii Utf8 Relation

/-! ## Logical lines -/

/-- The bytes end in a backslash, carriage returns aside, which continues a line past its
newline. -/
def Continued (bytes : List UInt8) : Prop :=
  ∃ front n, bytes = front ++ backslash :: List.replicate n carriageReturn

theorem Continued.append {bytes : List UInt8} (h : Continued bytes) (more : List UInt8) :
    Continued (more ++ bytes) := by
  obtain ⟨front, n, rfl⟩ := h
  exact ⟨more ++ front, n, by simp⟩

theorem Continued.cons {bytes : List UInt8} (h : Continued bytes) (b : UInt8) :
    Continued (b :: bytes) := h.append [b]

theorem Continued.insert_return {bytes : List UInt8} (h : Continued (backslash :: bytes)) :
    Continued (backslash :: carriageReturn :: bytes) := by
  obtain ⟨front, n, hf⟩ := h
  cases front with
  | nil =>
    obtain rfl := (List.cons.inj hf).2
    exact ⟨[], n + 1, rfl⟩
  | cons b front =>
    obtain ⟨rfl, rfl⟩ := List.cons.inj hf
    exact Continued.append ⟨front, n, rfl⟩ [backslash, carriageReturn]

namespace Lexeme

/-- A physical line that is not continued is a logical one. The flag stands for a backslash in front
of it. -/
theorem lineRest_of_not_continued {continued : Bool} {bytes more : List UInt8}
    (hn : newline ∉ bytes) (hc : ¬Continued (if continued then backslash :: bytes else bytes)) :
    lineRest continued (bytes ++ newline :: more) = bytes.length := by
  induction bytes generalizing continued with
  | nil =>
    cases continued with
    | false => rfl
    | true => exact absurd ⟨[], 0, rfl⟩ hc
  | cons b bytes ih =>
    obtain ⟨hb, hbytes⟩ := not_or.1 (mt List.mem_cons.2 hn)
    rw [List.cons_append, lineRest, if_neg (Ne.symm hb), List.length_cons]
    split
    next hr =>
      subst hr
      have hrest : ¬Continued (if continued then backslash :: bytes else bytes) := by
        cases continued with
        | false => exact fun h => hc (h.cons _)
        | true => exact fun h => hc h.insert_return
      rw [ih hbytes hrest, Nat.add_comm]
    next hr =>
      have hrest : ¬Continued (if b == backslash then backslash :: bytes else bytes) := by
        intro h
        have hcons : Continued (b :: bytes) := by
          split at h
          next hslash => rwa [beq_iff_eq.1 hslash]
          next => exact h.cons b
        refine hc ?_
        split
        · exact hcons.cons _
        · exact hcons
      rw [ih hbytes hrest, Nat.add_comm]

end Lexeme

/-! ## Pragmas -/

namespace Note

variable {known : List String} {start : Location} {c : Cursor}

/-- What a pragma can give where the identifiers are known: a declaration that was checked, or a
fault. -/
def Checked (known : List String) : Note → Prop
  | .bindGroup name => isPrintable name = true
  | .variant v =>
    (∃ text, variantFault? .identifier text = none ∧ v.identifier = lower text) ∧
      v.identifier ∉ known ∧ ∀ name ∈ v.displayName, variantFault? .displayName name = none
  | .fault .. => True
  | .inclusion .. => False

/-- What a directive gives is checked. -/
def Sound (known : List String) (outcome : Outcome) : Prop := ∀ note ∈ outcome.1, note.Checked known

theorem sound_some {note : Note} (h : note.Checked known) : Sound known (some note, c) := by
  rintro _ ⟨⟩
  exact h

theorem sound_faulty (reason : NoteFault) : Sound known (faulty start c reason) :=
  sound_some trivial

theorem sound_withQuoted {part : QuotedPart} {next : String → Cursor → Outcome}
    (h : ∀ text c, Sound known (next text c)) : Sound known (withQuoted start part c next) := by
  unfold withQuoted
  split
  · exact h _ _
  · exact sound_faulty _
  · exact sound_faulty _

theorem sound_bindGroupAt : Sound known (bindGroupAt start c) := by
  refine sound_withQuoted fun name c => ?_
  split
  next hp => exact sound_some hp
  next => exact sound_faulty _

theorem sound_displayNameAt {kind : VariantKind} {text : String}
    (ht : variantFault? .identifier text = none) (hn : lower text ∉ known) :
    Sound known (displayNameAt start kind (lower text) c) := by
  unfold displayNameAt
  dsimp only
  split
  · refine sound_withQuoted fun name c => ?_
    split
    · exact sound_faulty _
    next hname =>
      refine sound_some ⟨⟨text, ht, rfl⟩, hn, ?_⟩
      rintro _ ⟨⟩
      exact hname
  · exact sound_some ⟨⟨text, ht, rfl⟩, hn, nofun⟩

theorem sound_variantAt : Sound known (variantAt start known c) := by
  unfold variantAt
  dsimp only
  split
  · exact sound_faulty _
  · refine sound_withQuoted fun text c => ?_
    split
    · exact sound_faulty _
    next ht =>
      split
      · exact sound_faulty _
      next hn => exact sound_displayNameAt ht hn

theorem sound_pragmaAt : Sound known (pragmaAt start known c) := by
  unfold pragmaAt
  dsimp only
  split
  · exact sound_bindGroupAt
  split
  · exact sound_variantAt
  · nofun

end Note

/-- A pragma on a line of its own. -/
structure PragmaLine (line : String) : Prop where
  pragma : ∃ blanks more, encode line = hash :: (blanks ++ (encode "pragma" ++ more)) ∧
    ∀ b ∈ blanks, isInlineBlank b = true
  single : newline ∉ encode line
  ends : ¬Continued (encode line)

namespace Note

open Cursor

variable {c : Cursor} {r t : List UInt8}

/-- What is read of a directive stops in front of the newline behind it. -/
theorem rest_directiveAt (known : List String) (hr : c.rest = r ++ t)
    (hlast : r.getLast? = some newline) (hp : c.peek = some hash) :
    ∃ r', (directiveAt known c).2.rest = r' ++ t ∧ r' ≠ [] := by
  -- A text that goes on behind `t` is read alike, so that nothing depends on the end of the text.
  have hshares : Shares 0 r t (t ++ [hash]) c { c with rest := r ++ (t ++ [hash]) } :=
    ⟨hr, rfl, rfl⟩
  obtain ⟨-, r', hr', hseam⟩ := matches_directiveAt known ⟨r, hshares, .line hlast⟩ hp
  refine ⟨r', hr'.left, ?_⟩
  rintro rfl
  generalize ht : t ++ [hash] = more at hseam
  cases hseam with
  | line h => cases h
  | ending => simp at ht

end Note

variable {t : NoteScan} {line : String} {more : List UInt8}

theorem PragmaLine.peek_eq (hl : PragmaLine line)
    (hr : t.cursor.rest = encode line ++ newline :: more) : t.cursor.peek = some hash := by
  obtain ⟨blanks, tail, hline, -⟩ := hl.pragma
  rw [Cursor.peek, hr, hline]
  rfl

namespace NoteScan

open Cursor

/-- A pragma on a line of its own is passed in one step. -/
theorem step_line (hl : PragmaLine line) (hr : t.cursor.rest = encode line ++ newline :: more) :
    (Note.step t.known t.cursor hash).2 = t.cursor.advance (length line) := by
  have hp := hl.peek_eq hr
  obtain ⟨r', hrest, hr'⟩ := Note.rest_directiveAt t.known
    (r := encode line ++ [newline]) (t := more) (by rw [hr]; simp) (by simp) hp
  have hpasses : t.cursor.Passes (Note.directiveAt t.known t.cursor).2 := Note.passes_directiveAt hp
  obtain ⟨n, hn⟩ := hpasses.reaches
  rw [hn, rest_advance, hr] at hrest
  have hle : n ≤ (encode line).length := by
    have hlength := congrArg List.length hrest
    have hpos := List.length_pos_iff.2 hr'
    simp only [List.length_drop, List.length_append, List.length_cons] at hlength
    omega
  -- What is left of the line is not continued either.
  have hline : Lexeme.line ((encode line).drop n ++ newline :: more) =
      ((encode line).drop n).length := by
    refine Lexeme.lineRest_of_not_continued (fun h => hl.single (List.mem_of_mem_drop h))
      fun h => ?_
    have hwhole := h.append ((encode line).take n)
    rw [if_neg (by decide), List.take_append_drop] at hwhole
    exact hl.ends hwhole
  have hc := not_atComment_of_peek hp (by decide)
  simp only [Note.step, if_neg hc, if_true, hn, skipLine, rest_advance, hr]
  rw [List.drop_append_of_le_length hle, hline, advance_advance, List.length_drop,
    Nat.add_sub_of_le hle, length_encode]

theorem notes_byte {b : UInt8} (h : t.cursor.peek = some b) (hc : t.cursor.atComment = false)
    (hb : b ≠ hash) : t.notes = NoteScan.notes ⟨t.known, t.cursor.advance 1⟩ := by
  rw [notes_of_peek h]
  simp [next, Note.step, hc, hb]

/-- What was noticed on the way, and which identifiers were declared in it. -/
theorem notes_of_goesOn {u : NoteScan} (h : ReflTransGen GoesOn t u) :
    ∃ before, t.notes = before ++ u.notes ∧
      u.known = (before.flatMap Note.identifiers).reverse ++ t.known := by
  induction h using ReflTransGen.head_induction_on with
  | refl => exact ⟨[], rfl, rfl⟩
  | @head t _ hstep _ ih =>
    obtain ⟨b, hp, rfl⟩ := hstep
    obtain ⟨before, hb, hk⟩ := ih
    refine ⟨_, by rw [notes_of_peek hp, hb, ← List.append_assoc], ?_⟩
    have hknown : (t.next b).known = (Note.step t.known t.cursor b).1.elim [] Note.identifiers ++
        t.known := rfl
    rw [hk, hknown]
    cases (Note.step t.known t.cursor b).1 with
    | none => rfl
    | some note => cases note <;> simp [Note.identifiers]

/-- An inspection runs to the end of its text. -/
theorem exists_end (t : NoteScan) : ∃ u, ReflTransGen GoesOn t u ∧ u.cursor.rest = [] := by
  induction hn : t.cursor.rest.length using Nat.strong_induction_on generalizing t with
  | h n ih =>
    cases hr : t.cursor.rest with
    | nil => exact ⟨t, .refl, hr⟩
    | cons b rest =>
      have hstep : GoesOn t (t.next b) := ⟨b, by rw [peek, hr]; rfl, rfl⟩
      obtain ⟨u, hrun, hend⟩ := ih _ (hn ▸ hstep.passes.rest_lt) _ rfl
      exact ⟨u, hrun.head hstep, hend⟩

theorem notes_eq_nil (h : t.cursor.rest = []) : t.notes = [] := by
  rw [notes, Note.fromCursor]
  split
  · rfl
  next hp => simp [peek, h] at hp

/-- Texts that go on alike to their ends give the same notes. -/
theorem notes_of_shares {lines : Nat} {r : List UInt8} {d : Cursor}
    (h : Shares lines r [] [] t.cursor d) :
    t.notes = (NoteScan.notes ⟨t.known, d⟩).map (Note.below lines) := by
  obtain ⟨u, hrun, hend⟩ := t.exists_end
  obtain ⟨front, e, hleft, hright, -, hshares⟩ :=
    exists_parallel hrun hend id nofun h fun _ => .ending
  rw [hleft, hright, notes_eq_nil hend, notes_eq_nil (t := ⟨u.known, e⟩) hshares.right,
    List.append_nil, List.append_nil]

/-! ## Arriving at a line -/

/-- An inspection arrives at the start of a line: at the start of its text or behind a newline. -/
structure ArrivesAt (front behind : String) (t : NoteScan) : Prop where
  starts : front = "" ∨ ∃ text, front = text ++ "\n"
  arrives : ReflTransGen GoesOn (ofText (front ++ behind)) t
  pos : t.cursor.pos = length front

variable {front behind back : String}

theorem encode_newline : encode "\n" = [newline] := by decide

namespace ArrivesAt

theorem getLast?_eq (h : ArrivesAt front behind t) (hf : encode front ≠ []) :
    (encode front).getLast? = some newline := by
  rcases h.starts with rfl | ⟨text, rfl⟩
  · exact absurd rfl hf
  · rw [encode_append, encode_newline, List.getLast?_concat]

theorem rest_eq (h : ArrivesAt front behind t) : t.cursor.rest = encode behind := by
  have hw := (within_ofText _).reaches (reaches_of_goesOn h.arrives)
  have hbytes := hw.bytes_eq
  rw [encode_append, bytes] at hbytes
  refine (List.append_inj hbytes ?_).2
  rw [List.length_reverse, ← hw.pos_eq, h.pos, length_encode]

theorem location_eq (h : ArrivesAt front behind t) :
    t.cursor.location = ⟨(encode front).count newline + 1, 1⟩ := by
  rw [(reaches_of_goesOn h.arrives).location_eq, h.pos, Location.ofOffset, encode_append,
    ← length_encode, List.take_left]
  rcases h.starts with rfl | ⟨text, rfl⟩
  · rfl
  · simp [Location.behind, encode_newline]

/-- Before the line the text is inspected as it is in front of anything else. -/
theorem exists_parallel (other : String) (h : ArrivesAt front behind t)
    (hb : ∃ b more, encode behind = b :: more ∧ b ≠ newline) :
    ∃ before u, ArrivesAt front other u ∧ u.known = t.known ∧
      u.cursor.location = t.cursor.location ∧
      Note.ofText (front ++ behind) = before ++ t.notes ∧
      Note.ofText (front ++ other) = before ++ u.notes := by
  obtain ⟨b, more, hbytes, hne⟩ := hb
  have hshares : Shares 0 (encode front) (encode behind) (encode other)
      (Cursor.ofText (front ++ behind)) (Cursor.ofText (front ++ other)) :=
    ⟨encode_append .., encode_append .., rfl⟩
  obtain ⟨before, e, hleft, hright, hrun, hend⟩ :=
    NoteScan.exists_parallel h.arrives h.rest_eq (by rw [hbytes]; nofun)
      (by rw [hbytes]; exact fun he => hne (Option.some.inj he)) hshares
      fun hf => .line (h.getLast?_eq hf)
  have hmap : before.map (Note.below 0) = before := by
    rw [List.map_congr_left fun note _ => note.below_zero, List.map_id']
  rw [hmap] at hleft
  refine ⟨before, ⟨t.known, e⟩, ⟨h.starts, hrun, ?_⟩, rfl, ?_, hleft, hright⟩
  · have hw := (within_ofText _).reaches (reaches_of_goesOn hrun)
    have hlength := congrArg List.length hw.bytes_eq
    have hrest : e.rest = encode other := hend.right
    rw [bytes, List.length_append, List.length_reverse, ← hw.pos_eq, encode_append,
      List.length_append, hrest, length_encode, length_encode] at hlength
    exact Nat.add_right_cancel hlength
  · rw [hend.location]
    rfl

/-- Behind a pragma line the inspection arrives at the next one. -/
theorem exists_next (h : ArrivesAt front (line ++ ("\n" ++ back)) t) (hl : PragmaLine line) :
    ∃ u, ArrivesAt (front ++ (line ++ "\n")) back u ∧ u.known = (t.next hash).known ∧
      t.notes = (Note.step t.known t.cursor hash).1.toList ++ u.notes := by
  have hrest : t.cursor.rest = encode line ++ newline :: encode back := by
    rw [h.rest_eq, encode_append, encode_append, encode_newline]
    rfl
  have hp := hl.peek_eq hrest
  have hline : (t.next hash).cursor = t.cursor.advance (length line) := step_line hl hrest
  have hpnext : (t.next hash).cursor.peek = some newline := by
    rw [hline, peek, rest_advance, hrest, ← length_encode, List.drop_left]
    rfl
  have hcomment : (t.next hash).cursor.atComment = false :=
    Bool.eq_false_iff.2 (not_atComment_of_peek hpnext (by decide))
  have hstep := goesOn_byte hpnext hcomment (by decide)
  refine ⟨⟨(t.next hash).known, (t.next hash).cursor.advance 1⟩, ⟨?_, ?_, ?_⟩, rfl, ?_⟩
  · exact .inr ⟨front ++ line, (String.append_assoc ..).symm⟩
  · have htext : front ++ (line ++ "\n") ++ back = front ++ (line ++ ("\n" ++ back)) := by
      simp only [String.append_assoc]
    rw [htext]
    exact (h.arrives.tail ⟨hash, hp, rfl⟩).tail hstep
  · simp only [hline, advance_advance, pos_advance, h.pos, hrest, List.length_append,
      List.length_cons, length_encode]
    rw [← length_encode (front ++ (line ++ "\n")), encode_append, encode_append, encode_newline]
    simp only [List.length_append, length_encode, List.length_singleton]
    omega
  · rw [notes_of_peek hp, notes_byte hpnext hcomment (by decide)]

end ArrivesAt

/-- A pragma line gives a declaration that was checked, a fault or nothing. -/
theorem checked_of_pragma (hl : PragmaLine line)
    (hr : t.cursor.rest = encode line ++ newline :: more) :
    ∀ note ∈ (Note.step t.known t.cursor hash).1, note.Checked t.known := by
  have hp := hl.peek_eq hr
  have hc := not_atComment_of_peek hp (by decide)
  -- The word behind the hash sign starts as `pragma` does.
  have hword : (t.cursor.advance 1).skipInline.identifier.1 ≠ "include" := by
    obtain ⟨blanks, tail, hline, hblanks⟩ := hl.pragma
    have hrest : (t.cursor.advance 1).rest =
        blanks ++ (encode "pragma" ++ (tail ++ newline :: more)) := by
      rw [rest_advance, hr, hline]
      simp
    obtain ⟨d, hspells, hd⟩ := exists_spells blanks hrest
    have hpeek : d.peek = some 112 := by
      rw [peek, hd]
      rfl
    have hskip : (t.cursor.advance 1).skipInline = d :=
      hspells.skipWhile_eq hblanks (clear_of_peek hpeek (by decide))
    intro hinclude
    have hbytes := encode_identifier d
    rw [← hskip, hinclude, hskip, hd] at hbytes
    obtain ⟨rest, hprefix⟩ := hbytes ▸ List.take_prefix ..
    have hfirst : (some 105 : Option UInt8) = some 112 := congrArg List.head? hprefix
    exact absurd hfirst (by decide)
  simp only [Note.step, if_neg hc, if_true, Note.directiveAt]
  split
  · exact Note.sound_pragmaAt
  · exact fun _ hnone => absurd hnone (Option.not_mem_none _)

/-- The line of a directive that was rejected. -/
def Rejected (note : Option Note) : Prop := ∃ reason span, note = some (.fault reason span)

/-- Without a pragma line that is rejected the same is noticed, further up behind it. -/
theorem notes_of_rejected (h : ArrivesAt front (line ++ ("\n" ++ back)) t) (hl : PragmaLine line)
    (hr : Rejected (Note.step t.known t.cursor hash).1) :
    ∃ before after, Note.ofText (front ++ back) = before ++ after ∧
      Note.ofText (front ++ (line ++ ("\n" ++ back))) =
        before ++ (Note.step t.known t.cursor hash).1.toList ++ after.map (Note.below 1) := by
  have hbytes : ∃ b more, encode (line ++ ("\n" ++ back)) = b :: more ∧ b ≠ newline := by
    obtain ⟨blanks, more, hline, -⟩ := hl.pragma
    rw [encode_append, hline]
    exact ⟨_, _, rfl, by decide⟩
  obtain ⟨before, u, hu, hknown, hlocation, hwhole, hother⟩ := h.exists_parallel back hbytes
  obtain ⟨v, hv, hknown', hnotes⟩ := h.exists_next hl
  have hsame : v.known = u.known := by
    obtain ⟨reason, span, hnote⟩ := hr
    rw [hknown', hknown, next, hnote]
    rfl
  have hshares : Shares 1 (encode back) [] [] v.cursor u.cursor := by
    refine ⟨by rw [hv.rest_eq, List.append_nil], by rw [hu.rest_eq, List.append_nil], ?_⟩
    rw [hv.location_eq, hu.location_eq, encode_append, encode_append, encode_newline,
      List.count_append, List.count_append, List.count_eq_zero_of_not_mem hl.single]
    rfl
  refine ⟨before, u.notes, hother, ?_⟩
  rw [hwhole, hnotes, notes_of_shares hshares, hsame, List.append_assoc]

theorem effect?_below (lines : Nat) (note : Note) : (note.below lines).effect? = note.effect? := by
  cases note <;> rfl

theorem effects_of_rejected (h : ArrivesAt front (line ++ ("\n" ++ back)) t) (hl : PragmaLine line)
    (hr : Rejected (Note.step t.known t.cursor hash).1) :
    Note.effects (front ++ back) = Note.effects (front ++ (line ++ ("\n" ++ back))) := by
  obtain ⟨before, after, hother, hwhole⟩ := notes_of_rejected h hl hr
  obtain ⟨reason, span, hnote⟩ := hr
  have hafter : (after.map (Note.below 1)).filterMap Note.effect? =
      after.filterMap Note.effect? := by
    rw [List.filterMap_map]
    exact List.filterMap_congr fun note _ => effect?_below 1 note
  rw [Note.effects, Note.effects, hother, hwhole, hnote, List.filterMap_append,
    List.filterMap_append, List.filterMap_append, hafter]
  exact congrArg (· ++ _) (List.append_nil _).symm

/-- The diagnostic that a note of a file leads to by itself. -/
def diagnostic? (file : String) : Option Note → Option Diagnostic
  | some (.fault reason span) => some ⟨file, span, reason⟩
  | _ => none

theorem isSome_diagnostic?_iff {file : String} {note : Option Note} :
    (diagnostic? file note).isSome = true ↔ Rejected note := by
  constructor
  · intro h
    match note, h with
    | some (.fault reason span), _ => exact ⟨reason, span, rfl⟩
  · rintro ⟨reason, span, rfl⟩
    rfl

/-- In front of what a pragma gave an inspection reports its diagnostic, and then goes on. -/
theorem eventsFrom_of_checked {note : Option Note} {known : List String}
    (h : ∀ n ∈ note, n.Checked known) (includes : Includes) (keys : List String) (file : String)
    (after : List Note) (record : FileRecord) (below : List InspectionFrame) :
    Inspection.eventsFrom includes keys (⟨file, note.toList ++ after, record⟩ :: below) =
      (diagnostic? file note).toList.map .diagnostic ++
        Inspection.eventsFrom includes keys (⟨file, after, record⟩ :: below) := by
  cases note with
  | none => rfl
  | some note =>
    cases note with
    | bindGroup | variant | fault =>
      rw [Option.toList_some, List.singleton_append, Inspection.eventsFrom]
      rfl
    | inclusion path span => exact absurd (h _ rfl) id

/-- A text without the line, for the one that has it. -/
def withoutLine (front line back text : String) : String :=
  if text = front ++ (line ++ ("\n" ++ back)) then front ++ back else text

/-- What handling a pragma line comes to, given the inspection that arrives at it. -/
structure HandlesPragma (front line back : String) (t : NoteScan) : Prop where
  /-- The inspection goes on at the newline behind the line. -/
  passes : (t.next hash).cursor.pos = length front + length line
  /-- In every inspection that comes to the line in a file, it leads to at most one diagnostic,
  which says that it is rejected, and to nothing else. -/
  reports : ∃ note before after,
    Note.ofText (front ++ (line ++ ("\n" ++ back))) = before ++ (note.toList ++ after) ∧
      note = (Note.step t.known t.cursor hash).1 ∧
      ∀ includes keys file record below, ∃ reported : Option Diagnostic,
        (reported.isSome = true ↔ Rejected note) ∧
        Inspection.eventsFrom includes keys (⟨file, note.toList ++ after, record⟩ :: below) =
          reported.toList.map .diagnostic ++
            Inspection.eventsFrom includes keys (⟨file, after, record⟩ :: below)
  /-- A line that is rejected gives a fault among the notes of the text without it, and those behind
  it stand one line further down. -/
  notes : Rejected (Note.step t.known t.cursor hash).1 →
    ∃ before after, Note.ofText (front ++ back) = before ++ after ∧
      Note.ofText (front ++ (line ++ ("\n" ++ back))) =
        before ++ (Note.step t.known t.cursor hash).1.toList ++ after.map (Note.below 1)
  record : Rejected (Note.step t.known t.cursor hash).1 →
    FileRecord.ofText (front ++ (line ++ ("\n" ++ back))) = FileRecord.ofText (front ++ back)
  /-- Nor does it change the record of any file, be its own the root file or an included one. -/
  records : Rejected (Note.step t.known t.cursor hash).1 → ∀ includes file source,
    Inspection.ofSource (includes.exchange (withoutLine front line back)) file
        (withoutLine front line back source) =
      Inspection.ofSource includes file source

theorem handlesPragma_of_arrives (h : ArrivesAt front (line ++ ("\n" ++ back)) t)
    (hl : PragmaLine line) : HandlesPragma front line back t := by
  have hrest : t.cursor.rest = encode line ++ newline :: encode back := by
    rw [h.rest_eq, encode_append, encode_append, encode_newline]
    rfl
  refine ⟨?passes, ?reports, notes_of_rejected h hl, fun hr => ?record, fun hr => ?records⟩
  case passes =>
    change (Note.step t.known t.cursor hash).2.pos = _
    rw [step_line hl hrest, pos_advance, h.pos, hrest, List.length_append, length_encode,
      Nat.min_eq_left (Nat.le_add_right ..)]
  case reports =>
    obtain ⟨u, hu, -, hnotes⟩ := h.exists_next hl
    obtain ⟨before, hbefore, -⟩ := notes_of_goesOn h.arrives
    refine ⟨_, before, u.notes, by rw [← hnotes]; exact hbefore, rfl, ?_⟩
    intro includes keys file record below
    exact ⟨_, isSome_diagnostic?_iff,
      eventsFrom_of_checked (checked_of_pragma hl hrest) includes keys file _ record below⟩
  case record =>
    rw [FileRecord.ofText_eq, FileRecord.ofText_eq, effects_of_rejected h hl hr]
  case records =>
    refine Inspection.ofSource_exchange fun text => ?_
    unfold withoutLine
    split
    next htext => rw [htext, effects_of_rejected h hl hr]
    next => rfl

/-- A variant that is declared a second time, with a display name that is not quoted, in front of a
bind group. -/
theorem exists_handlesPragma :
    let front := "#pragma variant toggle \"A\"\n"
    let line := "#pragma variant toggle \"a\" junk"
    let back := "#pragma bindgroup \"G\""
    ∃ t, ArrivesAt front (line ++ ("\n" ++ back)) t ∧ PragmaLine line ∧
      Rejected (Note.step t.known t.cursor hash).1 ∧ HandlesPragma front line back t := by
  intro front line back
  let first := ofText (front ++ (line ++ ("\n" ++ back)))
  have hfirst : GoesOn first (first.next hash) := ⟨hash, by decide +kernel, rfl⟩
  have hsecond : GoesOn (first.next hash) ((first.next hash).next newline) :=
    ⟨newline, by decide +kernel, rfl⟩
  have harrives : ArrivesAt front (line ++ ("\n" ++ back)) ((first.next hash).next newline) :=
    ⟨.inr ⟨"#pragma variant toggle \"A\"", by decide +kernel⟩,
      (ReflTransGen.single hfirst).tail hsecond, by decide +kernel⟩
  have hline : PragmaLine line := by
    refine ⟨⟨[], encode " variant toggle \"a\" junk", by decide +kernel, List.forall_mem_nil _⟩,
      by decide +kernel, ?_⟩
    rintro ⟨text, n, hend⟩
    have hlast : (some 107 : Option UInt8) = _ := congrArg List.getLast? hend
    cases n with
    | zero =>
      rw [List.replicate_zero, List.getLast?_concat] at hlast
      exact absurd hlast (by decide)
    | succ n =>
      rw [List.replicate_succ', ← List.cons_append, ← List.append_assoc,
        List.getLast?_concat] at hlast
      exact absurd hlast (by decide)
  refine ⟨_, harrives, hline, ⟨.duplicateVariant "a", .between ⟨2, 1⟩ ⟨2, 27⟩, ?_⟩,
    handlesPragma_of_arrives harrives hline⟩
  decide +kernel

end NoteScan

end BindlessHlsl
