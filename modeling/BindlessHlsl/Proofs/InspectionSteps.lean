import BindlessHlsl.Proofs.InspectionTraversal
import BindlessHlsl.Proofs.Nesting
import BindlessHlsl.Proofs.ScanMoves

/-!
An inspection of one text beside the scan of it. Both pass comments and words alike, and both leave
a directive at the end of its logical line, unless the inspection finds a text in it that is not
closed. String literals and declarations the scan passes as a whole and the inspection byte by byte;
there it can be led into what it takes for a comment or a directive, and away from places where the
scan stops (`NoteScan.Misses`). It notices every bind group and every included file that the scan
notices at the other places (`NoteScan.exists_repeats`).
-/

namespace BindlessHlsl

open Ascii Relation

/-- An inspection of a text under way, with the identifiers that were declared before. -/
structure NoteScan where
  known : List String
  cursor : Cursor

namespace NoteScan

/-- The inspection of a text at its start. -/
def ofText (source : String) : NoteScan := ⟨[], .ofText source⟩

/-- What is noticed from here on. -/
def notes (t : NoteScan) : List Note := Note.fromCursor t.known t.cursor

/-- The inspection after a step over a byte. -/
def next (t : NoteScan) (b : UInt8) : NoteScan :=
  let outcome := Note.step t.known t.cursor b
  ⟨outcome.1.elim [] Note.identifiers ++ t.known, outcome.2⟩

/-- One inspection goes on as another. -/
def GoesOn (t u : NoteScan) : Prop := ∃ b, t.cursor.peek = some b ∧ u = t.next b

variable {t u : NoteScan} {b : UInt8}

theorem notes_of_peek (h : t.cursor.peek = some b) :
    t.notes = (Note.step t.known t.cursor b).1.toList ++ (t.next b).notes := by
  rw [notes]
  fun_cases Note.fromCursor t.known t.cursor with
  | case1 hp => simp [h] at hp
  | case2 d hp after hs =>
    obtain rfl := Option.some.inj (h.symm.trans hp)
    simp [hs, next, notes]
  | case3 d hp note after hs =>
    obtain rfl := Option.some.inj (h.symm.trans hp)
    simp [hs, next, notes]

theorem mem_notes_of_reaches {note : Note} (h : ReflTransGen GoesOn t u) (hn : note ∈ u.notes) :
    note ∈ t.notes := by
  induction h using ReflTransGen.head_induction_on with
  | refl => exact hn
  | head hstep _ ih =>
    obtain ⟨b, hp, rfl⟩ := hstep
    rw [notes_of_peek hp]
    exact List.mem_append_right _ ih

/-! ## Bytes without meaning -/

theorem goesOn_byte (h : t.cursor.peek = some b) (hc : t.cursor.atComment = false) (hb : b ≠ hash) :
    GoesOn t ⟨t.known, t.cursor.advance 1⟩ := by
  refine ⟨b, h, ?_⟩
  simp [next, Note.step, hc, hb]

theorem reaches_advance {n : Nat} (h : ∀ b ∈ t.cursor.rest.take n, b ≠ hash ∧ b ≠ slash) :
    ReflTransGen GoesOn t ⟨t.known, t.cursor.advance n⟩ := by
  induction n generalizing t with
  | zero => exact .refl
  | succ n ih =>
    cases hr : t.cursor.rest with
    | nil =>
      rw [Cursor.advance_of_rest_nil hr]
    | cons b rest =>
      rw [hr, List.take_succ_cons] at h
      obtain ⟨⟨hhash, hslash⟩, hrest⟩ := List.forall_mem_cons.1 h
      have hp : t.cursor.peek = some b := by rw [Cursor.peek, hr]; rfl
      have hc := Bool.eq_false_iff.2 (Cursor.not_atComment_of_peek hp hslash)
      have hstep := ih (t := ⟨t.known, t.cursor.advance 1⟩) (by simpa [hr] using hrest)
      rw [Cursor.advance_advance, Nat.add_comm] at hstep
      exact .head (goesOn_byte hp hc hhash) hstep

theorem reaches_identifier (t : NoteScan) :
    ReflTransGen GoesOn t ⟨t.known, t.cursor.identifier.2⟩ := by
  refine reaches_advance fun b hb => ?_
  have hw := Cursor.isIdentifierContinue_of_mem_take hb
  exact ⟨ne_of_isIdentifierContinue hw rfl, ne_of_isIdentifierContinue hw rfl⟩

theorem goesOn_comment (h : t.cursor.atComment = true) :
    GoesOn t ⟨t.known, t.cursor.skipComment⟩ := by
  cases hp : t.cursor.peek with
  | none => exact absurd h (Cursor.not_atComment_of_end hp)
  | some b =>
    refine ⟨b, hp, ?_⟩
    simp [next, Note.step, h]

theorem reaches_skipTrivia (t : NoteScan) :
    ReflTransGen GoesOn t ⟨t.known, t.cursor.skipTrivia⟩ := by
  obtain ⟨known, c⟩ := t
  dsimp only
  rw [Cursor.skipTrivia_eq]
  generalize hr : c.rest = bytes
  fun_induction Lexeme.trivia bytes generalizing c with
  | case1 => exact .refl
  | case2 b rest hb ih =>
    have hp : c.peek = some b := by rw [Cursor.peek, hr]; rfl
    have hne : b ≠ slash ∧ b ≠ hash := by constructor <;> rintro rfl <;> cases hb
    have hc := Bool.eq_false_iff.2 (Cursor.not_atComment_of_peek hp hne.1)
    have hstep := ih (c.advance 1) (by simp [hr])
    rw [Cursor.advance_advance] at hstep
    exact .head (goesOn_byte hp hc hne.2) hstep
  | case3 => exact .refl
  | case4 b rest hb n hn ih =>
    have hc : c.atComment = true := by simp [Cursor.atComment, hr, hn]
    have hstep := ih (c.advance (n + 1)) (by simp [hr])
    rw [Cursor.advance_advance] at hstep
    refine .head (goesOn_comment hc) ?_
    rwa [Cursor.skipComment_eq, hr, hn]

end NoteScan

/-! ## Directives -/

namespace Note

/-- What was read of a directive leaves the end of its line where it was, unless a text was found
that is not closed. -/
def Keeps (line : Cursor) (outcome : Outcome) : Prop :=
  outcome.2.skipLine = line ∨ ∃ part span, outcome.1 = some (.fault (.unterminated part) span)

variable {line c d : Cursor} {start : Location} {known : List String}

theorem keeps_faulty {reason : NoteFault} (h : c.skipLine = line) :
    Keeps line (faulty start c reason) := .inl h

theorem keeps_withQuoted {part : QuotedPart} {next : String → Cursor → Outcome}
    (h : c.skipLine = line) (hn : ∀ text d, d.skipLine = line → Keeps line (next text d)) :
    Keeps line (withQuoted start part c next) := by
  have hline := c.skipLine_skipInline.trans h
  unfold withQuoted
  split
  next hq => exact hn _ _ ((Cursor.skipLine_of_quoted hq nofun).trans hline)
  next hq => exact keeps_faulty ((Cursor.skipLine_of_quoted hq nofun).trans hline)
  next hq => exact .inr ⟨part, _, rfl⟩

theorem keeps_bindGroupAt (h : c.skipLine = line) : Keeps line (bindGroupAt start c) := by
  refine keeps_withQuoted h fun name d hd => ?_
  split
  · exact .inl hd
  · exact keeps_faulty hd

theorem keeps_displayNameAt {kind : VariantKind} {identifier : String} (h : c.skipLine = line) :
    Keeps line (displayNameAt start kind identifier c) := by
  have hline := c.skipLine_skipInline.trans h
  unfold displayNameAt
  dsimp only
  split
  · refine keeps_withQuoted hline fun name d hd => ?_
    split
    · exact keeps_faulty hd
    · exact .inl hd
  · exact .inl hline

theorem keeps_variantAt (h : c.skipLine = line) : Keeps line (variantAt start known c) := by
  have hline := (Cursor.skipLine_identifier _).trans (c.skipLine_skipInline.trans h)
  unfold variantAt
  dsimp only
  split
  · exact keeps_faulty hline
  · refine keeps_withQuoted hline fun text d hd => ?_
    split
    · exact keeps_faulty hd
    split
    · exact keeps_faulty hd
    · exact keeps_displayNameAt hd

theorem keeps_inclusionAt (h : c.skipLine = line) : Keeps line (inclusionAt start c) :=
  keeps_withQuoted h fun _ _ => .inl

theorem keeps_pragmaAt (h : c.skipLine = line) : Keeps line (pragmaAt start known c) := by
  have hline := (Cursor.skipLine_identifier _).trans (c.skipLine_skipInline.trans h)
  unfold pragmaAt
  dsimp only
  split
  · exact keeps_bindGroupAt hline
  split
  · exact keeps_variantAt hline
  · exact .inl hline

theorem keeps_directiveAt (hp : c.peek = some hash) :
    Keeps c.skipLine (directiveAt known c) := by
  have hline := (Cursor.skipLine_identifier _).trans
    ((Cursor.skipLine_skipInline _).trans (Cursor.skipLine_of_peek hp nofun nofun))
  unfold directiveAt
  dsimp only
  split
  · exact keeps_pragmaAt hline
  split
  · exact keeps_inclusionAt hline
  · exact .inl hline

theorem withQuoted_of_expectQuoted {part : QuotedPart} {what : Expectation} {value : String}
    {next : String → Cursor → Outcome} (h : c.expectQuoted what = .ok (value, d)) :
    withQuoted start part c next = next value d := by
  unfold Cursor.expectQuoted at h
  split at h
  next hq =>
    cases h
    rw [withQuoted, hq]
  next => cases h

theorem directiveAt_inclusion (h : (c.advance 1).skipInline.identifier.1 = "include") :
    directiveAt known c = inclusionAt c.location (c.advance 1).skipInline.identifier.2 := by
  unfold directiveAt
  dsimp only
  rw [h, if_neg (by decide), if_pos rfl]

theorem directiveAt_bindGroup (h : (c.advance 1).skipInline.identifier.1 = "pragma")
    (hg : (c.advance 1).skipInline.identifier.2.skipInline.identifier.1 = "bindgroup") :
    directiveAt known c =
      bindGroupAt c.location (c.advance 1).skipInline.identifier.2.skipInline.identifier.2 := by
  unfold directiveAt pragmaAt
  dsimp only
  rw [if_pos h, if_pos hg]

/-- A note repeats an item, if the item is one that an inspection notices. -/
def Repeats : Item → Option Note → Prop
  | .bindGroup name _ _, note => isPrintable name = true → note = some (.bindGroup name)
  | .inclusion path _, note => ∃ span, note = some (.inclusion path span)
  | _, _ => True

theorem repeats_of_directive {s next : Scan} {items : List Item} {item : Item}
    (h : s.directive = ⟨items, .ok next⟩) (hi : item ∈ items) :
    Repeats item (directiveAt known s.cursor).1 := by
  unfold Scan.directive at h
  dsimp only at h
  split at h
  next hword =>
    unfold Scan.inclusion at h
    split at h
    · cases h
    next hq =>
      cases h
      cases List.mem_singleton.1 hi
      have hnote := congrArg Prod.fst (@directiveAt_inclusion _ known hword)
      rw [inclusionAt, withQuoted_of_expectQuoted hq] at hnote
      exact ⟨_, hnote⟩
  split at h
  next hword =>
    unfold Scan.pragma at h
    dsimp only at h
    split at h
    · unfold Scan.contentPath at h
      dsimp only at h
      split at h
      · cases h
      · cases h
        rcases List.mem_cons.1 hi with rfl | hi
        · trivial
        · cases List.mem_singleton.1 hi
          trivial
    split at h
    next hgroup =>
      unfold Scan.bindGroup at h
      split at h
      · cases h
      next hq =>
        cases h
        cases List.mem_singleton.1 hi
        intro hprintable
        rw [directiveAt_bindGroup hword hgroup, bindGroupAt, withQuoted_of_expectQuoted hq,
          if_pos hprintable]
    · cases h
      cases hi
  · cases h
    cases hi

end Note

/-! ## Both readings of a text -/

namespace NoteScan

variable {text : String} {t u : NoteScan} {s next : Scan} {b : UInt8} {items : List Item}

/-- What a step of the scan passes as a whole while an inspection reads on inside of it: a string
literal, a declaration, or the lines of a directive in which the inspection finds a text that is not
closed. -/
inductive Overlooks (t : NoteScan) (s next : Scan) : Prop
  | literal : s.cursor.peek = some doubleQuote → next.cursor = s.cursor.skipString →
    Overlooks t s next
  | declaration {b : UInt8} {items : List Item} : s.cursor.peek = some b →
    s.step b = ⟨items, .ok next⟩ → items ≠ [] → (∀ item ∈ items, item.isDirective = false) →
    Overlooks t s next
  | directive {part : QuotedPart} {span : Span} : s.cursor.peek = some hash →
    (Note.directiveAt t.known s.cursor).1 = some (.fault (.unterminated part) span) →
    Overlooks t s next

/-- The inspection of a text comes to a place. -/
def Visits (text : String) (c : Cursor) : Prop :=
  ∃ t, ReflTransGen GoesOn (ofText text) t ∧ t.cursor = c

/-- The inspection of a text does not come to a place where the scan stops. Behind the last place
that both come to, it overlooks what the scan passes, and a hash sign or a slash in it leads it
astray. -/
structure Misses (text : String) (t : NoteScan) (s next last : Scan) : Prop where
  arrives : ReflTransGen GoesOn (ofText text) t
  scanned : ReflTransGen Scan.GoesOn (.ofText text) s
  together : t.cursor = s.cursor
  goesOn : s.GoesOn next
  overlooks : Overlooks t s next
  hidden : ∃ b ∈ s.cursor.rest.take (next.cursor.pos - s.cursor.pos), b = hash ∨ b = slash
  apart : ¬Visits text next.cursor
  behind : ReflTransGen (fun a b => a.GoesOn b ∧ ¬Visits text b.cursor) next last

/-- The inspection of a text misses a directive in which the scan notices an item. -/
def MissesItem (text : String) (item : Item) : Prop :=
  ∃ t s next last, Misses text t s next last ∧
    ∃ items after, last.directive = ⟨items, .ok after⟩ ∧ item ∈ items

theorem next_hash (h : t.cursor.peek = some hash) :
    (Note.step t.known t.cursor hash).1 = (Note.directiveAt t.known t.cursor).1 ∧
      (t.next hash).cursor = (Note.directiveAt t.known t.cursor).2.skipLine := by
  have hc := Cursor.not_atComment_of_peek h (by decide)
  simp [next, Note.step, hc]

/-- An inspection follows the scan in one step of it, or overlooks what the step passes. -/
theorem exists_of_step (ht : t.cursor = s.cursor) (hp : s.cursor.peek = some b)
    (hs : s.step b = ⟨items, .ok next⟩) :
    (∃ u, ReflTransGen GoesOn t u ∧ u.cursor = next.cursor) ∨ Overlooks t s next := by
  obtain ⟨known, c⟩ := t
  obtain rfl : c = s.cursor := ht
  cases Scan.moves_of_step hp hs with
  | comment hc hn => exact .inl ⟨_, .single (goesOn_comment hc), hn.symm⟩
  | literal hq hn => exact .inr (.literal hq hn)
  | directive hhash hd =>
    have hn := Scan.cursor_of_directive hhash hd
    have hkeeps : Note.Keeps s.cursor.skipLine (Note.directiveAt known s.cursor) :=
      Note.keeps_directiveAt hhash
    rcases hkeeps with hline | ⟨part, span, hfault⟩
    · refine .inl ⟨_, .single ⟨hash, hhash, rfl⟩, ?_⟩
      rw [(next_hash hhash).2, hline, hn]
    · exact .inr (.directive hhash hfault)
  | word _ _ hn => exact .inl ⟨_, reaches_identifier _, hn.symm⟩
  | reference _ _ hn =>
    have hname := (reaches_identifier ⟨known, s.cursor⟩).trans (reaches_skipTrivia _)
    exact .inl ⟨_, (hname.trans (reaches_identifier _)).trans (reaches_skipTrivia _), hn.symm⟩
  | byte hp' hc _ hhash hn => exact .inl ⟨_, .single (goesOn_byte hp' hc hhash), hn.symm⟩
  | declaration _ _ hitems hd => exact .inr (.declaration hp hs hitems hd)

/-- An inspection passes what holds neither a hash sign nor a slash. -/
theorem reaches_of_plain {c : Cursor} (h : t.cursor.Reaches c)
    (hb : ∀ b ∈ t.cursor.rest.take (c.pos - t.cursor.pos), b ≠ hash ∧ b ≠ slash) :
    ReflTransGen GoesOn t ⟨t.known, c⟩ := by
  have hpass := reaches_advance hb
  rwa [← h.eq_advance] at hpass

/-- An inspection comes to where the scan goes on from a place that both come to, or misses it. -/
theorem visits_or_misses (ht : ReflTransGen GoesOn (ofText text) t) (hc : t.cursor = s.cursor)
    (hs : ReflTransGen Scan.GoesOn (.ofText text) s) (hg : s.GoesOn next) :
    Visits text next.cursor ∨ Misses text t s next next := by
  obtain ⟨b, items, hp, hstep⟩ := hg
  rcases exists_of_step hc hp hstep with ⟨u, hu, hn⟩ | hover
  · exact .inl ⟨u, ht.trans hu, hn⟩
  · refine Classical.or_iff_not_imp_left.2 fun hmiss => ?_
    refine ⟨ht, hs, hc, ⟨b, items, hp, hstep⟩, hover, ?_, hmiss, .refl⟩
    apply Classical.byContradiction
    intro hplain
    have hpass := (Scan.step_progress hp next (by rw [hstep])).reaches
    rw [← hc] at hpass hplain
    refine hmiss ⟨_, ht.trans (reaches_of_plain hpass fun b hb => ?_), rfl⟩
    exact not_or.1 fun hor => hplain ⟨b, hb, hor⟩

/-- An inspection comes to where the scan stops, or misses the place. -/
theorem visits_or_exists_misses {last : Scan} (h : ReflTransGen Scan.GoesOn (.ofText text) last) :
    Visits text last.cursor ∨ ∃ t s next, Misses text t s next last := by
  induction h with
  | refl => exact .inl ⟨_, .refl, rfl⟩
  | @tail last after hreach hstep ih =>
    rcases ih with ⟨t, ht, hc⟩ | ⟨t, s, next, hmiss⟩
    · exact (visits_or_misses ht hc hreach hstep).imp_right fun hmiss => ⟨_, _, _, hmiss⟩
    · refine Classical.or_iff_not_imp_left.2 fun hapart => ⟨t, s, next, ?_⟩
      exact { hmiss with behind := hmiss.behind.tail ⟨hstep, hapart⟩ }

/-- Whatever the scan of a text notices that an inspection can notice is noted, unless the
inspection misses the directive. -/
theorem exists_repeats {item : Item} (hf : (Outline.ofText text).failure = none)
    (hi : item ∈ (Outline.ofText text).items) :
    (∃ note, Note.Repeats item note ∧ ∀ n ∈ note, n ∈ Note.ofText text) ∨ MissesItem text item := by
  obtain ⟨s, next, b, items, hreach, hp, hs, hi⟩ := Outline.exists_step_of_mem hf hi
  cases Scan.moves_of_step hp hs with
  | directive hhash hd =>
    rcases visits_or_exists_misses hreach with ⟨t, ht, hc⟩ | ⟨t, s', next', hmiss⟩
    · rw [← hc] at hhash
      refine .inl ⟨(Note.directiveAt t.known s.cursor).1, Note.repeats_of_directive hd hi, ?_⟩
      intro n hn
      refine mem_notes_of_reaches ht ?_
      rw [notes_of_peek hhash, (next_hash hhash).1, hc]
      exact List.mem_append_left _ (Option.mem_toList.2 hn)
    · exact .inr ⟨t, s', next', s, hmiss, items, next, hd, hi⟩
  | declaration _ _ _ hd =>
    refine .inl ⟨none, ?_, nofun⟩
    have hitem := hd item hi
    cases item with
    | bindGroup | inclusion => cases hitem
    | _ => trivial
  | comment | literal | word | reference | byte => cases hi

end NoteScan

end BindlessHlsl
