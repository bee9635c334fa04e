import BindlessHlsl.Proofs.SafeRuns

/-!
Which bytes one step of the scan passes (`Scan.Moves`): a comment, a string literal, a logical line,
a word, a byte of no meaning, or a declaration as a whole. Whatever is read of a directive, the scan
goes on at the end of its logical line (`Scan.cursor_of_directive`). What a scan notices it notices
in one of its steps (`Outline.exists_step_of_mem`).
-/

namespace BindlessHlsl

open Ascii Relation

theorem Ascii.ne_of_isIdentifierContinue {b d : UInt8} (h : isIdentifierContinue b = true)
    (hd : isIdentifierContinue d = false) : b ≠ d := by
  rintro rfl
  rw [h] at hd
  cases hd

/-! ## Logical lines -/

namespace Lexeme

theorem line_append {front rest : List UInt8}
    (h : ∀ b ∈ front, b ≠ newline ∧ b ≠ backslash) :
    line (front ++ rest) = front.length + line rest := by
  induction front with
  | nil => exact (Nat.zero_add _).symm
  | cons b front ih =>
    obtain ⟨⟨hn, hb⟩, hfront⟩ := List.forall_mem_cons.1 h
    have ih := ih hfront
    unfold line at ih ⊢
    rw [List.cons_append, lineRest, if_neg hn, beq_eq_false_iff_ne.2 hb, ite_self, ih,
      List.length_cons]
    omega

/-- A byte that is neither blank nor a backslash undoes what came before it on the line. -/
theorem lineRest_append_cons {front rest : List UInt8} {b : UInt8} (continued : Bool)
    (h : ∀ b ∈ front, b ≠ newline) (hn : b ≠ newline) (hr : b ≠ carriageReturn)
    (hb : b ≠ backslash) :
    lineRest continued (front ++ b :: rest) = front.length + 1 + line rest := by
  induction front generalizing continued with
  | nil =>
    rw [List.nil_append, lineRest, if_neg hn, if_neg hr, beq_eq_false_iff_ne.2 hb]
    simp [line]
  | cons d front ih =>
    obtain ⟨hd, hfront⟩ := List.forall_mem_cons.1 h
    rw [List.cons_append, lineRest, if_neg hd, ih _ hfront, ih _ hfront, ite_self,
      List.length_cons]
    omega

/-- A text in quotes that ends on its line stands in front of its closing quote. -/
theorem eq_of_closed {quote : UInt8} {rest body : List UInt8}
    (hb : (rest.takeWhile fun b => b != quote && b != newline) = body)
    (hclose : rest[body.length]? = some quote) :
    rest = body ++ quote :: rest.drop (body.length + 1) := by
  obtain ⟨hlt, hget⟩ := List.getElem?_eq_some_iff.1 hclose
  conv => lhs; rw [← List.take_append_drop body.length rest]
  rw [List.drop_eq_getElem_cons hlt, hget, ← hb, Cursor.take_length_takeWhile]

/-- The line of a text in quotes that ends on it goes on behind the text. -/
theorem line_of_closed {quote : UInt8} {rest body : List UInt8}
    (hquote : quote = doubleQuote ∨ quote = singleQuote)
    (hb : (rest.takeWhile fun b => b != quote && b != newline) = body)
    (hclose : rest[body.length]? = some quote) :
    line (quote :: rest) = body.length + 2 + line (rest.drop (body.length + 1)) := by
  have hne : quote ≠ newline ∧ quote ≠ carriageReturn ∧ quote ≠ backslash := by
    rcases hquote with rfl | rfl <;> decide
  have hbody : ∀ b ∈ body, b ≠ newline := by
    intro b hm
    rw [← hb] at hm
    have hall := List.all_eq_true.1 List.all_takeWhile b hm
    exact bne_iff_ne.1 (Bool.and_eq_true_iff.1 hall).2
  have hrest := eq_of_closed hb hclose
  unfold line
  conv => lhs; rw [hrest, ← List.cons_append]
  rw [lineRest_append_cons _ (List.forall_mem_cons.2 ⟨hne.1, hbody⟩) hne.1 hne.2.1 hne.2.2]
  rfl

end Lexeme

namespace Cursor

variable {c d : Cursor}

theorem Reaches.eq_advance (h : c.Reaches d) : d = c.advance (d.pos - c.pos) := by
  obtain ⟨n, rfl⟩ := h
  rw [pos_advance, Nat.add_sub_cancel_left]
  by_cases hn : n ≤ c.rest.length
  · rw [Nat.min_eq_left hn]
  · have hle := Nat.le_of_lt (Nat.lt_of_not_le hn)
    have hend : (c.advance c.rest.length).rest = [] := by simp
    rw [Nat.min_eq_right hle, ← Nat.add_sub_of_le hle, ← advance_advance, advance_of_rest_nil hend]

theorem skipLine_advance {n : Nat}
    (h : Lexeme.line c.rest = n + Lexeme.line (c.rest.drop n)) :
    (c.advance n).skipLine = c.skipLine := by
  rw [skipLine, skipLine, rest_advance, advance_advance, h]

/-- Bytes that neither end a line nor continue it do not change where it ends. -/
theorem skipLine_advance_of_take {n : Nat} (hn : n ≤ c.rest.length)
    (h : ∀ b ∈ c.rest.take n, b ≠ newline ∧ b ≠ backslash) :
    (c.advance n).skipLine = c.skipLine := by
  refine skipLine_advance ?_
  conv => lhs; rw [← List.take_append_drop n c.rest]
  rw [Lexeme.line_append h, List.length_take, Nat.min_eq_left hn]

theorem skipLine_skipInline (c : Cursor) : c.skipInline.skipLine = c.skipLine := by
  refine skipLine_advance_of_take (List.takeWhile_prefix _).length_le fun b hb => ?_
  rw [take_length_takeWhile] at hb
  have hblank := List.all_eq_true.1 List.all_takeWhile b hb
  constructor <;> rintro rfl <;> cases hblank

theorem isIdentifierContinue_of_mem_take {b : UInt8}
    (h : b ∈ c.rest.take (Lexeme.identifier c.rest)) : isIdentifierContinue b = true := by
  rw [← encode_identifier] at h
  refine (isIdentifier_of_ne_empty fun he => ?_).forall_mem b h
  rw [he] at h
  cases h

theorem skipLine_identifier (c : Cursor) : c.identifier.2.skipLine = c.skipLine := by
  refine skipLine_advance_of_take (Lexeme.identifier_le _) fun b hb => ?_
  have hw := isIdentifierContinue_of_mem_take hb
  exact ⟨ne_of_isIdentifierContinue hw rfl, ne_of_isIdentifierContinue hw rfl⟩

/-- A quoted text that ends on its line does not change where the line ends. -/
theorem skipLine_of_quoted {q : Quoted} (h : c.quoted = (q, d)) (hq : q ≠ .unterminated) :
    d.skipLine = c.skipLine := by
  unfold quoted at h
  split at h
  · cases h
    rfl
  next quote rest hr =>
    split at h
    next hquote =>
      dsimp only at h
      split at h
      next hclose =>
        cases h
        refine skipLine_advance ?_
        rw [hr, List.drop_succ_cons]
        exact Lexeme.line_of_closed hquote rfl hclose
      next =>
        cases h
        exact absurd rfl hq
    next =>
      cases h
      rfl

theorem skipLine_of_expectQuoted {value : String} {what : Expectation}
    (h : c.expectQuoted what = .ok (value, d)) : d.skipLine = c.skipLine := by
  unfold expectQuoted at h
  split at h
  next hq =>
    cases h
    rw [skipLine_of_quoted hq nofun, skipLine_skipInline]
  next => cases h

theorem skipLine_of_peek {b : UInt8} (h : c.peek = some b) (hn : b ≠ newline) (hb : b ≠ backslash) :
    (c.advance 1).skipLine = c.skipLine := by
  obtain ⟨rest, hr⟩ := List.head?_eq_some_iff.1 h
  refine skipLine_advance_of_take (by simp [hr]) ?_
  rw [hr, List.take_succ_cons, List.take_zero]
  exact List.forall_mem_singleton.2 ⟨hn, hb⟩

end Cursor

theorem Struct.eq_of_read_none {c d : Cursor} (h : Struct.read c = .ok (none, d)) :
    d = c.skipTrivia.identifier.2.skipTrivia := by
  unfold Struct.read at h
  dsimp only at h
  split at h
  · cases h
    rfl
  · simp only [Reading.bind_eq_ok] at h
    obtain ⟨_, _, h⟩ := h
    cases h

/-! ## One step -/

/-- Whether an item comes from a directive. -/
def Item.isDirective : Item → Bool
  | .pathDirective _ | .contentPath .. | .bindGroup .. | .inclusion .. => true
  | _ => false

namespace Scan

variable {s next : Scan} {items : List Item} {b : UInt8}

theorem cursor_of_directive (hp : s.cursor.peek = some hash)
    (h : s.directive = ⟨items, .ok next⟩) : next.cursor = s.cursor.skipLine := by
  have hword : ∀ c : Cursor, c.skipInline.identifier.2.skipLine = c.skipLine := fun c => by
    rw [Cursor.skipLine_identifier, Cursor.skipLine_skipInline]
  have hline := (hword (s.cursor.advance 1)).trans (Cursor.skipLine_of_peek hp nofun nofun)
  unfold directive at h
  dsimp only at h
  split at h
  · unfold inclusion at h
    split at h
    · cases h
    next hq =>
      cases h
      exact (Cursor.skipLine_of_expectQuoted hq).trans hline
  split at h
  · unfold pragma at h
    dsimp only at h
    split at h
    · unfold contentPath at h
      dsimp only at h
      split at h
      · cases h
      next hq =>
        cases h
        exact (Cursor.skipLine_of_expectQuoted hq).trans ((hword _).trans hline)
    split at h
    · unfold bindGroup at h
      split at h
      · cases h
      next hq =>
        cases h
        exact (Cursor.skipLine_of_expectQuoted hq).trans ((hword _).trans hline)
    · cases h
      exact (hword _).trans hline
  · cases h
    exact hline

/-- Which bytes a step passes that does not fail, with what it notices. -/
inductive Moves (s next : Scan) : List Item → Prop
  | comment : s.cursor.atComment = true → next.cursor = s.cursor.skipComment → Moves s next []
  | literal : s.cursor.peek = some doubleQuote → next.cursor = s.cursor.skipString → Moves s next []
  | directive {items : List Item} : s.cursor.peek = some hash →
    s.directive = ⟨items, .ok next⟩ → Moves s next items
  | word {b : UInt8} : s.cursor.peek = some b → isIdentifierStart b = true →
    next.cursor = s.cursor.identifier.2 → Moves s next []
  /-- A struct is referred to. -/
  | reference {b : UInt8} : s.cursor.peek = some b → isIdentifierStart b = true →
    next.cursor = s.cursor.identifier.2.skipTrivia.identifier.2.skipTrivia → Moves s next []
  | byte {b : UInt8} : s.cursor.peek = some b → s.cursor.atComment = false → b ≠ doubleQuote →
    b ≠ hash → next.cursor = s.cursor.advance 1 → Moves s next []
  | declaration {b : UInt8} {items : List Item} : s.cursor.peek = some b → b ≠ hash →
    items ≠ [] → (∀ item ∈ items, item.isDirective = false) → Moves s next items

theorem moves_of_bracket (hp : s.cursor.peek = some b) (hb : b ≠ hash)
    (h : s.bracket = ⟨items, .ok next⟩) : Moves s next items := by
  unfold bracket at h
  dsimp only at h
  split at h
  · cases h
  next a after _ =>
    split at h
    · cases h
    · cases h
      refine .declaration hp hb (by simp) fun item hi => ?_
      rcases List.mem_append.1 hi with hi | hi
      · obtain ⟨_, _, _, rfl⟩ := mem_groupUses.1 hi
        rfl
      · cases List.mem_singleton.1 hi
        rfl

theorem moves_of_word (hp : s.cursor.peek = some b) (hb : isIdentifierStart b = true)
    (h : s.word = ⟨items, .ok next⟩) : Moves s next items := by
  have hhash : b ≠ hash := by
    rintro rfl
    cases hb
  unfold word at h
  dsimp only at h
  split at h
  · unfold resource at h
    split at h <;> cases h
    exact .declaration hp hhash (by simp) (List.forall_mem_singleton.2 rfl)
  split at h
  · unfold sampler at h
    split at h <;> cases h
    · exact .word hp hb rfl
    · exact .declaration hp hhash (by simp) (List.forall_mem_singleton.2 rfl)
  split at h
  · unfold struct at h
    split at h
    · cases h
    next hr =>
      cases h
      exact .reference hp hb (Struct.eq_of_read_none hr)
    · cases h
      exact .declaration hp hhash (by simp) (List.forall_mem_singleton.2 rfl)
  split at h
  · unfold function at h
    dsimp only at h
    split at h <;> cases h
    refine .declaration hp hhash (by simp) (List.forall_mem_cons.2 ⟨rfl, ?_⟩)
    exact List.forall_mem_singleton.2 rfl
  · cases h
    exact .word hp hb rfl

theorem moves_of_step (hp : s.cursor.peek = some b) (h : s.step b = ⟨items, .ok next⟩) :
    Moves s next items := by
  unfold step at h
  split at h
  next hc =>
    cases h
    exact .comment hc rfl
  next hc =>
    split at h
    next hq =>
      cases h
      exact .literal (hq ▸ hp) rfl
    next hq =>
      split at h
      next hb => exact .directive (hb ▸ hp) h
      next hhash =>
        split at h
        · exact moves_of_bracket hp hhash h
        split at h
        next hb => exact moves_of_word hp hb h
        · cases h
          exact .byte hp (Bool.eq_false_iff.2 hc) hq hhash rfl

/-- A resource stands where the scan comes to it, and takes the attributes that are pending. -/
theorem Notices.resource_eq {kind : ResourceKind} {element : Option String} {name : String}
    {place : Location} {attributes : List PlacedAttribute} {range : ByteRange}
    (h : Notices s next items)
    (hi : .resource kind element name place attributes range ∈ items) :
    place = s.cursor.location ∧ attributes = s.pending := by
  cases h with
  | resource =>
    cases List.mem_singleton.1 hi
    exact ⟨rfl, rfl⟩
  | bracket =>
    rcases List.mem_append.1 hi with hi | hi
    · obtain ⟨_, _, _, he⟩ := mem_groupUses.1 hi
      cases he
    · cases List.mem_singleton.1 hi
  | _ => simp at hi

end Scan

/-- What a scan notices up to the end of its text it notices in one of its steps. -/
theorem Outline.exists_step_of_mem {s : Scan} {item : Item} (hf : (ofScan s).failure = none)
    (h : item ∈ (ofScan s).items) :
    ∃ t next b items, ReflTransGen Scan.GoesOn s t ∧ t.cursor.peek = some b ∧
      t.step b = ⟨items, .ok next⟩ ∧ item ∈ items := by
  fun_induction ofScan s with
  | case1 => cases h
  | case2 => cases hf
  | case3 s b hp next hs _ _ ih =>
    obtain ⟨t, last, d, more, hreach, hstep⟩ := ih hf h
    exact ⟨t, last, d, more, hreach.head ⟨b, [], hp, hs⟩, hstep⟩
  | case4 s b hp next items hs _ _ _ ih =>
    rcases List.mem_append.1 h with hi | hi
    · exact ⟨s, next, b, items, .refl, hp, hs, hi⟩
    · obtain ⟨t, last, d, more, hreach, hstep⟩ := ih hf hi
      exact ⟨t, last, d, more, hreach.head ⟨b, items, hp, hs⟩, hstep⟩

end BindlessHlsl
