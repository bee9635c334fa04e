import BindlessHlsl.Proofs.FailurePlaces
import BindlessHlsl.Proofs.InspectionSteps

/-!
What an inspection does in a part of a text depends on that part alone. Two texts that go on with
the same bytes are inspected alike in them, as long as these bytes end a line and the inspection
stops behind them, or as long as nothing follows (`NoteScan.exists_parallel`). Only the lines of
what is noticed may differ, by the number of lines that the one part lies further down than the
other.
-/

namespace BindlessHlsl

open Ascii Utf8 Relation

/-! ## Further down in a text -/

/-- The same column a number of lines further down. -/
def Location.below (lines : Nat) (place : Location) : Location := ⟨place.line + lines, place.column⟩

/-- The same span a number of lines further down. -/
def Span.below (lines : Nat) : Span → Span
  | .point place => .point (place.below lines)
  | .range start stop => .range (start.below lines) (stop.below lines)

/-- The same note a number of lines further down. -/
def Note.below (lines : Nat) : Note → Note
  | .inclusion path span => .inclusion path (span.below lines)
  | .fault reason span => .fault reason (span.below lines)
  | .bindGroup name => .bindGroup name
  | .variant v => .variant v

theorem Span.between_below (lines : Nat) (start stop : Location) :
    between (start.below lines) (stop.below lines) = (between start stop).below lines := by
  unfold between
  simp only [Location.below, Nat.add_right_cancel_iff]
  split <;> rfl

theorem Note.identifiers_below (lines : Nat) (note : Note) :
    (note.below lines).identifiers = note.identifiers := by
  cases note <;> rfl

theorem Note.below_zero (note : Note) : note.below 0 = note := by
  cases note with
  | bindGroup | variant => rfl
  | inclusion path span => cases span <;> rfl
  | fault reason span => cases span <;> rfl

/-! ## Lexical elements of bytes that two texts share -/

/-- The bytes that two texts share end a line, or both texts. -/
inductive Seam : List UInt8 → List UInt8 → List UInt8 → Prop
  | line {r t t' : List UInt8} : r.getLast? = some newline → Seam r t t'
  | ending {r : List UInt8} : Seam r [] []

namespace Seam

variable {r t t' : List UInt8} {b : UInt8}

theorem tail_of_ne (h : Seam (b :: r) t t') (hb : b ≠ newline) : Seam r t t' := by
  cases h with
  | ending => exact .ending
  | line hlast =>
    cases r with
    | nil => exact absurd (Option.some.inj hlast) hb
    | cons d r => exact .line (by rwa [List.getLast?_cons_cons] at hlast)

/-- What is read up to a newline at most is read from the shared bytes, and stops among them. -/
theorem takeWhile_append {p : UInt8 → Bool} (h : Seam r t t') (hp : p newline = false) :
    (r ++ t).takeWhile p = r.takeWhile p ∧ (r ++ t').takeWhile p = r.takeWhile p ∧
      Seam (r.drop (r.takeWhile p).length) t t' := by
  induction r with
  | nil =>
    cases h with
    | line hlast => cases hlast
    | ending => exact ⟨rfl, rfl, .ending⟩
  | cons b r ih =>
    by_cases hb : p b = true
    · have hne : b ≠ newline := fun he => by simp [he, hp] at hb
      obtain ⟨h₁, h₂, h₃⟩ := ih (h.tail_of_ne hne)
      simpa [List.takeWhile_cons_of_pos hb] using ⟨h₁, h₂, h₃⟩
    · simpa [List.takeWhile_cons_of_neg hb] using h

theorem getElem?_append {n : Nat} (h : Seam (r.drop n) t t') : (r ++ t)[n]? = (r ++ t')[n]? := by
  generalize hr : r.drop n = rest at h
  cases h with
  | ending => rfl
  | line hlast =>
    have hlt : n < r.length := by
      refine Nat.lt_of_not_le fun hle => ?_
      rw [← hr, List.drop_of_length_le hle] at hlast
      cases hlast
    rw [List.getElem?_append_left hlt, List.getElem?_append_left hlt]

theorem drop_succ {n : Nat} (h : Seam (r.drop n) t t') (hb : (r ++ t)[n]? = some b)
    (hne : b ≠ newline) : Seam (r.drop (n + 1)) t t' := by
  by_cases hlt : n < r.length
  · rw [List.drop_eq_getElem_cons hlt] at h
    rw [List.getElem?_append_left hlt, List.getElem?_eq_getElem hlt] at hb
    exact h.tail_of_ne (Option.some.inj hb ▸ hne)
  · rw [List.drop_of_length_le (Nat.le_of_not_lt hlt)] at h
    rw [List.drop_of_length_le (by omega)]
    exact h

theorem drop {n : Nat} (h : Seam r t t') (hr : r.drop n ≠ []) : Seam (r.drop n) t t' := by
  cases h with
  | ending => exact .ending
  | line hlast =>
    refine .line ?_
    rw [List.getLast?_drop, if_neg (fun hle => hr (List.drop_of_length_le hle))]
    exact hlast

end Seam

namespace Lexeme

variable {r t t' : List UInt8}

theorem blockCommentRest_append (h : Seam r t t') (ht : t = [] → t' = [])
    (hle : blockCommentRest (r ++ t) ≤ r.length) :
    blockCommentRest (r ++ t') = blockCommentRest (r ++ t) := by
  cases h with
  | ending => rfl
  | line hlast =>
    induction r with
    | nil => cases hlast
    | cons b r ih =>
      cases r with
      | nil =>
        -- The shared bytes end with the newline here, so the comment goes on in front of `t`.
        obtain rfl : b = newline := Option.some.inj hlast
        cases t with
        | nil => rw [ht rfl]
        | cons d t =>
          simp only [List.singleton_append, blockCommentRest, List.length_singleton] at hle
          rw [if_neg fun hstar => absurd hstar.1 (by decide)] at hle
          split at hle <;> omega
      | cons d r =>
        rw [List.getLast?_cons_cons] at hlast
        have hstep : ∀ u, blockCommentRest (b :: d :: r ++ u) =
            if b = Ascii.star ∧ some d = some slash then 2
            else 1 + blockCommentRest (d :: r ++ u) :=
          fun u => by rw [List.cons_append, blockCommentRest, List.cons_append, List.head?_cons]
        rw [hstep] at hle
        rw [hstep, hstep]
        split
        · rfl
        next hopen =>
          rw [if_neg hopen, List.length_cons] at hle
          exact congrArg (1 + ·) (ih (by omega) hlast)

/-- A comment that ends among the bytes that two texts share is one in both. -/
theorem comment_append (h : Seam r t t') (hr : r ≠ []) (ht : t = [] → t' = [])
    (hle : comment (r ++ t) ≤ r.length) : comment (r ++ t') = comment (r ++ t) := by
  match r, h, hr, hle with
  | [b], h, _, _ =>
    cases h with
    | ending => rfl
    | line hlast =>
      obtain rfl : b = newline := Option.some.inj hlast
      cases t <;> cases t' <;> rfl
  | b :: d :: r, h, _, hle =>
    simp only [List.cons_append, comment, List.length_cons] at hle ⊢
    split
    next hline =>
      obtain ⟨h₁, h₂, -⟩ := ((h.tail_of_ne (by rw [hline.1]; decide)).tail_of_ne
        (by rw [hline.2]; decide)).takeWhile_append (p := (· != newline)) rfl
      rw [h₁, h₂]
    next hline =>
      rw [if_neg hline] at hle
      split
      next hblock =>
        rw [if_pos hblock] at hle
        have hseam := (h.tail_of_ne (by rw [hblock.1]; decide)).tail_of_ne
          (by rw [hblock.2]; decide)
        rw [blockCommentRest_append hseam ht (by omega)]
      next => rfl

/-- A logical line that ends among the bytes that two texts share is one in both. -/
theorem lineRest_append {continued : Bool} (ht : t = [] → t' = [])
    (hhead : t.head? ≠ some newline) (hle : lineRest continued (r ++ t) ≤ r.length) :
    lineRest continued (r ++ t') = lineRest continued (r ++ t) := by
  induction r generalizing continued with
  | nil =>
    cases t with
    | nil => rw [ht rfl]
    | cons b t =>
      have hb : b ≠ newline := fun he => hhead (congrArg some he)
      rw [List.nil_append, lineRest, if_neg hb] at hle
      split at hle <;> simp at hle
  | cons b r ih =>
    simp only [List.cons_append, lineRest, List.length_cons] at hle ⊢
    split
    next hb =>
      rw [if_pos hb] at hle
      split
      next hc =>
        rw [if_pos hc] at hle
        rw [ih (by omega)]
      next => rfl
    next hb =>
      rw [if_neg hb] at hle
      split
      next hr =>
        rw [if_pos hr] at hle
        rw [ih (by omega)]
      next hr =>
        rw [if_neg hr] at hle
        rw [ih (by omega)]

theorem identifier_append (h : Seam r t t') :
    identifier (r ++ t) = identifier r ∧ identifier (r ++ t') = identifier r ∧
      Seam (r.drop (identifier r)) t t' := by
  cases r with
  | nil =>
    cases h with
    | line hlast => cases hlast
    | ending => exact ⟨rfl, rfl, .ending⟩
  | cons b r =>
    simp only [List.cons_append, identifier]
    split
    next hb =>
      have hne : b ≠ newline := by
        rintro rfl
        cases hb
      obtain ⟨h₁, h₂, h₃⟩ := (h.tail_of_ne hne).takeWhile_append (p := isIdentifierContinue) rfl
      rw [h₁, h₂, Nat.add_comm, List.drop_succ_cons]
      exact ⟨rfl, rfl, h₃⟩
    next => exact ⟨rfl, rfl, h⟩

end Lexeme

/-! ## Cursors in front of the same bytes -/

namespace Cursor

variable {lines n : Nat} {r t t' : List UInt8} {c d : Cursor}

/-- Two cursors stand in front of the same bytes, the one in front of others behind these than the
other, and a number of lines further down. -/
structure Shares (lines : Nat) (r t t' : List UInt8) (c d : Cursor) : Prop where
  left : c.rest = r ++ t
  right : d.rest = r ++ t'
  location : c.location = d.location.below lines

theorem location_bump_eq {b : UInt8} {rest : List UInt8} (h : c.rest = b :: rest) :
    c.bump.location =
      if b = newline then ⟨c.location.line + 1, 1⟩
      else ⟨c.location.line, c.location.column + 1⟩ := by
  rw [bump, h]
  dsimp only
  split <;> rfl

theorem atEnd_eq (c : Cursor) : c.atEnd = c.peek.isNone := by
  rw [atEnd, peek]
  cases c.rest <;> rfl

theorem Shares.advance (h : Shares lines r t t' c d) (hn : n ≤ r.length ∨ t = [] ∧ t' = []) :
    Shares lines (r.drop n) t t' (c.advance n) (d.advance n) := by
  induction n generalizing r c d with
  | zero => exact h
  | succ n ih =>
    cases r with
    | nil =>
      rcases hn with hn | ⟨rfl, rfl⟩
      · cases hn
      · rw [advance_of_rest_nil h.left, advance_of_rest_nil h.right]
        exact h
    | cons b r =>
      have hleft : c.rest = b :: (r ++ t) := h.left
      have hright : d.rest = b :: (r ++ t') := h.right
      rw [advance_succ (by simp [hleft]), advance_succ (by simp [hright]), List.drop_succ_cons]
      refine ih ⟨by rw [rest_bump, hleft]; rfl, by rw [rest_bump, hright]; rfl, ?_⟩
        (hn.imp_left Nat.le_of_succ_le_succ)
      rw [location_bump_eq hleft, location_bump_eq hright, h.location]
      split
      · simp [Location.below, Nat.add_right_comm]
      · rfl

/-- A move that stops among the bytes that two cursors share is one of both. -/
theorem Shares.advance_of_rest {r' : List UInt8} (h : Shares lines r t t' c d)
    (hs : Seam r t t') (ht : t = [] → t' = []) (hn : (c.advance n).rest = r' ++ t) :
    (n ≤ r.length ∨ t = [] ∧ t' = []) ∧ Shares lines r' t t' (c.advance n) (d.advance n) ∧
      (r' ≠ [] → Seam r' t t') := by
  rw [rest_advance, h.left] at hn
  obtain ⟨hle, rfl⟩ : (n ≤ r.length ∨ t = [] ∧ t' = []) ∧ r' = r.drop n := by
    by_cases hnil : t = []
    · subst hnil
      exact ⟨.inr ⟨rfl, ht rfl⟩, by simpa using hn.symm⟩
    · have hlength := congrArg List.length hn
      have hpos := List.length_pos_iff.2 hnil
      rw [List.length_drop, List.length_append, List.length_append] at hlength
      have hle : n ≤ r.length := by omega
      rw [List.drop_append_of_le_length hle] at hn
      exact ⟨.inl hle, (List.append_cancel_right hn).symm⟩
  exact ⟨hle, h.advance hle, hs.drop⟩

/-- Two cursors stand in front of the same bytes, and these end a line or both texts. -/
def Parallel (lines : Nat) (t t' : List UInt8) (c d : Cursor) : Prop :=
  ∃ r, Shares lines r t t' c d ∧ Seam r t t'

theorem Shares.parallel_advance (h : Shares lines r t t' c d) (hs : Seam (r.drop n) t t') :
    Parallel lines t t' (c.advance n) (d.advance n) := by
  refine ⟨r.drop n, h.advance ?_, hs⟩
  generalize hr : r.drop n = rest at hs
  cases hs with
  | ending => exact .inr ⟨rfl, rfl⟩
  | line hlast =>
    refine .inl (Nat.le_of_not_lt fun hlt => ?_)
    rw [← hr, List.drop_of_length_le (Nat.le_of_lt hlt)] at hlast
    cases hlast

namespace Parallel

theorem location_eq (h : Parallel lines t t' c d) : c.location = d.location.below lines :=
  let ⟨_, hshares, _⟩ := h
  hshares.location

theorem skipWhile {p : UInt8 → Bool} (h : Parallel lines t t' c d) (hp : p newline = false) :
    Parallel lines t t' (c.skipWhile p) (d.skipWhile p) := by
  obtain ⟨r, hshares, hseam⟩ := h
  obtain ⟨h₁, h₂, h₃⟩ := hseam.takeWhile_append hp
  rw [Cursor.skipWhile, Cursor.skipWhile, hshares.left, hshares.right, h₁, h₂]
  exact hshares.parallel_advance h₃

theorem skipInline (h : Parallel lines t t' c d) : Parallel lines t t' c.skipInline d.skipInline :=
  h.skipWhile rfl

theorem peek_eq (h : Parallel lines t t' c d) : c.peek = d.peek := by
  obtain ⟨r, hshares, hseam⟩ := h
  rw [peek, peek, hshares.left, hshares.right]
  cases hseam with
  | ending => rfl
  | line hlast =>
    cases r with
    | nil => cases hlast
    | cons b r => rfl

theorem advance_one {b : UInt8} (h : Parallel lines t t' c d) (hp : c.peek = some b)
    (hb : b ≠ newline) : Parallel lines t t' (c.advance 1) (d.advance 1) := by
  obtain ⟨r, hshares, hseam⟩ := h
  refine hshares.parallel_advance ?_
  rw [peek, hshares.left] at hp
  cases r with
  | nil =>
    cases hseam with
    | line hlast => cases hlast
    | ending => cases hp
  | cons d r =>
    obtain rfl : d = b := Option.some.inj hp
    exact hseam.tail_of_ne hb

theorem atComment_eq (h : Parallel lines t t' c d) : c.atComment = d.atComment := by
  obtain ⟨r, hshares, hseam⟩ := h
  rw [atComment, atComment, hshares.left, hshares.right]
  cases hseam with
  | ending => rfl
  | line hlast =>
    cases r with
    | nil => cases hlast
    | cons b r =>
      cases r with
      | nil =>
        obtain rfl : b = newline := Option.some.inj hlast
        cases t <;> cases t' <;> rfl
      | cons mark r =>
        simp only [List.cons_append, Lexeme.comment]
        have hpos : ∀ m, (2 + m != 0) = true := fun m => by
          rw [bne_iff_ne]
          omega
        split
        · rw [hpos, hpos]
        · split
          · rw [hpos, hpos]
          · rfl

theorem identifier (h : Parallel lines t t' c d) :
    c.identifier.1 = d.identifier.1 ∧ Parallel lines t t' c.identifier.2 d.identifier.2 := by
  obtain ⟨r, hshares, hseam⟩ := h
  obtain ⟨h₁, h₂, h₃⟩ := Lexeme.identifier_append hseam
  have hle : Lexeme.identifier r ≤ r.length := Lexeme.identifier_le r
  simp only [Cursor.identifier, upcoming, hshares.left, hshares.right, h₁, h₂,
    List.take_append_of_le_length hle, true_and]
  exact hshares.parallel_advance h₃

theorem quoted (h : Parallel lines t t' c d) :
    c.quoted.1 = d.quoted.1 ∧ Parallel lines t t' c.quoted.2 d.quoted.2 := by
  have hpar := h
  obtain ⟨r, hshares, hseam⟩ := h
  cases r with
  | nil =>
    cases hseam with
    | line hlast => cases hlast
    | ending =>
      rw [Cursor.quoted, Cursor.quoted, hshares.left, hshares.right]
      exact ⟨rfl, hpar⟩
  | cons q r =>
    rw [Cursor.quoted, Cursor.quoted, hshares.left, hshares.right]
    simp only [List.cons_append]
    split
    next hq =>
      have hne : q ≠ newline := by rcases hq with rfl | rfl <;> decide
      obtain ⟨h₁, h₂, h₃⟩ := (hseam.tail_of_ne hne).takeWhile_append
        (p := fun b => b != q && b != newline) (by simp)
      simp only [h₁, h₂]
      rw [← h₃.getElem?_append]
      split
      next hclose => exact ⟨rfl, hshares.parallel_advance (h₃.drop_succ hclose hne)⟩
      next => exact ⟨rfl, hshares.parallel_advance h₃⟩
    next => exact ⟨rfl, hpar⟩

end Parallel

end Cursor

/-! ## Directives -/

namespace Note

open Cursor

variable {lines : Nat} {t t' : List UInt8} {c d : Cursor} {start start' : Location}
  {known : List String}

/-- Two directives give the same, and were read up to places in front of the same bytes. -/
def Matches (lines : Nat) (t t' : List UInt8) (o o' : Outcome) : Prop :=
  o.1 = o'.1.map (below lines) ∧ Parallel lines t t' o.2 o'.2

theorem matches_none (h : Parallel lines t t' c d) : Matches lines t t' (none, c) (none, d) :=
  ⟨rfl, h⟩

theorem matches_variant (v : Variant) (h : Parallel lines t t' c d) :
    Matches lines t t' (some (.variant v), c) (some (.variant v), d) :=
  ⟨rfl, h⟩

theorem matches_faulty (reason : NoteFault) (hs : start = start'.below lines)
    (h : Parallel lines t t' c d) :
    Matches lines t t' (faulty start c reason) (faulty start' d reason) := by
  refine ⟨?_, h⟩
  simp only [faulty, Option.map_some, below]
  rw [hs, h.location_eq, Span.between_below]

theorem matches_withQuoted {part : QuotedPart} {next next' : String → Cursor → Outcome}
    (hs : start = start'.below lines) (h : Parallel lines t t' c d)
    (hn : ∀ text c d, Parallel lines t t' c d → Matches lines t t' (next text c) (next' text d)) :
    Matches lines t t' (withQuoted start part c next) (withQuoted start' part d next') := by
  obtain ⟨hvalue, hafter⟩ := h.skipInline.quoted
  generalize hc : c.skipInline.quoted = x at hvalue hafter
  generalize hd : d.skipInline.quoted = y at hvalue hafter
  obtain ⟨value, c⟩ := x
  obtain ⟨value', d⟩ := y
  obtain rfl : value = value' := hvalue
  rw [withQuoted, withQuoted, hc, hd]
  cases value with
  | text value => exact hn value c d hafter
  | missing => exact matches_faulty _ hs hafter
  | unterminated => exact matches_faulty _ hs hafter

theorem matches_bindGroupAt (hs : start = start'.below lines) (h : Parallel lines t t' c d) :
    Matches lines t t' (bindGroupAt start c) (bindGroupAt start' d) := by
  refine matches_withQuoted hs h fun name c d h => ?_
  split
  · exact ⟨rfl, h⟩
  · exact matches_faulty _ hs h

theorem matches_displayNameAt {kind : VariantKind} {identifier : String}
    (hs : start = start'.below lines) (h : Parallel lines t t' c d) :
    Matches lines t t' (displayNameAt start kind identifier c)
      (displayNameAt start' kind identifier d) := by
  have hskip := h.skipInline
  have hname : hasDisplayName c.skipInline = hasDisplayName d.skipInline := by
    rw [hasDisplayName, hasDisplayName, atEnd_eq, atEnd_eq, hskip.peek_eq, hskip.atComment_eq]
  unfold displayNameAt
  dsimp only
  rw [hname]
  split
  · refine matches_withQuoted hs hskip fun name c d h => ?_
    split
    · exact matches_faulty _ hs h
    · exact matches_variant _ h
  · exact matches_variant _ hskip

theorem matches_variantAt (hs : start = start'.below lines) (h : Parallel lines t t' c d) :
    Matches lines t t' (variantAt start known c) (variantAt start' known d) := by
  obtain ⟨hword, hafter⟩ := h.skipInline.identifier
  unfold variantAt
  dsimp only
  rw [hword]
  split
  · exact matches_faulty _ hs hafter
  · refine matches_withQuoted hs hafter fun text c d h => ?_
    split
    · exact matches_faulty _ hs h
    · split
      · exact matches_faulty _ hs h
      · exact matches_displayNameAt hs h

theorem matches_inclusionAt (hs : start = start'.below lines) (h : Parallel lines t t' c d) :
    Matches lines t t' (inclusionAt start c) (inclusionAt start' d) := by
  refine matches_withQuoted hs h fun path c d h => ⟨?_, h⟩
  simp only [Option.map_some, below]
  rw [hs, h.location_eq, Span.between_below]

theorem matches_pragmaAt (hs : start = start'.below lines) (h : Parallel lines t t' c d) :
    Matches lines t t' (pragmaAt start known c) (pragmaAt start' known d) := by
  obtain ⟨hword, hafter⟩ := h.skipInline.identifier
  unfold pragmaAt
  dsimp only
  rw [hword]
  split
  · exact matches_bindGroupAt hs hafter
  split
  · exact matches_variantAt hs hafter
  · exact matches_none hafter

/-- A directive is read from its own line alone. -/
theorem matches_directiveAt (known : List String) (h : Parallel lines t t' c d)
    (hp : c.peek = some hash) :
    Matches lines t t' (directiveAt known c) (directiveAt known d) := by
  have hs := h.location_eq
  obtain ⟨hword, hafter⟩ := (h.advance_one hp (by decide)).skipInline.identifier
  unfold directiveAt
  dsimp only
  rw [hword]
  split
  · exact matches_pragmaAt hs hafter
  split
  · exact matches_inclusionAt hs hafter
  · exact matches_none hafter

/-- A step that stops among the bytes that two texts share, or at their end, is one of both. -/
theorem step_shares {r r' : List UInt8} {b : UInt8} (h : Shares lines r t t' c d)
    (hseam : Seam r t t') (ht : t = [] → t' = []) (hhead : t.head? ≠ some newline) (hr : r ≠ [])
    (hp : c.peek = some b) (hn : (step known c b).2.rest = r' ++ t) :
    (step known c b).1 = (step known d b).1.map (below lines) ∧
      Shares lines r' t t' (step known c b).2 (step known d b).2 ∧ (r' ≠ [] → Seam r' t t') := by
  have hpar : Parallel lines t t' c d := ⟨r, h, hseam⟩
  unfold step at hn ⊢
  rw [← hpar.atComment_eq]
  split
  next hcomment =>
    rw [if_pos hcomment, skipComment_eq] at hn
    obtain ⟨hle, hshares⟩ := h.advance_of_rest hseam ht hn
    have hsame : Lexeme.comment d.rest = Lexeme.comment c.rest := by
      rw [h.left] at hle
      rw [h.left, h.right]
      rcases hle with hle | ⟨rfl, rfl⟩
      · exact Lexeme.comment_append hseam hr ht hle
      · rfl
    refine ⟨rfl, ?_⟩
    simpa only [skipComment_eq, hsame] using hshares
  next hcomment =>
    rw [if_neg hcomment] at hn
    split
    next hb =>
      subst hb
      rw [if_pos rfl] at hn
      obtain ⟨hnote, r₁, h₁, hseam₁⟩ := matches_directiveAt known hpar hp
      obtain ⟨hle, hshares⟩ := h₁.advance_of_rest hseam₁ ht hn
      have hsame : Lexeme.line (directiveAt known d).2.rest =
          Lexeme.line (directiveAt known c).2.rest := by
        rw [h₁.left] at hle
        rw [h₁.left, h₁.right]
        rcases hle with hle | ⟨rfl, rfl⟩
        · exact Lexeme.lineRest_append ht hhead hle
        · rfl
      refine ⟨hnote, ?_⟩
      simpa only [skipLine, hsame] using hshares
    next hb =>
      rw [if_neg hb] at hn
      exact ⟨rfl, (h.advance_of_rest hseam ht hn).2⟩

end Note

namespace NoteScan

open Cursor

variable {lines : Nat} {r tail tail' : List UInt8} {t u : NoteScan} {d : Cursor}

theorem GoesOn.passes (h : GoesOn t u) : t.cursor.Passes u.cursor := by
  obtain ⟨b, hp, rfl⟩ := h
  exact Note.passes_step t.known hp

theorem reaches_of_goesOn (h : ReflTransGen GoesOn t u) : t.cursor.Reaches u.cursor := by
  induction h with
  | refl => exact .refl _
  | tail _ hstep ih => exact ih.trans hstep.passes.reaches

/-- A run that stops behind the bytes that two texts share is one of both. -/
theorem exists_parallel (h : ReflTransGen GoesOn t u) (hu : u.cursor.rest = tail)
    (ht : tail = [] → tail' = []) (hhead : tail.head? ≠ some newline)
    (hs : Shares lines r tail tail' t.cursor d) (hseam : r ≠ [] → Seam r tail tail') :
    ∃ front e, t.notes = front.map (Note.below lines) ++ u.notes ∧
      NoteScan.notes ⟨t.known, d⟩ = front ++ NoteScan.notes ⟨u.known, e⟩ ∧
      ReflTransGen GoesOn ⟨t.known, d⟩ ⟨u.known, e⟩ ∧
      Shares lines [] tail tail' u.cursor e := by
  induction h using ReflTransGen.head_induction_on generalizing r d with
  | refl =>
    obtain rfl : r = [] := by simpa [hu] using hs.left.symm
    exact ⟨[], d, rfl, rfl, .refl, hs⟩
  | @head t t₁ hstep hrest ih =>
    have hreach := reaches_of_goesOn hrest
    obtain ⟨b, hp, rfl⟩ := hstep
    -- The run still has to come to the rest, so a part of the shared bytes is left.
    obtain ⟨n, hn⟩ := hreach
    have hnext : (Note.step t.known t.cursor b).2.rest =
        ((t.next b).cursor.rest.take n) ++ tail := by
      rw [← hu, hn, rest_advance]
      exact (List.take_append_drop n _).symm
    have hr : r ≠ [] := by
      rintro rfl
      have hlt := ((Note.passes_step t.known hp).trans ⟨n, hn⟩).rest_lt
      rw [hu, hs.left] at hlt
      exact Nat.lt_irrefl _ hlt
    obtain ⟨hnote, hshares, hseam'⟩ := Note.step_shares hs (hseam hr) ht hhead hr hp hnext
    have hpd : d.peek = some b := by
      have hpar : Parallel lines tail tail' t.cursor d := ⟨r, hs, hseam hr⟩
      rw [← hpar.peek_eq, hp]
    have hknown : NoteScan.next ⟨t.known, d⟩ b =
        ⟨(t.next b).known, (Note.step t.known d b).2⟩ := by
      simp only [next, hnote]
      cases (Note.step t.known d b).1 with
      | none => rfl
      | some note =>
        rw [Option.map_some, Option.elim_some, Option.elim_some, Note.identifiers_below]
    obtain ⟨front, e, hleft, hright, hrun, hend⟩ := ih hshares hseam'
    refine ⟨(Note.step t.known d b).1.toList ++ front, e, ?_, ?_, .head ⟨b, hpd, rfl⟩ ?_, hend⟩
    · rw [notes_of_peek hp, hnote, hleft, List.map_append, ← Option.toList_map, List.append_assoc]
    · rw [notes_of_peek (t := ⟨t.known, d⟩) hpd, hknown, hright, List.append_assoc]
    · rwa [hknown]

end NoteScan

end BindlessHlsl
