import BindlessHlsl.Utf8
import BindlessHlsl.Span

/-!
Edits of a text, all addressed by byte offsets of the unedited text and applied in one pass. A
blanked character becomes spaces of the same length, except that control characters stay, so
blanking moves nothing and keeps every line end. Insertions are spliced into the blanked text,
those at one offset in the order in which they were added.
-/

namespace BindlessHlsl

/-- One change to a text. -/
inductive Edit where
  /-- Overwrite with spaces, keeping control characters. -/
  | blank (range : ByteRange)
  | insert (offset : Nat) (text : String)
  deriving DecidableEq, Repr

/-- Edits in the order in which they were added. -/
structure EditList where
  edits : List Edit := []
  deriving DecidableEq, Repr, Inhabited

/-- The control characters of Unicode. -/
def isControl (c : Char) : Bool := c.val < 0x20 || (0x7f ≤ c.val && c.val < 0xa0)

namespace EditList

/-- Adds the blanking of a range. An empty range adds nothing. -/
def blank (list : EditList) (range : ByteRange) : EditList :=
  if range.isEmpty then list else ⟨list.edits ++ [.blank range]⟩

/-- Adds an insertion. -/
def insert (list : EditList) (offset : Nat) (text : String) : EditList :=
  ⟨list.edits ++ [.insert offset text]⟩

/-- Whether some edit blanks an offset. -/
def blanks (list : EditList) (offset : Nat) : Bool :=
  list.edits.any fun
    | .blank range => range.contains offset
    | .insert .. => false

/-- The insertions, in the order in which they were added. -/
def insertions (list : EditList) : List (Nat × String) :=
  list.edits.filterMap fun
    | .blank _ => none
    | .insert offset text => some (offset, text)

/-- The insertions by offset. -/
def sortedInsertions (list : EditList) : List (Nat × String) :=
  list.insertions.mergeSort fun a b => a.1 ≤ b.1

/-- What one character becomes when its offset is blanked. -/
def blankChar (c : Char) : List Char := if isControl c then [c] else List.replicate c.utf8Size ' '

/-- The characters from an offset on with the blanked ones overwritten. `sweep` says the same with
the ranges in order. -/
def blankChars (list : EditList) : Nat → List Char → List Char
  | _, [] => []
  | offset, c :: cs =>
    (if list.blanks offset then blankChar c else [c]) ++
      list.blankChars (offset + c.utf8Size) cs

/-- The blanked ranges by start. -/
def sortedRanges (list : EditList) : List ByteRange :=
  (list.edits.filterMap fun
    | .blank range => some range
    | .insert .. => none).mergeSort fun a b => decide (a.start ≤ b.start)

/-- Lets the ranges begin that do so up to an offset: how far the ranges that have begun reach, and
the ranges that are still to begin. -/
def begun (offset : Nat) : Nat → List ByteRange → Nat × List ByteRange
  | reach, [] => (reach, [])
  | reach, r :: ranges =>
    if r.start ≤ offset then begun offset (max reach r.stop) ranges else (reach, r :: ranges)

/-- The characters from an offset on with the blanked ones overwritten, given how far the ranges
that have begun reach and the other ranges by start. -/
def sweep : Nat → List ByteRange → Nat → List Char → List Char
  | _, _, _, [] => []
  | reach, ranges, offset, c :: cs =>
    let now := begun offset reach ranges
    (if offset < now.1 then blankChar c else [c]) ++ sweep now.1 now.2 (offset + c.utf8Size) cs

/-- Cuts characters after a number of bytes, or at their end if they are shorter. There is no cut
inside a character. -/
def cut? : Nat → List Char → Option (List Char × List Char)
  | 0, cs => some ([], cs)
  | _ + 1, [] => some ([], [])
  | n + 1, c :: cs =>
    if c.utf8Size ≤ n + 1 then
      (cut? (n + 1 - c.utf8Size) cs).map fun (head, tail) => (c :: head, tail)
    else none

/-- Puts insertions, sorted by offset, into the characters that start at offset `copied`. -/
def splice? : Nat → List Char → List (Nat × String) → Option (List Char)
  | _, cs, [] => some cs
  | copied, cs, (offset, text) :: more => do
    let (head, tail) ← cut? (offset - copied) cs
    let rest ← splice? (copied + Utf8.charsLength head) tail more
    return head ++ text.toList ++ rest

/-- The edited text. There is none if an insertion falls inside a character that is not blanked. -/
def edited? (list : EditList) (source : String) : Option String :=
  (splice? 0 (sweep 0 list.sortedRanges 0 source.toList) list.sortedInsertions).map String.ofList

/-- Total length of the insertions at the offsets of a class. -/
def insertedLength (list : EditList) (p : Nat → Bool) : Nat :=
  (list.insertions.filter fun i => p i.1).foldr (fun i n => Utf8.length i.2 + n) 0

/-- Where the text from an offset on begins after editing, ahead of what is inserted there. -/
def mapStart (list : EditList) (offset : Nat) : Nat :=
  offset + list.insertedLength (· < offset)

/-- Where the text up to an offset ends after editing, with what is inserted there. -/
def mapStop (list : EditList) (offset : Nat) : Nat :=
  offset + list.insertedLength (· ≤ offset)

/-- Where an offset lies after editing, as the start of what follows it and as the end of what comes
before it. There is no answer if one of the two is no offset. -/
def mapped? (list : EditList) (offset : Nat) : Option (Nat × Nat) := do
  let start ← Offset.ofNat? (list.mapStart offset)
  let stop ← Offset.ofNat? (list.mapStop offset)
  return (start, stop)

/-- Where a range of the unedited text lies after editing. -/
def mapRange (list : EditList) (range : ByteRange) : ByteRange :=
  ⟨list.mapStart range.start, list.mapStop range.stop⟩

/-- Whether an offset is blanked by ranges that have begun or by other ranges. -/
def covers (reach : Nat) (ranges : List ByteRange) (offset : Nat) : Bool :=
  decide (offset < reach) || ranges.any fun r => r.contains offset

theorem covers_begun {offset place : Nat} (h : offset ≤ place) (reach : Nat)
    (ranges : List ByteRange) :
    covers (begun offset reach ranges).1 (begun offset reach ranges).2 place =
      covers reach ranges place := by
  fun_induction begun offset reach ranges with
  | case1 => rfl
  | case2 reach r ranges hr ih =>
    have hs : r.start ≤ place := Nat.le_trans hr h
    have hm : place < max reach r.stop ↔ place < reach ∨ place < r.stop := by omega
    rw [ih, Bool.eq_iff_iff]
    simp [covers, ByteRange.contains, hs, hm, or_assoc]
  | case3 => rfl

theorem pairwise_begun {ranges : List ByteRange} (offset reach : Nat)
    (h : ranges.Pairwise fun a b => a.start ≤ b.start) :
    (begun offset reach ranges).2.Pairwise fun a b => a.start ≤ b.start := by
  fun_induction begun offset reach ranges with
  | case1 => exact h
  | case2 reach r ranges hr ih => exact ih (List.pairwise_cons.1 h).2
  | case3 => exact h

theorem lt_start_of_mem_begun {ranges : List ByteRange} {offset reach : Nat}
    (h : ranges.Pairwise fun a b => a.start ≤ b.start) {r : ByteRange}
    (hr : r ∈ (begun offset reach ranges).2) : offset < r.start := by
  fun_induction begun offset reach ranges with
  | case1 => cases hr
  | case2 reach r ranges _ ih => exact ih (List.pairwise_cons.1 h).2 hr
  | case3 reach first ranges hf =>
    rcases List.mem_cons.1 hr with rfl | hm
    · omega
    · have := (List.pairwise_cons.1 h).1 r hm
      omega

/-- At an offset only those ranges count that have begun by then. -/
theorem covers_begun_self {ranges : List ByteRange} (offset reach : Nat)
    (h : ranges.Pairwise fun a b => a.start ≤ b.start) :
    covers reach ranges offset = decide (offset < (begun offset reach ranges).1) := by
  rw [← covers_begun (Nat.le_refl offset), covers, Bool.or_eq_left_iff_imp]
  intro hr
  obtain ⟨r, hm, hc⟩ := List.any_eq_true.1 hr
  have := lt_start_of_mem_begun h hm
  simp [ByteRange.contains] at hc
  omega

theorem sweep_eq_blankChars {list : EditList} {reach offset : Nat} {ranges : List ByteRange}
    (h : ranges.Pairwise fun a b => a.start ≤ b.start)
    (hc : ∀ place, offset ≤ place → list.blanks place = covers reach ranges place)
    (cs : List Char) : sweep reach ranges offset cs = list.blankChars offset cs := by
  induction cs generalizing reach offset ranges with
  | nil => rfl
  | cons c cs ih =>
    have hn : ∀ place, offset + c.utf8Size ≤ place → list.blanks place =
        covers (begun offset reach ranges).1 (begun offset reach ranges).2 place := by
      intro place hp
      have hle : offset ≤ place := by omega
      rw [hc place hle, covers_begun hle]
    rw [sweep, blankChars, hc offset (Nat.le_refl _), covers_begun_self offset reach h,
      ih (pairwise_begun offset reach h) hn]
    simp

theorem pairwise_sortedRanges (list : EditList) :
    list.sortedRanges.Pairwise fun a b => a.start ≤ b.start := by
  refine (List.pairwise_mergeSort ?_ ?_ _).imp (by simp)
  · intro a b c
    simpa using Nat.le_trans
  · intro a b
    simpa using Nat.le_total _ _

theorem blanks_eq_covers (list : EditList) (offset : Nat) :
    list.blanks offset = covers 0 list.sortedRanges offset := by
  rw [Bool.eq_iff_iff]
  simp only [blanks, covers, sortedRanges, List.any_eq_true, List.mem_mergeSort,
    List.mem_filterMap, Nat.not_lt_zero, decide_false, Bool.false_or]
  constructor
  · rintro ⟨e, he, hb⟩
    cases e with
    | blank range => exact ⟨range, ⟨_, he, rfl⟩, hb⟩
    | insert => cases hb
  · rintro ⟨r, ⟨e, he, hr⟩, hb⟩
    cases e with
    | blank range =>
      cases hr
      exact ⟨_, he, hb⟩
    | insert => cases hr

/-- Editing is blanking, character by character, and then splicing. -/
theorem edited?_eq (list : EditList) (source : String) :
    list.edited? source =
      (splice? 0 (list.blankChars 0 source.toList) list.sortedInsertions).map String.ofList := by
  rw [edited?, sweep_eq_blankChars (pairwise_sortedRanges list)
    fun place _ => blanks_eq_covers list place]

end EditList

end BindlessHlsl
