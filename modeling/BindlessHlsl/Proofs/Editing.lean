import BindlessHlsl.EditList
import BindlessHlsl.Proofs.Utf8

/-!
What an edited text is, character by character (`EditList.edited?_eq_woven`), and where its parts
lie (`EditList.length_woven`). Editing never fails if insertions stay between characters. What
becomes of a character that is blanked is said here once more, in the terms of Unicode
(`EditList.overwritten`), and statements about edited texts use that.
-/

namespace BindlessHlsl

open Utf8

theorem ByteRange.contains_iff {start stop offset : Nat} :
    contains ⟨start, stop⟩ offset = true ↔ start ≤ offset ∧ offset < stop := by
  simp [contains]

/-- The bytes of the middle part of a text. -/
theorem ByteRange.slice_encodeChars (front mid back : List Char) :
    slice ⟨charsLength front, charsLength front + charsLength mid⟩
      (encodeChars (front ++ (mid ++ back))) = encodeChars mid := by
  rw [slice, encodeChars_append, encodeChars_append]
  simp only [← length_encodeChars]
  rw [List.drop_left, Nat.add_sub_cancel_left, List.take_left]

/-- A range of a text is there and holds exactly these bytes. -/
def ByteRange.Holds (r : ByteRange) (text part : List UInt8) : Prop :=
  ∃ front back, text = front ++ (part ++ back) ∧ r.start = front.length ∧
    r.stop = front.length + part.length

/-- Sorting is stable: where the elements of a sort are in order already, they stay as they are. -/
theorem filter_mergeSort {α : Type} {le : α → α → Bool} {p : α → Bool} {l : List α}
    (htrans : ∀ a b c, le a b = true → le b c = true → le a c = true)
    (htotal : ∀ a b, (le a b || le b a) = true)
    (h : (l.filter p).Pairwise fun a b => le a b = true) :
    (l.mergeSort le).filter p = l.filter p := by
  have hsub := (List.sublist_mergeSort htrans htotal h List.filter_sublist).filter p
  rw [List.filter_filter] at hsub
  simp only [Bool.and_self] at hsub
  exact (hsub.eq_of_length ((List.mergeSort_perm l le).filter p).length_eq.symm).symm

namespace EditList

/-! ## Overwritten characters -/

/-- The control characters of Unicode, U+0000 to U+001F and U+007F to U+009F. -/
def IsControlChar (c : Char) : Prop := c.toNat ≤ 0x1f ∨ 0x7f ≤ c.toNat ∧ c.toNat ≤ 0x9f

instance : DecidablePred IsControlChar := fun c =>
  inferInstanceAs (Decidable (c.toNat ≤ 0x1f ∨ 0x7f ≤ c.toNat ∧ c.toNat ≤ 0x9f))

/-- What overwriting makes of a character: a control character stays, and any other gives way to as
many spaces as it has bytes. -/
def overwritten (c : Char) : List Char :=
  if IsControlChar c then [c] else List.replicate c.utf8Size ' '

theorem isControl_iff {c : Char} : isControl c = true ↔ IsControlChar c := by
  simp only [isControl, IsControlChar, Bool.or_eq_true, Bool.and_eq_true, decide_eq_true_eq,
    UInt32.lt_iff_toNat_lt, UInt32.le_iff_toNat_le]
  exact or_congr Nat.lt_succ_iff (and_congr_right fun _ => Nat.lt_succ_iff)

theorem blankChar_eq_overwritten (c : Char) : blankChar c = overwritten c := by
  simp only [blankChar, overwritten, isControl_iff]

theorem length_overwritten (c : Char) : charsLength (overwritten c) = c.utf8Size := by
  unfold overwritten
  split
  · simp
  · induction c.utf8Size with
    | zero => rfl
    | succ n ih =>
      rw [List.replicate_succ, charsLength_cons, ih]
      exact Nat.add_comm 1 n

/-! ## Edited texts, character by character -/

/-- What is inserted at an offset, in the order in which it was added. -/
def textAt (insertions : List (Nat × String)) (offset : Nat) : List Char :=
  (insertions.filter fun i => i.1 == offset).flatMap fun i => i.2.toList

/-- The characters from an offset on, each one behind what is inserted at its offset, and
overwritten if its offset is blanked. -/
def woven (blanked : Nat → Bool) (insertions : List (Nat × String)) : Nat → List Char → List Char
  | _, [] => []
  | offset, c :: cs =>
    textAt insertions offset ++ (if blanked offset then overwritten c else [c]) ++
      woven blanked insertions (offset + c.utf8Size) cs

variable {blanked : Nat → Bool} {insertions more : List (Nat × String)} {list : EditList}

theorem textAt_cons_self (offset : Nat) (text : String) :
    textAt ((offset, text) :: more) offset = text.toList ++ textAt more offset := by
  simp [textAt]

theorem textAt_cons_of_ne {offset place : Nat} (h : offset ≠ place) (text : String) :
    textAt ((offset, text) :: more) place = textAt more place := by
  simp [textAt, h]

theorem textAt_append (offset : Nat) :
    textAt (insertions ++ more) offset = textAt insertions offset ++ textAt more offset := by
  simp [textAt]

theorem textAt_eq_nil {offset : Nat} (h : ∀ i ∈ insertions, i.1 ≠ offset) :
    textAt insertions offset = [] := by
  have hnone : (insertions.filter fun i => i.1 == offset) = [] :=
    List.filter_eq_nil_iff.2 fun i hi => by simpa using h i hi
  rw [textAt, hnone, List.flatMap_nil]

theorem woven_nil (offset : Nat) (cs : List Char) :
    woven list.blanks [] offset cs = list.blankChars offset cs := by
  induction cs generalizing offset with
  | nil => rfl
  | cons c cs ih => rw [woven, blankChars, ih, blankChar_eq_overwritten]; rfl

theorem woven_append (offset : Nat) (as bs : List Char) :
    woven blanked insertions offset (as ++ bs) =
      woven blanked insertions offset as ++
        woven blanked insertions (offset + charsLength as) bs := by
  induction as generalizing offset with
  | nil => rfl
  | cons a as ih => simp [woven, ih, Nat.add_assoc]

/-- An insertion in front of all characters comes first. -/
theorem woven_cons_of_lt {offset place : Nat} (h : place < offset) (text : String)
    (cs : List Char) :
    woven blanked ((place, text) :: more) offset cs = woven blanked more offset cs := by
  induction cs generalizing offset with
  | nil => rfl
  | cons c cs ih =>
    rw [woven, woven, textAt_cons_of_ne (Nat.ne_of_lt h), ih (Nat.lt_add_right _ h)]

theorem woven_cons_self (offset : Nat) (text : String) (cs : List Char) :
    woven blanked ((offset, text) :: more) offset cs ++
        textAt ((offset, text) :: more) (offset + charsLength cs) =
      text.toList ++ (woven blanked more offset cs ++ textAt more (offset + charsLength cs)) := by
  cases cs with
  | nil => simpa [woven] using textAt_cons_self offset text
  | cons c cs =>
    have hc := c.utf8Size_pos
    rw [woven, woven, textAt_cons_self, woven_cons_of_lt (by omega),
      textAt_cons_of_ne (by simp; omega)]
    simp

/-! ## Splicing -/

theorem length_overwritten_or_self (b : Bool) (c : Char) :
    charsLength (if b then overwritten c else [c]) = c.utf8Size := by
  split
  · exact length_overwritten c
  · simp

theorem cut?_append (front back : List Char) (n : Nat) :
    cut? (charsLength front + n) (front ++ back) =
      (cut? n back).map fun (head, tail) => (front ++ head, tail) := by
  induction front generalizing n with
  | nil => simp
  | cons c front ih =>
    have hc := c.utf8Size_pos
    obtain ⟨m, hm⟩ : ∃ m, charsLength (c :: front) + n = m + 1 :=
      Nat.exists_eq_add_one.2 (by simp; omega)
    have hle : c.utf8Size ≤ m + 1 := by simp at hm; omega
    have hrest : m + 1 - c.utf8Size = charsLength front + n := by simp at hm; omega
    rw [hm, List.cons_append, cut?, if_pos hle, hrest, ih, Option.map_map]
    rfl

theorem splice?_append {copied : Nat} {front back : List Char}
    (h : ∀ i ∈ insertions, copied + charsLength front ≤ i.1) :
    splice? copied (front ++ back) insertions =
      (splice? (copied + charsLength front) back insertions).map (front ++ ·) := by
  cases insertions with
  | nil => rfl
  | cons i more =>
    obtain ⟨offset, text⟩ := i
    have hle : copied + charsLength front ≤ offset := h _ List.mem_cons_self
    have hcut : offset - copied = charsLength front + (offset - (copied + charsLength front)) := by
      omega
    rw [splice?, splice?, hcut, cut?_append]
    cases cut? (offset - (copied + charsLength front)) back with
    | none => rfl
    | some parts =>
      obtain ⟨head, tail⟩ := parts
      simp only [Option.map_some, Option.bind_eq_bind, Option.bind_some, charsLength_append,
        Nat.add_assoc]
      cases splice? (copied + (charsLength front + charsLength head)) tail more with
      | none => rfl
      | some rest => simp

theorem splice?_self (copied : Nat) (cs : List Char) (text : String) :
    splice? copied cs ((copied, text) :: more) =
      (splice? copied cs more).map (text.toList ++ ·) := by
  rw [splice?, Nat.sub_self, cut?]
  simp only [Option.bind_eq_bind, Option.bind_some, charsLength_nil, Nat.add_zero]
  cases splice? copied cs more <;> rfl

theorem splice?_self_eq_woven {copied : Nat} {cs : List Char} (text : String)
    (h : splice? copied (list.blankChars copied cs) more =
      some (woven list.blanks more copied cs ++ textAt more (copied + charsLength cs))) :
    splice? copied (list.blankChars copied cs) ((copied, text) :: more) =
      some (woven list.blanks ((copied, text) :: more) copied cs ++
        textAt ((copied, text) :: more) (copied + charsLength cs)) := by
  rw [splice?_self, h, woven_cons_self]
  rfl

/-- Without an insertion at the first character, splicing goes on behind it. -/
theorem splice?_cons_eq_woven {copied : Nat} {c : Char} {cs : List Char}
    (hge : ∀ i ∈ insertions, copied + c.utf8Size ≤ i.1)
    (h : splice? (copied + c.utf8Size) (list.blankChars (copied + c.utf8Size) cs) insertions =
      some (woven list.blanks insertions (copied + c.utf8Size) cs ++
        textAt insertions (copied + c.utf8Size + charsLength cs))) :
    splice? copied (list.blankChars copied (c :: cs)) insertions =
      some (woven list.blanks insertions copied (c :: cs) ++
        textAt insertions (copied + charsLength (c :: cs))) := by
  have hc := c.utf8Size_pos
  have hlen := length_overwritten_or_self (list.blanks copied) c
  have hnone : textAt insertions copied = [] :=
    textAt_eq_nil fun i hi => by have := hge i hi; omega
  rw [blankChars, blankChar_eq_overwritten, splice?_append (by rw [hlen]; exact hge), hlen, h,
    woven, hnone]
  simp [Nat.add_assoc]

/-- Splicing puts insertions that are sorted by offset in front of the characters at their offsets.
-/
theorem splice?_eq_woven {copied : Nat} {cs : List Char}
    (hs : insertions.Pairwise fun a b => a.1 ≤ b.1)
    (hb : ∀ i ∈ insertions, ∃ place, IsBoundary cs place ∧ i.1 = copied + place) :
    splice? copied (list.blankChars copied cs) insertions =
      some (woven list.blanks insertions copied cs ++
        textAt insertions (copied + charsLength cs)) := by
  induction cs generalizing copied insertions with
  | nil =>
    induction insertions with
    | nil => rfl
    | cons i more ih =>
      obtain ⟨offset, text⟩ := i
      obtain ⟨⟨place, hp, rfl⟩, hm⟩ := List.forall_mem_cons.1 hb
      obtain rfl := isBoundary_nil hp
      exact splice?_self_eq_woven text (ih (List.pairwise_cons.1 hs).2 hm)
  | cons c cs ih =>
    induction insertions with
    | nil =>
      rw [woven_nil]
      simp [splice?, textAt]
    | cons i more ih' =>
      obtain ⟨offset, text⟩ := i
      obtain ⟨hfirst, hs'⟩ := List.pairwise_cons.1 hs
      obtain ⟨⟨place, hp, rfl⟩, hm⟩ := List.forall_mem_cons.1 hb
      rcases isBoundary_cons hp with rfl | ⟨rest, _, rfl⟩
      · exact splice?_self_eq_woven text (ih' hs' hm)
      · have hge : ∀ i ∈ (copied + (c.utf8Size + rest), text) :: more,
            copied + c.utf8Size ≤ i.1 := by
          refine List.forall_mem_cons.2 ⟨by simp, fun i hi => ?_⟩
          have := hfirst i hi
          simp only at this
          omega
        refine splice?_cons_eq_woven hge (ih hs fun i hi => ?_)
        obtain ⟨place, hp, he⟩ := hb i hi
        have hc := c.utf8Size_pos
        have := hge i hi
        rcases isBoundary_cons hp with rfl | ⟨rest, hr, rfl⟩
        · omega
        · exact ⟨rest, hr, by omega⟩

theorem pairwise_sortedInsertions (list : EditList) :
    list.sortedInsertions.Pairwise fun i j => i.1 ≤ j.1 := by
  refine (List.pairwise_mergeSort ?_ ?_ _).imp (by simp)
  · intro a b c
    simpa using Nat.le_trans
  · intro a b
    simpa using Nat.le_total _ _

/-- The insertions at one offset stay in the order in which they were added. -/
theorem filter_sortedInsertions (list : EditList) (offset : Nat) :
    (list.sortedInsertions.filter fun i => i.1 == offset) =
      list.insertions.filter fun i => i.1 == offset := by
  refine filter_mergeSort ?_ ?_ ?_
  · intro a b c
    simpa using Nat.le_trans
  · intro a b
    simpa using Nat.le_total _ _
  · refine List.pairwise_filter.2 (List.pairwise_of_forall fun a b ha hb => ?_)
    simp_all

theorem textAt_sortedInsertions (list : EditList) (offset : Nat) :
    textAt list.sortedInsertions offset = textAt list.insertions offset := by
  rw [textAt, textAt, filter_sortedInsertions]

/-- What happens outside a stretch of text does not matter in it. -/
theorem woven_congr {blanked' : Nat → Bool} {insertions' : List (Nat × String)} {offset : Nat}
    {cs : List Char}
    (h : ∀ place, offset ≤ place → place < offset + charsLength cs →
      blanked place = blanked' place ∧ textAt insertions place = textAt insertions' place) :
    woven blanked insertions offset cs = woven blanked' insertions' offset cs := by
  induction cs generalizing offset with
  | nil => rfl
  | cons c cs ih =>
    have hc := c.utf8Size_pos
    obtain ⟨hb, ht⟩ := h offset (Nat.le_refl _) (by simp; omega)
    rw [woven, woven, hb, ht, ih fun place h₁ h₂ => h place (by omega) (by simp; omega)]

theorem woven_none (offset : Nat) (cs : List Char) : woven (fun _ => false) [] offset cs = cs := by
  induction cs generalizing offset with
  | nil => rfl
  | cons c cs ih => simp [woven, textAt, ih]

/-- A stretch that is left alone but for one text at its start. -/
theorem woven_eq_append {offset : Nat} {cs : List Char} {text : String}
    (hb : ∀ place, offset ≤ place → place < offset + charsLength cs → blanked place = false)
    (ht : ∀ place, offset ≤ place → place ≤ offset + charsLength cs →
      textAt insertions place = textAt [(offset, text)] place) :
    woven blanked insertions offset cs ++ textAt insertions (offset + charsLength cs) =
      text.toList ++ cs := by
  have hcongr : woven blanked insertions offset cs =
      woven (fun _ => false) [(offset, text)] offset cs :=
    woven_congr fun place h₁ h₂ => ⟨hb place h₁ h₂, ht place h₁ (Nat.le_of_lt h₂)⟩
  rw [hcongr, ht _ (Nat.le_add_right ..) (Nat.le_refl _), woven_cons_self, woven_none]
  simp [textAt]

/-- An edited text, if no insertion falls inside a character. -/
theorem edited?_eq_woven {source : String}
    (h : ∀ i ∈ list.insertions, IsBoundary source.toList i.1) :
    list.edited? source = some (String.ofList (woven list.blanks list.insertions 0 source.toList ++
      textAt list.insertions (length source))) := by
  have hb : ∀ i ∈ list.sortedInsertions,
      ∃ place, IsBoundary source.toList place ∧ i.1 = 0 + place := fun i hi =>
    ⟨i.1, h i (List.mem_mergeSort.1 hi), (Nat.zero_add _).symm⟩
  rw [edited?_eq, splice?_eq_woven list.pairwise_sortedInsertions hb, textAt_sortedInsertions,
    length_eq_charsLength, woven_congr fun place _ _ => ⟨rfl, textAt_sortedInsertions list place⟩]
  simp

/-! ## Where the parts of an edited text lie -/

theorem length_textAt (list : EditList) (offset : Nat) :
    charsLength (textAt list.insertions offset) = list.insertedLength (· == offset) := by
  unfold textAt insertedLength
  induction list.insertions.filter fun i => i.1 == offset with
  | nil => rfl
  | cons i more ih => simp [ih, length_eq_charsLength]

theorem insertedLength_or {p q r : Nat → Bool}
    (h : ∀ i ∈ list.insertions, (p i.1 = true ↔ q i.1 = true ∨ r i.1 = true) ∧
      ¬(q i.1 = true ∧ r i.1 = true)) :
    list.insertedLength p = list.insertedLength q + list.insertedLength r := by
  unfold insertedLength
  generalize list.insertions = insertions at h
  induction insertions with
  | nil => rfl
  | cons i more ih =>
    obtain ⟨⟨hp, hd⟩, hm⟩ := List.forall_mem_cons.1 h
    have ih := ih hm
    cases hq : q i.1 <;> cases hr : r i.1 <;> simp_all <;> omega

theorem insertedLength_eq_zero {p : Nat → Bool} (h : ∀ i ∈ list.insertions, p i.1 = false) :
    list.insertedLength p = 0 := by
  have hnone : (list.insertions.filter fun i => p i.1) = [] :=
    List.filter_eq_nil_iff.2 fun i hi => by simp [h i hi]
  rw [insertedLength, hnone]
  rfl

/-- What is inserted into a stretch of text falls between its characters. -/
def Fits (insertions : List (Nat × String)) (offset : Nat) (cs : List Char) : Prop :=
  ∀ i ∈ insertions, offset ≤ i.1 → i.1 < offset + charsLength cs →
    ∃ place, IsBoundary cs place ∧ i.1 = offset + place

theorem Fits.eq_or_le {offset : Nat} {c : Char} {cs : List Char}
    (h : Fits insertions offset (c :: cs)) {i : Nat × String} (hi : i ∈ insertions)
    (hle : offset ≤ i.1) (hlt : i.1 < offset + charsLength (c :: cs)) :
    i.1 = offset ∨ offset + c.utf8Size ≤ i.1 := by
  obtain ⟨place, hp, he⟩ := h i hi hle hlt
  rcases isBoundary_cons hp with rfl | ⟨rest, _, rfl⟩
  · exact .inl he
  · exact .inr (by omega)

theorem Fits.tail {offset : Nat} {c : Char} {cs : List Char}
    (h : Fits insertions offset (c :: cs)) : Fits insertions (offset + c.utf8Size) cs := by
  intro i hi hle hlt
  have hc := c.utf8Size_pos
  obtain ⟨place, hp, he⟩ := h i hi (by omega) (by rw [charsLength_cons]; omega)
  rcases isBoundary_cons hp with rfl | ⟨rest, hr, rfl⟩
  · omega
  · exact ⟨rest, hr, by omega⟩

/-- A boundary of a text that lies in a stretch of it is a boundary of the stretch. -/
theorem exists_place {front mid back : List Char} {offset : Nat}
    (h : IsBoundary (front ++ (mid ++ back)) offset) (hle : charsLength front ≤ offset)
    (hge : offset ≤ charsLength front + charsLength mid) :
    ∃ place, IsBoundary mid place ∧ offset = charsLength front + place := by
  rcases isBoundary_append h with ⟨-, hfront⟩ | ⟨rest, hrest, he⟩
  · exact ⟨0, ⟨[], mid, rfl, rfl⟩, by omega⟩
  rcases isBoundary_append hrest with ⟨hmid, -⟩ | ⟨place, -, hplace⟩
  · exact ⟨rest, hmid, he⟩
  · exact ⟨charsLength mid, ⟨mid, [], (List.append_nil _).symm, rfl⟩, by omega⟩

theorem fits_of_isBoundary {front mid back : List Char}
    (h : ∀ i ∈ insertions, IsBoundary (front ++ (mid ++ back)) i.1) :
    Fits insertions (charsLength front) mid :=
  fun i hi hle hlt => exists_place (h i hi) hle (Nat.le_of_lt hlt)

/-- A stretch of text grows by what is inserted in it. -/
theorem length_woven {offset : Nat} {cs : List Char} (h : Fits list.insertions offset cs) :
    charsLength (woven blanked list.insertions offset cs) = charsLength cs +
      list.insertedLength (ByteRange.contains ⟨offset, offset + charsLength cs⟩) := by
  induction cs generalizing offset with
  | nil =>
    have hnone : list.insertedLength (ByteRange.contains ⟨offset, offset⟩) = 0 := by
      refine insertedLength_eq_zero fun i _ => Bool.eq_false_iff.2 fun hin => ?_
      rw [ByteRange.contains_iff] at hin
      omega
    rw [woven, charsLength_nil, Nat.add_zero, hnone]
  | cons c cs ih =>
    have hc := c.utf8Size_pos
    have hsplit :
        list.insertedLength (ByteRange.contains ⟨offset, offset + charsLength (c :: cs)⟩) =
          list.insertedLength (· == offset) + list.insertedLength
            (ByteRange.contains ⟨offset + c.utf8Size, offset + c.utf8Size + charsLength cs⟩) := by
      refine insertedLength_or fun i hi => ?_
      have hcases := h.eq_or_le hi
      simp only [beq_iff_eq, ByteRange.contains_iff, charsLength_cons] at hcases ⊢
      omega
    rw [woven, charsLength_append, charsLength_append, length_textAt,
      length_overwritten_or_self, ih h.tail, hsplit, charsLength_cons]
    omega

/-- Overwriting keeps the length of a text. -/
theorem length_woven_nil (offset : Nat) (cs : List Char) :
    charsLength (woven blanked [] offset cs) = charsLength cs := by
  induction cs generalizing offset with
  | nil => rfl
  | cons c cs ih =>
    rw [woven, charsLength_append, charsLength_append, length_overwritten_or_self, ih,
      charsLength_cons]
    simp [textAt]

theorem blankChars_append (list : EditList) (offset : Nat) (as bs : List Char) :
    list.blankChars offset (as ++ bs) =
      list.blankChars offset as ++ list.blankChars (offset + charsLength as) bs := by
  simpa only [woven_nil] using @woven_append list.blanks [] offset as bs

theorem length_blankChars (list : EditList) (offset : Nat) (cs : List Char) :
    charsLength (list.blankChars offset cs) = charsLength cs := by
  rw [← woven_nil, length_woven_nil]

/-- Blanking keeps the places between characters. -/
theorem isBoundary_blankChars {list : EditList} {cs : List Char} {offset place : Nat}
    (h : IsBoundary cs place) : IsBoundary (list.blankChars offset cs) place := by
  obtain ⟨front, back, rfl, rfl⟩ := h
  exact ⟨_, _, list.blankChars_append offset front back, list.length_blankChars offset front⟩

/-- What is inserted at an offset comes first in what follows. -/
theorem exists_woven_eq_textAt_append (offset : Nat) (cs : List Char) :
    ∃ rest, woven blanked insertions offset cs ++
        textAt insertions (offset + charsLength cs) = textAt insertions offset ++ rest := by
  cases cs with
  | nil => exact ⟨[], by simp [woven]⟩
  | cons c cs => exact ⟨_, by rw [woven, List.append_assoc, List.append_assoc]⟩

theorem mapStart_eq {front back : List Char}
    (hb : ∀ i ∈ list.insertions, IsBoundary (front ++ back) i.1) :
    list.mapStart (charsLength front) = charsLength (woven blanked list.insertions 0 front) := by
  have hfits : Fits list.insertions 0 front := @fits_of_isBoundary _ [] front back hb
  rw [length_woven hfits, mapStart]
  congr 2
  funext place
  simp [ByteRange.contains]

theorem mapStop_eq {front mid back : List Char}
    (hb : ∀ i ∈ list.insertions, IsBoundary (front ++ (mid ++ back)) i.1) :
    list.mapStop (charsLength front + charsLength mid) =
      list.mapStart (charsLength front) +
        charsLength (woven blanked list.insertions (charsLength front) mid ++
          textAt list.insertions (charsLength front + charsLength mid)) := by
  have hlast : list.insertedLength (· ≤ charsLength front + charsLength mid) =
      list.insertedLength (· < charsLength front + charsLength mid) +
        list.insertedLength (· == charsLength front + charsLength mid) :=
    insertedLength_or fun i _ => by
      simp only [decide_eq_true_eq, beq_iff_eq]
      omega
  have hfirst : list.insertedLength (· < charsLength front + charsLength mid) =
      list.insertedLength (· < charsLength front) + list.insertedLength
        (ByteRange.contains ⟨charsLength front, charsLength front + charsLength mid⟩) :=
    insertedLength_or fun i _ => by
      simp only [decide_eq_true_eq, ByteRange.contains_iff]
      omega
  rw [mapStop, mapStart, charsLength_append, length_woven (fits_of_isBoundary hb), length_textAt,
    hlast, hfirst]
  omega

/-- A stretch between two boundaries lies at the mapped range after editing, with everything that is
inserted from its start up to its end. -/
theorem holds_mapRange {front mid back : List Char} {source output : String}
    (hb : ∀ i ∈ list.insertions, IsBoundary source.toList i.1)
    (hs : source.toList = front ++ (mid ++ back)) (ho : list.edited? source = some output) :
    (list.mapRange ⟨charsLength front, charsLength front + charsLength mid⟩).Holds (encode output)
      (encodeChars (woven list.blanks list.insertions (charsLength front) mid ++
        textAt list.insertions (charsLength front + charsLength mid))) := by
  rw [edited?_eq_woven hb] at ho
  obtain ⟨rest, hrest⟩ := @exists_woven_eq_textAt_append list.blanks list.insertions
    (charsLength front + charsLength mid) back
  rw [hs] at hb
  refine ⟨encodeChars (woven list.blanks list.insertions 0 front), encodeChars rest, ?_, ?_, ?_⟩
  · cases ho
    rw [encode_ofList, length_eq_charsLength, hs, woven_append, woven_append,
      ← encodeChars_append, ← encodeChars_append]
    simp only [Nat.zero_add, List.append_assoc, charsLength_append, ← hrest]
    simp only [Nat.add_assoc]
  · rw [length_encodeChars]
    exact mapStart_eq hb
  · rw [length_encodeChars, length_encodeChars, ← mapStart_eq hb]
    exact mapStop_eq hb

end EditList

end BindlessHlsl
