import BindlessHlsl.Proofs.Editing
import Mathlib.Data.List.Basic

/-!
An edited text falls apart at any two boundaries of the text that it was made from. What it means to
put insertions into a stretch of text is said by a relation that uses every insertion once
(`EditList.Splices`). The stretches in front of, between and behind the boundaries are edited each
on its own, with the insertions at their offsets (`EditList.Rewrites`), and the mapped offsets say
how long the results are (`EditList.Splits`).
-/

namespace BindlessHlsl

open Utf8

/-- What an edit inserts, and where. -/
def Edit.insertion? : Edit → Option (Nat × String)
  | blank _ => none
  | insert offset text => some (offset, text)

namespace EditList

/-! ## What a list asks for -/

/-- Some edit blanks the byte at an offset. -/
def Blanked (list : EditList) (offset : Nat) : Prop :=
  ∃ range, .blank range ∈ list.edits ∧ range.start ≤ offset ∧ offset < range.stop

theorem blanks_iff {list : EditList} {offset : Nat} :
    list.blanks offset = true ↔ list.Blanked offset := by
  rw [blanks, List.any_eq_true]
  constructor
  · rintro ⟨e, he, hb⟩
    cases e with
    | blank range => exact ⟨range, he, ByteRange.contains_iff.1 hb⟩
    | insert => cases hb
  · rintro ⟨range, he, hb⟩
    exact ⟨_, he, ByteRange.contains_iff.2 hb⟩

theorem insertions_eq (list : EditList) :
    list.insertions = list.edits.filterMap Edit.insertion? := rfl

theorem insert_mem {list : EditList} {i : Nat × String} (h : i ∈ list.insertions) :
    .insert i.1 i.2 ∈ list.edits := by
  rw [insertions_eq] at h
  obtain ⟨e, he, hi⟩ := List.mem_filterMap.1 h
  cases e with
  | blank => cases hi
  | insert =>
    cases hi
    exact he

/-! ## Insertions into a stretch of text -/

/-- Putting insertions into the characters from an offset on, each one at its own offset and one
after the other as they are listed, gives the other characters. -/
inductive Splices : List (Nat × String) → Nat → List Char → List Char → Prop
  | done (offset : Nat) (cs : List Char) : Splices [] offset cs cs
  | insert {offset : Nat} (text : String) {more : List (Nat × String)} {cs out : List Char} :
    Splices more offset cs out → Splices ((offset, text) :: more) offset cs (text.toList ++ out)
  | keep {offset : Nat} (c : Char) {insertions : List (Nat × String)} {cs out : List Char} :
    Splices insertions (offset + c.utf8Size) cs out → Splices insertions offset (c :: cs) (c :: out)

variable {insertions more : List (Nat × String)} {offset : Nat} {cs ds out end' : List Char}
  {list : EditList}

namespace Splices

theorem le_of_mem (h : Splices insertions offset cs out) : ∀ i ∈ insertions, offset ≤ i.1 := by
  induction h with
  | done => exact List.forall_mem_nil _
  | insert text _ ih => exact List.forall_mem_cons.2 ⟨Nat.le_refl _, ih⟩
  | keep c _ ih => exact fun i hi => Nat.le_trans (Nat.le_add_right ..) (ih i hi)

/-- Two stretches that follow each other. -/
theorem append (h : Splices insertions offset cs out)
    (hmore : Splices more (offset + charsLength cs) ds end') :
    Splices (insertions ++ more) offset (cs ++ ds) (out ++ end') := by
  induction h with
  | done offset cs =>
    induction cs generalizing offset with
    | nil => exact hmore
    | cons c cs ih =>
      rw [charsLength_cons, ← Nat.add_assoc] at hmore
      exact .keep c (ih _ hmore)
  | insert text _ ih =>
    rw [List.append_assoc]
    exact .insert text (ih hmore)
  | keep c _ ih =>
    rw [charsLength_cons, ← Nat.add_assoc] at hmore
    exact .keep c (ih hmore)

/-- Splicing finds what the relation describes. -/
theorem splice?_eq (h : Splices insertions offset cs out) :
    splice? offset cs insertions = some out := by
  induction h with
  | done => rfl
  | insert text _ ih =>
    rw [splice?_self, ih]
    rfl
  | @keep offset c insertions cs out h ih =>
    have hsize : charsLength [c] = c.utf8Size := Nat.add_zero _
    have happend := @splice?_append insertions offset [c] cs (by rw [hsize]; exact h.le_of_mem)
    rw [hsize, ih] at happend
    exact happend

theorem length_eq (h : Splices insertions offset cs out) :
    charsLength out = charsLength cs + insertions.foldr (fun i n => length i.2 + n) 0 := by
  induction h with
  | done => rfl
  | insert text _ ih =>
    rw [charsLength_append, ih, List.foldr_cons, length_eq_charsLength, Nat.add_left_comm]
  | keep c _ ih =>
    rw [charsLength_cons, ih, charsLength_cons, Nat.add_assoc]

end Splices

/-- Insertions that are sorted and fall between the characters can be put in. -/
theorem exists_splices (hs : insertions.Pairwise fun i j => i.1 ≤ j.1)
    (hb : ∀ i ∈ insertions, ∃ place, IsBoundary cs place ∧ i.1 = offset + place) :
    ∃ out, Splices insertions offset cs out := by
  induction insertions generalizing offset cs with
  | nil => exact ⟨cs, .done offset cs⟩
  | cons i more ih =>
    obtain ⟨at', text⟩ := i
    obtain ⟨hfirst, hrest⟩ := List.pairwise_cons.1 hs
    obtain ⟨⟨place, ⟨front, back, rfl, rfl⟩, hat⟩, hmore⟩ := List.forall_mem_cons.1 hb
    obtain rfl : at' = offset + charsLength front := hat
    -- The later insertions are not in front of this one, so they fall into what is behind it.
    have hback : ∀ i ∈ more, ∃ place, IsBoundary back place ∧
        i.1 = offset + charsLength front + place := by
      intro i hi
      have hle : offset + charsLength front ≤ i.1 := hfirst i hi
      obtain ⟨place, hplace, he⟩ := hmore i hi
      rcases isBoundary_append hplace with ⟨-, hge⟩ | ⟨rest, hplace, hp⟩
      · exact ⟨0, ⟨[], back, rfl, rfl⟩, by omega⟩
      · exact ⟨rest, hplace, by omega⟩
    obtain ⟨out, hout⟩ := ih hrest hback
    exact ⟨_, (Splices.done offset front).append (.insert text hout)⟩

/-! ## Stretches of an edited text -/

/-- Two stretches of a blanked text that follow each other. -/
theorem Splices.append_blankChars {place : Nat} {as bs : List Char}
    (h : Splices insertions offset (list.blankChars offset as) out)
    (hmore : Splices more place (list.blankChars place bs) end')
    (hplace : place = offset + charsLength as) :
    Splices (insertions ++ more) offset (list.blankChars offset (as ++ bs)) (out ++ end') := by
  subst hplace
  rw [blankChars_append]
  refine h.append ?_
  rwa [length_blankChars]

/-- Insertions in the order in which they are put in: by offset, and those at one offset in the
order in which they were added. -/
structure Arranges (ordered added : List (Nat × String)) : Prop where
  sorted : ordered.Pairwise fun i j => i.1 ≤ j.1
  stable : ∀ offset, (ordered.filter fun i => i.1 == offset) = added.filter fun i => i.1 == offset

/-- A stretch of a text becomes this one: its blanked characters are overwritten, and exactly the
insertions at the offsets of a class are put in at their offsets, those at one offset in the order
in which they were added. -/
def Rewrites (list : EditList) (p : Nat → Bool) (offset : Nat) (cs out : List Char) : Prop :=
  ∃ blanked ordered, (∀ place, blanked place = true ↔ list.Blanked place) ∧
    Arranges ordered ((list.edits.filterMap Edit.insertion?).filter fun i => p i.1) ∧
    Splices ordered offset (woven blanked [] offset cs) out

/-- The insertions at the offsets of a class, in the order in which they are put in. -/
def chosen (list : EditList) (p : Nat → Bool) : List (Nat × String) :=
  list.sortedInsertions.filter fun i => p i.1

theorem arranges_chosen (list : EditList) (p : Nat → Bool) :
    Arranges (list.chosen p) (list.insertions.filter fun i => p i.1) where
  sorted := list.pairwise_sortedInsertions.filter _
  stable offset := by
    rw [chosen, List.filter_comm, filter_sortedInsertions, List.filter_comm]

theorem rewrites_of_splices {p : Nat → Bool}
    (h : Splices (list.chosen p) offset (list.blankChars offset cs) out) :
    list.Rewrites p offset cs out :=
  ⟨list.blanks, list.chosen p, fun _ => blanks_iff, list.arranges_chosen p, by rwa [woven_nil]⟩

theorem length_chosen (list : EditList) (p : Nat → Bool) :
    (list.chosen p).foldr (fun i n => length i.2 + n) 0 = list.insertedLength p := by
  have hperm : (list.chosen p).Perm (list.insertions.filter fun i => p i.1) :=
    (List.mergeSort_perm ..).filter _
  exact hperm.foldr_eq' (fun i _ j _ n => Nat.add_left_comm (length j.2) (length i.2) n) 0

/-- The insertions at the offsets of a stretch can be put into it. -/
theorem exists_splices_chosen {front mid back : List Char} {p : Nat → Bool}
    (hb : ∀ i ∈ list.insertions, IsBoundary (front ++ (mid ++ back)) i.1)
    (hp : ∀ i ∈ list.insertions, p i.1 = true →
      charsLength front ≤ i.1 ∧ i.1 ≤ charsLength front + charsLength mid) :
    ∃ out, Splices (list.chosen p) (charsLength front)
        (list.blankChars (charsLength front) mid) out ∧
      charsLength out = charsLength mid + list.insertedLength p := by
  have hplace : ∀ i ∈ list.chosen p, ∃ place,
      IsBoundary (list.blankChars (charsLength front) mid) place ∧
        i.1 = charsLength front + place := by
    intro i hi
    obtain ⟨hi, hpi⟩ := List.mem_filter.1 hi
    have hi := List.mem_mergeSort.1 hi
    obtain ⟨place, hplace, he⟩ := exists_place (hb i hi) (hp i hi hpi).1 (hp i hi hpi).2
    exact ⟨place, isBoundary_blankChars hplace, he⟩
  obtain ⟨out, hout⟩ := exists_splices (list.arranges_chosen p).sorted hplace
  refine ⟨out, hout, ?_⟩
  rw [hout.length_eq, length_blankChars, length_chosen]

/-- What comes first in a sorted list is in front of the others. -/
theorem filter_append_filter_not {α : Type} {p : α → Bool} {l : List α}
    (h : l.Pairwise fun x y => p y = true → p x = true) :
    l.filter p ++ l.filter (fun x => !p x) = l := by
  induction l with
  | nil => rfl
  | cons x l ih =>
    obtain ⟨hx, hl⟩ := List.pairwise_cons.1 h
    by_cases hp : p x = true
    · simp [hp, ih hl]
    · have hnone : ∀ y ∈ l, ¬p y = true := fun y hy hpy => hp (hx y hy hpy)
      have hall : l.filter (fun y => !p y) = l :=
        List.filter_eq_self.2 fun y hy => by simpa using hnone y hy
      simp [hp, List.filter_eq_nil_iff.2 hnone, hall]

/-- Two offsets divide the insertions in three. -/
theorem chosen_append (list : EditList) {a b : Nat} (hab : a ≤ b) :
    list.chosen (· < a) ++ (list.chosen (fun i => a ≤ i && i ≤ b) ++ list.chosen (b < ·)) =
      list.sortedInsertions := by
  have hsorted := list.pairwise_sortedInsertions
  have hfirst := filter_append_filter_not (p := fun i : Nat × String => decide (i.1 < a))
    (hsorted.imp fun hij => by simpa using fun h => Nat.lt_of_le_of_lt hij h)
  have hrest := filter_append_filter_not (p := fun i : Nat × String => decide (i.1 ≤ b))
    ((hsorted.filter fun i => !decide (i.1 < a)).imp fun hij => by
      simpa using fun h => Nat.le_trans hij h)
  rw [List.filter_filter, List.filter_filter] at hrest
  have hmid : list.chosen (fun i => a ≤ i && i ≤ b) =
      list.sortedInsertions.filter fun i => decide (i.1 ≤ b) && !decide (i.1 < a) := by
    refine List.filter_congr fun i _ => ?_
    rw [Bool.eq_iff_iff]
    simp [and_comm]
  have hlast : list.chosen (b < ·) =
      list.sortedInsertions.filter fun i => !decide (i.1 ≤ b) && !decide (i.1 < a) := by
    refine List.filter_congr fun i _ => ?_
    rw [Bool.eq_iff_iff]
    simp
    omega
  rw [hmid, hlast, hrest]
  exact hfirst

/-! ## Edited texts -/

/-- An edited text in three parts: what two boundaries of the text that was edited divide it in. The
mapped offsets are where the second part starts and stops. -/
structure Splits (list : EditList) (source : String) (a b : Nat) (x y z : List Char) : Prop where
  edited : list.edited? source = some (String.ofList (x ++ (y ++ z)))
  start : charsLength x = list.mapStart a
  stop : charsLength (x ++ y) = list.mapStop b
  parts : ∃ front mid back, source.toList = front ++ (mid ++ back) ∧ charsLength front = a ∧
    charsLength (front ++ mid) = b ∧ list.Rewrites (· < a) 0 front x ∧
    list.Rewrites (fun i => a ≤ i && i ≤ b) a mid y ∧ list.Rewrites (b < ·) b back z
  /-- As long as the edited text has offsets for its bytes, mapping answers. -/
  mapped : charsLength (x ++ (y ++ z)) < Offset.bound →
    (list.mapped? a).map Prod.fst = some (charsLength x) ∧
      (list.mapped? b).map Prod.snd = some (charsLength (x ++ y))

theorem insertedLength_mono {p q : Nat → Bool} (h : ∀ n, p n = true → q n = true) :
    list.insertedLength p ≤ list.insertedLength q := by
  have hsplit : list.insertedLength q =
      list.insertedLength p + list.insertedLength fun n => q n && !p n := by
    refine insertedLength_or fun i _ => ?_
    have hi := h i.1
    cases hp : p i.1 <;> cases hq : q i.1 <;> simp_all
  omega

theorem mapStart_le_mapStop (list : EditList) (offset : Nat) :
    list.mapStart offset ≤ list.mapStop offset := by
  refine Nat.add_le_add_left (insertedLength_mono fun n hn => ?_) offset
  simpa using Nat.le_of_lt (of_decide_eq_true hn)

theorem mapStop_mono (list : EditList) {a b : Nat} (hab : a ≤ b) :
    list.mapStop a ≤ list.mapStop b := by
  refine Nat.add_le_add hab (insertedLength_mono fun n hn => ?_)
  simpa using Nat.le_trans (of_decide_eq_true hn) hab

theorem mapped?_eq_some (h : list.mapStop offset < Offset.bound) :
    list.mapped? offset = some (list.mapStart offset, list.mapStop offset) := by
  have hstart := Nat.lt_of_le_of_lt (list.mapStart_le_mapStop offset) h
  rw [mapped?, Offset.ofNat?_eq_some_iff.2 ⟨hstart, rfl⟩, Offset.ofNat?_eq_some_iff.2 ⟨h, rfl⟩]
  rfl

theorem splits_of_boundaries {source : String} {a b : Nat}
    (hinsert : ∀ offset text, .insert offset text ∈ list.edits → IsBoundary source.toList offset)
    (ha : IsBoundary source.toList a) (hb : IsBoundary source.toList b) (hab : a ≤ b) :
    ∃ x y z, list.Splits source a b x y z := by
  have hi : ∀ i ∈ list.insertions, IsBoundary source.toList i.1 := fun i hi =>
    hinsert i.1 i.2 (insert_mem hi)
  obtain ⟨front, mid, back, hs, rfl, hstop⟩ := exists_parts ha hb hab
  rw [hs] at hi
  obtain ⟨x, hx, hxlength⟩ := @exists_splices_chosen list [] front _ (· < charsLength front) hi
    fun i _ hp => by
      have hlt := of_decide_eq_true hp
      rw [charsLength_nil]
      omega
  obtain ⟨y, hy, hylength⟩ :=
    exists_splices_chosen (p := fun i => charsLength front ≤ i && i ≤ b) hi fun i _ hp => by
      rw [hstop]
      simpa using hp
  have hi' : ∀ i ∈ list.insertions, IsBoundary (front ++ mid ++ (back ++ [])) i.1 := by
    simpa using hi
  obtain ⟨z, hz, -⟩ := exists_splices_chosen (p := (b < ·)) hi' fun i hmem hp => by
    have hlt := of_decide_eq_true hp
    have hle := (hi' i hmem).le
    simp only [charsLength_append, charsLength_nil] at hle ⊢
    omega
  have hedited : list.edited? source = some (String.ofList (x ++ (y ++ z))) := by
    rw [charsLength_append, hstop] at hz
    have hall := hx.append_blankChars (hy.append_blankChars hz hstop.symm) (Nat.zero_add _).symm
    rw [edited?_eq, hs, ← list.chosen_append hab]
    exact congrArg (Option.map String.ofList) hall.splice?_eq
  have hxy : charsLength (x ++ y) = list.mapStop b := by
    have hsplit : list.insertedLength (· ≤ b) = list.insertedLength (· < charsLength front) +
        list.insertedLength fun i => charsLength front ≤ i && i ≤ b :=
      insertedLength_or fun i _ => by
        simp only [decide_eq_true_eq, Bool.and_eq_true]
        omega
    rw [charsLength_append, hxlength, hylength, mapStop, hsplit, ← hstop]
    omega
  refine ⟨x, y, z, {
    edited := hedited
    start := hxlength
    stop := hxy
    parts := ⟨front, mid, back, hs, rfl, by rw [charsLength_append, hstop],
      rewrites_of_splices hx, rewrites_of_splices hy,
      rewrites_of_splices (by rwa [charsLength_append, hstop] at hz)⟩
    mapped := fun hbound => ?_ }⟩
  have hlt : list.mapStop b < Offset.bound := by
    rw [← List.append_assoc, charsLength_append, hxy] at hbound
    omega
  rw [mapped?_eq_some (Nat.lt_of_le_of_lt (list.mapStop_mono hab) hlt), mapped?_eq_some hlt, hxy]
  exact ⟨congrArg some hxlength.symm, rfl⟩

/-- A text falls apart in one way at a number of bytes. -/
theorem eq_of_append_eq {as bs cs ds : List Char} (h : as ++ bs = cs ++ ds)
    (hlength : charsLength as = charsLength cs) : as = cs ∧ bs = ds := by
  have hcut : ∀ front back : List Char, cut? (charsLength front) (front ++ back) =
      some (front, back) := fun front back => by
    simpa [cut?] using cut?_append front back 0
  have heq := hcut as bs
  rw [h, hlength, hcut] at heq
  cases heq
  exact ⟨rfl, rfl⟩

/-- A blanked stretch with two insertions at its start, one at its end and one in front of it. -/
theorem exists_splits :
    let list : EditList :=
      ⟨[.insert 1 "<b>", .blank ⟨0, 4⟩, .insert 4 "<d>", .insert 1 "<c>", .insert 0 "<a>"]⟩
    (∀ offset text, .insert offset text ∈ list.edits → IsBoundary "aé\nbc".toList offset) ∧
      list.Splits "aé\nbc" 1 4 "<a> ".toList "<b><c>  \n<d>".toList "bc".toList := by
  intro list
  have hzero : IsBoundary "aé\nbc".toList 0 := ⟨[], "aé\nbc".toList, rfl, rfl⟩
  have hone : IsBoundary "aé\nbc".toList 1 := ⟨['a'], ['é', '\n', 'b', 'c'], rfl, rfl⟩
  have hfour : IsBoundary "aé\nbc".toList 4 := ⟨['a', 'é', '\n'], ['b', 'c'], rfl, rfl⟩
  have hinsert : ∀ offset text, .insert offset text ∈ list.edits →
      IsBoundary "aé\nbc".toList offset := by
    intro offset text h
    simp only [list, List.mem_cons, Edit.insert.injEq, reduceCtorEq, List.not_mem_nil, or_false,
      false_or] at h
    rcases h with ⟨rfl, -⟩ | ⟨rfl, -⟩ | ⟨rfl, -⟩ | ⟨rfl, -⟩
    exacts [hone, hfour, hone, hzero]
  obtain ⟨x, y, z, h⟩ := splits_of_boundaries hinsert hone hfour (by decide)
  have htext : x ++ (y ++ z) = "<a> ".toList ++ ("<b><c>  \n<d>".toList ++ "bc".toList) := by
    have hedited := h.edited
    rw [edited?_eq_woven fun i hi => hinsert i.1 i.2 (insert_mem hi)] at hedited
    rw [← String.ofList_injective (Option.some.inj hedited)]
    decide +kernel
  obtain ⟨rfl, hrest⟩ := eq_of_append_eq htext (h.start.trans (by decide +kernel))
  have hy : charsLength y = charsLength "<b><c>  \n<d>".toList := by
    have hstop : charsLength ("<a> ".toList ++ y) = 16 := h.stop.trans (by decide +kernel)
    rw [charsLength_append] at hstop
    exact Nat.add_left_cancel (hstop.trans (by decide +kernel))
  obtain ⟨rfl, rfl⟩ := eq_of_append_eq hrest hy
  exact ⟨hinsert, h⟩

end EditList

end BindlessHlsl
