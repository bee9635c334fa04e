import BindlessHlsl.Proofs.EditSplits

/-!
The order in which edits are added matters only among the insertions at one offset. Two lists that
blank the same bytes of a text and insert the same texts in the same order at each offset
(`EditList.SameChanges`) arrange their insertions alike (`EditList.Arranges.unique`) and overwrite
the same characters, so they edit the text alike and move every offset alike.
-/

namespace BindlessHlsl

open Utf8

namespace EditList

variable {l m : EditList} {source : String}

/-- Both lists ask for the same changes of a text. How the ranges that they blank are divided,
whether these overlap or reach past the end, and in which order the edits come, is left open. -/
structure SameChanges (source : String) (l m : EditList) : Prop where
  blanked : ∀ offset < length source, l.blanks offset = m.blanks offset
  inserted : ∀ offset, (l.insertions.filter fun i => i.1 == offset) =
    m.insertions.filter fun i => i.1 == offset

/-! ## Arranged insertions -/

theorem mem_of_filter_eq {as bs : List (Nat × String)} {i : Nat × String}
    (h : (as.filter fun j => j.1 == i.1) = bs.filter fun j => j.1 == i.1) (hi : i ∈ as) :
    i ∈ bs := by
  have hmem : i ∈ as.filter fun j => j.1 == i.1 := List.mem_filter.2 ⟨hi, beq_self_eq_true _⟩
  rw [h] at hmem
  exact (List.mem_filter.1 hmem).1

/-- Lists that are sorted by offset are equal if they have the same insertions at each offset. -/
theorem eq_of_filter_eq {as bs : List (Nat × String)} (ha : as.Pairwise fun i j => i.1 ≤ j.1)
    (hb : bs.Pairwise fun i j => i.1 ≤ j.1)
    (h : ∀ offset, (as.filter fun i => i.1 == offset) = bs.filter fun i => i.1 == offset) :
    as = bs := by
  induction as generalizing bs with
  | nil =>
    refine (List.eq_nil_iff_forall_not_mem.2 fun i hi => ?_).symm
    exact List.not_mem_nil (mem_of_filter_eq (h i.1).symm hi)
  | cons i as ih =>
    cases bs with
    | nil => exact absurd (mem_of_filter_eq (h i.1) List.mem_cons_self) List.not_mem_nil
    | cons j bs =>
      obtain ⟨hi, has⟩ := List.pairwise_cons.1 ha
      obtain ⟨hj, hbs⟩ := List.pairwise_cons.1 hb
      -- Each head is found in the other list, so neither comes later than the other.
      have hji : j.1 ≤ i.1 := by
        rcases List.mem_cons.1 (mem_of_filter_eq (h i.1) List.mem_cons_self) with rfl | hmem
        · exact Nat.le_refl _
        · exact hj i hmem
      have hij : i.1 ≤ j.1 := by
        rcases List.mem_cons.1 (mem_of_filter_eq (h j.1).symm List.mem_cons_self) with rfl | hmem
        · exact Nat.le_refl _
        · exact hi j hmem
      have hkey : i.1 = j.1 := Nat.le_antisymm hij hji
      obtain ⟨rfl, htails⟩ : i = j ∧
          (as.filter fun k => k.1 == j.1) = bs.filter fun k => k.1 == j.1 := by
        simpa [hkey] using h i.1
      refine congrArg (i :: ·) (ih has hbs fun offset => ?_)
      by_cases ho : i.1 = offset
      · subst ho
        exact htails
      · simpa [ho] using h offset

/-- There is one arrangement of insertions, and it depends only on those at each offset. -/
theorem Arranges.unique {as bs added added' : List (Nat × String)} (ha : Arranges as added)
    (hb : Arranges bs added')
    (h : ∀ offset, (added.filter fun i => i.1 == offset) = added'.filter fun i => i.1 == offset) :
    as = bs :=
  eq_of_filter_eq ha.sorted hb.sorted fun offset =>
    (ha.stable offset).trans ((h offset).trans (hb.stable offset).symm)

theorem arranges_sortedInsertions (list : EditList) :
    Arranges list.sortedInsertions list.insertions :=
  ⟨list.pairwise_sortedInsertions, list.filter_sortedInsertions⟩

/-! ## Lists that ask for the same changes -/

/-- Characters are overwritten alike where the same bytes are blanked. -/
theorem blankChars_congr {offset : Nat} {cs : List Char}
    (h : ∀ place, place < offset + charsLength cs → l.blanks place = m.blanks place) :
    l.blankChars offset cs = m.blankChars offset cs := by
  rw [← woven_nil, ← woven_nil]
  exact woven_congr fun place _ hplace => ⟨h place hplace, rfl⟩

namespace SameChanges

theorem sortedInsertions_eq (h : SameChanges source l m) :
    l.sortedInsertions = m.sortedInsertions :=
  l.arranges_sortedInsertions.unique m.arranges_sortedInsertions h.inserted

theorem perm_insertions (h : SameChanges source l m) : l.insertions.Perm m.insertions :=
  (List.mergeSort_perm ..).symm.trans
    ((List.Perm.of_eq h.sortedInsertions_eq).trans (List.mergeSort_perm ..))

theorem insertedLength_eq (h : SameChanges source l m) (p : Nat → Bool) :
    l.insertedLength p = m.insertedLength p :=
  (h.perm_insertions.filter _).foldr_eq'
    (fun i _ j _ n => Nat.add_left_comm (length j.2) (length i.2) n) 0

end SameChanges

/-- Two lists edit a text alike, or neither does, and every offset comes to lie at the same
places. -/
structure EditsAlike (source : String) (l m : EditList) : Prop where
  edited : l.edited? source = m.edited? source
  start : ∀ offset, l.mapStart offset = m.mapStart offset
  stop : ∀ offset, l.mapStop offset = m.mapStop offset
  mapped : ∀ offset, l.mapped? offset = m.mapped? offset

theorem editsAlike_of_sameChanges (h : SameChanges source l m) : EditsAlike source l m := by
  have hstart : ∀ offset, l.mapStart offset = m.mapStart offset := fun offset => by
    rw [mapStart, mapStart, h.insertedLength_eq]
  have hstop : ∀ offset, l.mapStop offset = m.mapStop offset := fun offset => by
    rw [mapStop, mapStop, h.insertedLength_eq]
  have hblank : l.blankChars 0 source.toList = m.blankChars 0 source.toList := by
    refine blankChars_congr fun place hplace => h.blanked place ?_
    rwa [Nat.zero_add, ← length_eq_charsLength] at hplace
  refine ⟨?_, hstart, hstop, fun offset => ?_⟩
  · rw [edited?_eq, edited?_eq, hblank, h.sortedInsertions_eq]
  · rw [mapped?, mapped?, hstart, hstop]

/-- One range against four, two of which start in a character or past the end. The insertions come
in another order, one of them inside a blanked character and two past the end. -/
theorem exists_editsAlike :
    let l : EditList := ⟨[.blank ⟨0, 3⟩, .insert 2 "<b>", .insert 9 "<d>", .insert 2 "<c>",
      .insert 7 "<a>"]⟩
    let m : EditList := ⟨[.insert 7 "<a>", .insert 2 "<b>", .blank ⟨2, 3⟩, .insert 2 "<c>",
      .blank ⟨0, 2⟩, .blank ⟨1, 3⟩, .insert 9 "<d>", .blank ⟨6, 99⟩]⟩
    SameChanges "aé\nbc" l m ∧ EditsAlike "aé\nbc" l m := by
  intro l m
  have hsame : SameChanges "aé\nbc" l m := by
    refine ⟨by decide +kernel, fun offset => ?_⟩
    by_cases h2 : 2 = offset
    · subst h2
      decide +kernel
    · by_cases h7 : 7 = offset
      · subst h7
        decide +kernel
      · by_cases h9 : 9 = offset
        · subst h9
          decide +kernel
        · simp [l, m, insertions, h2, h7, h9]
  exact ⟨hsame, editsAlike_of_sameChanges hsame⟩

end EditList

end BindlessHlsl
