import BindlessHlsl.Struct.Reader
import Mathlib.Algebra.Ring.Nat

/-!
Sizes of structs as numbers. A size in words is computed by a chain of products and sums, each of
which may have no result. For members that were read from a text, whose dimensions are small
(`Struct.shaped_of_read`), the chain has a result exactly if the number at its end is a word
(`Struct.size?_eq`).
-/

namespace BindlessHlsl

/-! ## Dimensions -/

/-- A type with dimensions that can be written. -/
structure MemberType.Shaped (t : MemberType) : Prop where
  rows_le : t.rows ≤ 4
  columns_le : t.columns ≤ 4

namespace MemberType

theorem shaped_unknownStruct : unknownStruct.Shaped := ⟨by decide, by decide⟩

/-- A number that can be written as a dimension. -/
def IsExtent (n : UInt32) : Prop := 1 ≤ n ∧ n ≤ 4

theorem isExtent_of_dimension? {chars : List Char} {n : UInt32} (h : dimension? chars = some n) :
    IsExtent n := by
  obtain ⟨_, hn⟩ := Option.filter_eq_some_iff.1 h
  simp only [Bool.and_eq_true, decide_eq_true_eq] at hn
  exact hn

theorem isExtent_of_shape? {chars : List Char} {rows columns : UInt32}
    (h : shape? chars = some (rows, columns)) : IsExtent rows ∧ IsExtent columns := by
  have hone : IsExtent 1 := ⟨by decide, by decide⟩
  unfold shape? at h
  split at h
  · cases h
    exact ⟨hone, hone⟩
  · split at h
    · obtain ⟨n, hn, he⟩ := Option.map_eq_some_iff.1 h
      cases he
      exact ⟨isExtent_of_dimension? hn, hone⟩
    · simp only [Option.bind_eq_bind, Option.bind_eq_some_iff] at h
      obtain ⟨r, hr, c, hc, he⟩ := h
      cases he
      exact ⟨isExtent_of_dimension? hr, isExtent_of_dimension? hc⟩

theorem isExtent_of_ofWord? {word : String} {t : MemberType} (h : ofWord? word = some t) :
    IsExtent t.rows ∧ IsExtent t.columns := by
  unfold ofWord? at h
  split at h
  · cases h
    exact ⟨⟨by decide, by decide⟩, by decide, by decide⟩
  · obtain ⟨spelling, _, h⟩ := List.exists_of_findSome?_eq_some h
    unfold withSpelling? at h
    split at h
    · obtain ⟨⟨rows, columns⟩, hs, he⟩ := Option.map_eq_some_iff.1 h
      cases he
      exact isExtent_of_shape? hs
    · cases h

theorem shaped_of_ofWord? {word : String} {t : MemberType} (h : ofWord? word = some t) :
    t.Shaped :=
  ⟨(isExtent_of_ofWord? h).1.2, (isExtent_of_ofWord? h).2.2⟩

end MemberType

namespace Struct

theorem shaped_of_matrixType? {arguments : String} {t : MemberType}
    (h : matrixType? arguments = some t) : t.Shaped := by
  unfold matrixType? at h
  split at h
  · simp only [Option.bind_eq_bind, Option.bind_eq_some_iff, Option.filter_eq_some_iff] at h
    obtain ⟨_, _, ⟨rows, _⟩, ⟨hr, _⟩, ⟨columns, _⟩, ⟨hc, _⟩, he⟩ := h
    cases he
    exact ⟨(MemberType.isExtent_of_shape? hr).1.2, (MemberType.isExtent_of_shape? hc).1.2⟩
  · cases h

theorem shaped_of_readType {c d : Cursor} {t : MemberType} (h : readType c = .ok (t, d)) :
    t.Shaped := by
  simp only [readType, Reading.bind_eq_ok] at h
  obtain ⟨⟨typeName, next⟩, _, h⟩ := h
  dsimp only at h
  split at h
  · simp only [readGeneric, Reading.bind_eq_ok] at h
    obtain ⟨last, _, h⟩ := h
    split at h
    · split at h
      next hm =>
        cases h
        exact shaped_of_matrixType? hm
      next => cases h
    · cases h
      exact MemberType.shaped_unknownStruct
  · cases h
    cases ht : MemberType.ofWord? typeName with
    | none => exact MemberType.shaped_unknownStruct
    | some t => exact MemberType.shaped_of_ofWord? ht

theorem shaped_of_readMember {c d : Cursor} {m : Member} (h : readMember c = .ok (some m, d)) :
    m.type.Shaped := by
  simp only [readMember, Reading.bind_eq_ok] at h
  obtain ⟨⟨type, c₁⟩, h₁, ⟨name, c₂⟩, _, h⟩ := h
  dsimp only at h
  split at h
  · simp only [Reading.bind_eq_ok] at h
    obtain ⟨_, _, h⟩ := h
    cases h
  · simp only [readData, Reading.bind_eq_ok] at h
    obtain ⟨⟨m', next⟩, ⟨_, _, stop, _, hm⟩, h⟩ := h
    cases hm
    cases h
    exact shaped_of_readType h₁

theorem shaped_of_readMembers {read members : List Member} {c d : Cursor}
    (h : readMembers read c = .ok (members, d)) (hread : ∀ m ∈ read, m.type.Shaped) :
    ∀ m ∈ members, m.type.Shaped := by
  fun_induction readMembers read c with
  | case1 => cases h
  | case2 read c =>
    cases h
    intro m hm
    exact hread m (List.mem_reverse.1 hm)
  | case3 => cases h
  | case4 read c _ _ _ member next hm _ ih =>
    refine ih h fun m hmem => ?_
    rcases List.mem_append.1 hmem with hmem | hmem
    · obtain rfl := Option.mem_toList.1 hmem
      exact shaped_of_readMember hm
    · exact hread m hmem

theorem shaped_of_read {c d : Cursor} {definition : Definition}
    (h : read c = .ok (some definition, d)) : ∀ m ∈ definition.members, m.type.Shaped := by
  unfold read at h
  dsimp only at h
  split at h
  · cases h
  · simp only [Reading.bind_eq_ok] at h
    obtain ⟨⟨members, last⟩, hm, h⟩ := h
    cases h
    exact shaped_of_readMembers hm nofun

end Struct

/-! ## Sizes as numbers -/

/-- Bytes of a member. -/
def Member.exactSize (m : Member) : Nat :=
  m.type.scalar.width.toNat * m.type.rows.toNat * m.type.columns.toNat *
    (m.arrayLength.getD 1).toNat

/-- Bytes of a struct. -/
def Struct.exactSize (s : Struct) : Nat := (s.members.map Member.exactSize).sum

namespace Word

theorem ofNat?_eq_some {n : Nat} (h : n < bound) : ofNat? n = some n.toUInt32 := if_pos h

theorem ofNat?_eq_none {n : Nat} (h : bound ≤ n) : ofNat? n = none := if_neg (Nat.not_lt.2 h)

theorem toNat_toUInt32 {n : Nat} (h : n < bound) : n.toUInt32.toNat = n := Nat.mod_eq_of_lt h

end Word

theorem Scalar.width_le (s : Scalar) : s.width.toNat ≤ 8 := by cases s <;> decide

/-- The products in front of the array length stay small, so that the last product decides. -/
theorem Member.size?_eq {m : Member} (h : m.type.Shaped) :
    m.size? = Word.ofNat? m.exactSize := by
  have hw := m.type.scalar.width_le
  have hr : m.type.rows.toNat ≤ 4 := UInt32.le_iff_toNat_le.1 h.rows_le
  have hc : m.type.columns.toNat ≤ 4 := UInt32.le_iff_toNat_le.1 h.columns_le
  have hrow : m.type.scalar.width.toNat * m.type.rows.toNat ≤ 8 * 4 := Nat.mul_le_mul hw hr
  have helement : m.type.scalar.width.toNat * m.type.rows.toNat * m.type.columns.toNat ≤
      8 * 4 * 4 := Nat.mul_le_mul hrow hc
  have hrow' : m.type.scalar.width.toNat * m.type.rows.toNat < Word.bound :=
    Nat.lt_of_le_of_lt hrow (by decide)
  have helement' : m.type.scalar.width.toNat * m.type.rows.toNat * m.type.columns.toNat <
      Word.bound := Nat.lt_of_le_of_lt helement (by decide)
  simp only [size?, Word.mul?, Word.ofNat?_eq_some hrow', Option.bind_eq_bind, Option.bind_some,
    Word.toNat_toUInt32 hrow', Word.ofNat?_eq_some helement', Word.toNat_toUInt32 helement']
  rfl

theorem Word.add?_toUInt32 {a : UInt32} {n : Nat} (h : n < bound) :
    add? a n.toUInt32 = ofNat? (a.toNat + n) := by
  rw [add?, toNat_toUInt32 h]

namespace Struct

theorem foldlM_size?_eq {members : List Member} (h : ∀ m ∈ members, m.type.Shaped)
    (total : UInt32) :
    (do List.foldlM Word.add? total (← members.mapM Member.size?)) =
      Word.ofNat? (total.toNat + (members.map Member.exactSize).sum) := by
  -- Sums only grow: once a product or a partial sum is no word, the total is none either.
  induction members generalizing total with
  | nil => exact (Word.ofNat?_toNat total).symm
  | cons m rest ih =>
    obtain ⟨hm, hrest⟩ := List.forall_mem_cons.1 h
    rw [List.mapM_cons, Member.size?_eq hm, List.map_cons, List.sum_cons, ← Nat.add_assoc]
    by_cases hsize : m.exactSize < Word.bound
    · rw [Word.ofNat?_eq_some hsize]
      simp only [Option.bind_eq_bind, Option.bind_some, Option.pure_def, Option.bind_assoc,
        List.foldlM_cons, Word.add?_toUInt32 hsize]
      by_cases hsum : total.toNat + m.exactSize < Word.bound
      · rw [Word.ofNat?_eq_some hsum]
        have := ih hrest (total.toNat + m.exactSize).toUInt32
        rwa [Word.toNat_toUInt32 hsum] at this
      · rw [Word.ofNat?_eq_none (Nat.not_lt.1 hsum), Word.ofNat?_eq_none (by omega)]
        exact Option.bind_fun_none _
    · rw [Word.ofNat?_eq_none (Nat.not_lt.1 hsize), Word.ofNat?_eq_none (by omega)]
      rfl

theorem size?_eq {s : Struct} (h : ∀ m ∈ s.members, m.type.Shaped) :
    s.size? = Word.ofNat? s.exactSize :=
  (foldlM_size?_eq h 0).trans (congrArg Word.ofNat? (Nat.zero_add _))

end Struct

end BindlessHlsl
