import BindlessHlsl.Utf8
import BindlessHlsl.Lexeme

/-!
Looking for a word finds it exactly if it occurs as a whole word (`WordSearch.contains_iff_occurs`).
The search tries matches from left to right, each past the end of the one before
(`WordSearch.tried`), and so it passes over occurrences that overlap one that it tried. It misses
nothing by that (`WordSearch.WholeAt.mem_tried`): such an occurrence has a byte of the word in front
of it, which is a letter, digit or underscore.
-/

namespace BindlessHlsl.WordSearch

open Ascii

/-- A word occurs in a text with nothing next to it that would extend it. -/
def Occurs (word text : List UInt8) : Prop :=
  ∃ front back, text = front ++ (word ++ back) ∧
    (∀ b, front.getLast? = some b → isIdentifierContinue b = false) ∧
    ∀ b, back.head? = some b → isIdentifierContinue b = false

theorem extends?_eq_false {neighbour : Option UInt8} :
    extends? neighbour = false ↔ ∀ b, neighbour = some b → isIdentifierContinue b = false := by
  cases neighbour <;> simp [extends?]

theorem occurs_iff_exists_take {word text : List UInt8} :
    Occurs word text ↔ ∃ n ∈ List.range (text.length + 1), word <+: text.drop n ∧
      extends? (text.take n).getLast? = false ∧
      extends? (text.drop (n + word.length)).head? = false := by
  simp only [extends?_eq_false]
  constructor
  · rintro ⟨front, back, rfl, hf, hb⟩
    have hn : front.length ∈ List.range ((front ++ (word ++ back)).length + 1) := by
      rw [List.mem_range, List.length_append]
      omega
    refine ⟨front.length, hn, ⟨back, by simp⟩, by simpa using hf, ?_⟩
    rw [← List.drop_drop]
    simpa using hb
  · rintro ⟨n, _, ⟨back, he⟩, hf, hb⟩
    refine ⟨text.take n, back, by rw [he, List.take_append_drop], hf, ?_⟩
    rwa [← List.drop_drop, ← he, List.drop_left] at hb

instance (word text : List UInt8) : Decidable (Occurs word text) :=
  decidable_of_iff _ occurs_iff_exists_take.symm

/-- A word stands at an offset of a text, and neither the byte in front of it nor the byte behind it
would extend it. -/
structure WholeAt (word text : List UInt8) (offset : Nat) : Prop where
  isPrefix : word <+: text.drop offset
  before : ∀ place b, offset = place + 1 → text[place]? = some b → isIdentifierContinue b = false
  after : ∀ b, text[offset + word.length]? = some b → isIdentifierContinue b = false

variable {word text front : List UInt8} {offset skip place : Nat}

theorem wholeAt_append : WholeAt word (front ++ text) front.length ↔
    word <+: text ∧ extends? front.getLast? = false ∧
      extends? (text.drop word.length).head? = false := by
  have hlast : ∀ place, front.length = place + 1 →
      (front ++ text)[place]? = front.getLast? := by
    intro place hplace
    rw [List.getElem?_append_left (by omega), List.getLast?_eq_getElem?, hplace,
      Nat.add_sub_cancel]
  have hnext : (front ++ text)[front.length + word.length]? = (text.drop word.length).head? := by
    rw [List.getElem?_append_right (Nat.le_add_right ..), Nat.add_sub_cancel_left,
      List.head?_drop]
  rw [extends?_eq_false, extends?_eq_false]
  constructor
  · rintro ⟨hp, hb, ha⟩
    rw [List.drop_left] at hp
    rw [hnext] at ha
    refine ⟨hp, fun b hlb => ?_, ha⟩
    obtain ⟨place, hplace⟩ : ∃ place, front.length = place + 1 :=
      Nat.exists_eq_add_one.2 (List.length_pos_of_mem (List.mem_of_getLast? hlb))
    exact hb place b hplace ((hlast place hplace).trans hlb)
  · rintro ⟨hp, hb, ha⟩
    refine ⟨by rwa [List.drop_left], fun place b hplace hpb => ?_, by rwa [hnext]⟩
    exact hb b ((hlast place hplace).symm.trans hpb)

/-! ## The matches that are tried -/

/-- Offsets of the matches in a text that begins at an offset. The search goes on past a match, so
that some bytes are skipped. -/
def matchesFrom (word : List UInt8) : Nat → Nat → List UInt8 → List Nat
  | _, _, [] => []
  | offset, skip + 1, _ :: rest => matchesFrom word (offset + 1) skip rest
  | offset, 0, b :: rest =>
    if word.isPrefixOf (b :: rest) then
      offset :: matchesFrom word (offset + 1) (word.length - 1) rest
    else matchesFrom word (offset + 1) 0 rest

/-- The offsets at which a search for a word finds it, whole or not. -/
def tried (word text : List UInt8) : List Nat := matchesFrom word 0 0 text

theorem matchesFrom_drop (offset skip : Nat) (text : List UInt8) :
    matchesFrom word offset skip text = matchesFrom word (offset + skip) 0 (text.drop skip) := by
  induction skip generalizing offset text with
  | zero => rfl
  | succ skip ih =>
    cases text with
    | nil => rfl
    | cons b rest =>
      rw [matchesFrom, ih, List.drop_succ_cons]
      congr 1
      omega

theorem matchesFrom_of_isPrefixOf {b : UInt8} {rest : List UInt8} (hw : word ≠ [])
    (h : word.isPrefixOf (b :: rest) = true) :
    matchesFrom word offset 0 (b :: rest) =
      offset :: matchesFrom word (offset + word.length) 0 (rest.drop (word.length - 1)) := by
  have hlength := List.length_pos_iff.2 hw
  rw [matchesFrom, if_pos h, matchesFrom_drop]
  congr 2
  omega

theorem le_of_mem_matchesFrom (h : place ∈ matchesFrom word offset skip text) :
    offset + skip ≤ place := by
  fun_induction matchesFrom word offset skip text with
  | case1 => cases h
  | case2 offset skip b rest ih =>
    have := ih h
    omega
  | case3 offset b rest hp ih =>
    rcases List.mem_cons.1 h with rfl | h
    · exact Nat.le_refl _
    · have := ih h
      omega
  | case4 offset b rest hp ih =>
    have := ih h
    omega

theorem drop_cons_sub {b : UInt8} {rest : List UInt8} (h : offset < place) :
    (b :: rest).drop (place - offset) = rest.drop (place - (offset + 1)) := by
  rw [show place - offset = place - (offset + 1) + 1 by omega, List.drop_succ_cons]

theorem isPrefix_of_mem_matchesFrom (h : place ∈ matchesFrom word offset skip text) :
    word <+: text.drop (place - offset) := by
  fun_induction matchesFrom word offset skip text with
  | case1 => cases h
  | case2 offset skip b rest ih =>
    have hle := le_of_mem_matchesFrom h
    rw [drop_cons_sub (by omega)]
    exact ih h
  | case3 offset b rest hp ih =>
    rcases List.mem_cons.1 h with rfl | h
    · rw [Nat.sub_self]
      exact List.isPrefixOf_iff_prefix.1 hp
    · have hle := le_of_mem_matchesFrom h
      rw [drop_cons_sub (by omega)]
      exact ih h
  | case4 offset b rest hp ih =>
    have hle := le_of_mem_matchesFrom h
    rw [drop_cons_sub (by omega)]
    exact ih h

theorem pairwise_matchesFrom (word : List UInt8) (offset skip : Nat) (text : List UInt8) :
    (matchesFrom word offset skip text).Pairwise fun a b => a + word.length ≤ b := by
  fun_induction matchesFrom word offset skip text with
  | case1 => exact .nil
  | case2 offset skip b rest ih => exact ih
  | case3 offset b rest hp ih =>
    refine List.pairwise_cons.2 ⟨fun place hplace => ?_, ih⟩
    have := le_of_mem_matchesFrom hplace
    omega
  | case4 offset b rest hp ih => exact ih

/-- Every occurrence begins in a match that is tried. -/
theorem exists_mem_matchesFrom {start : Nat} (hw : word ≠ []) (hle : offset + skip ≤ start)
    (h : word <+: text.drop (start - offset)) :
    ∃ place ∈ matchesFrom word offset skip text, place ≤ start ∧ start < place + word.length := by
  have hlength := List.length_pos_iff.2 hw
  fun_induction matchesFrom word offset skip text with
  | case1 =>
    rw [List.drop_nil, List.prefix_nil] at h
    exact absurd h hw
  | case2 offset skip b rest ih =>
    rw [drop_cons_sub (by omega)] at h
    exact ih (by omega) h
  | case3 offset b rest hp ih =>
    by_cases hlt : start < offset + word.length
    · exact ⟨offset, List.mem_cons_self, hle, hlt⟩
    · rw [drop_cons_sub (by omega)] at h
      obtain ⟨place, hplace, hbounds⟩ := ih (by omega) h
      exact ⟨place, List.mem_cons_of_mem _ hplace, hbounds⟩
  | case4 offset b rest hp ih =>
    rw [Nat.add_zero] at hle
    rcases Nat.eq_or_lt_of_le hle with rfl | hlt
    · rw [Nat.sub_self] at h
      exact absurd (List.isPrefixOf_iff_prefix.2 h) hp
    · rw [drop_cons_sub hlt] at h
      exact ih hlt h

theorem exists_mem_tried (hw : word ≠ []) (h : word <+: text.drop offset) :
    ∃ place ∈ tried word text, place ≤ offset ∧ offset < place + word.length :=
  exists_mem_matchesFrom hw (Nat.zero_le offset) h

theorem exists_mem_of_isPrefix {n : Nat} (h : word <+: text.drop place) (hle : place ≤ n)
    (hlt : n < place + word.length) : ∃ b ∈ word, text[n]? = some b := by
  obtain ⟨back, hback⟩ := h
  obtain ⟨i, rfl⟩ := Nat.exists_eq_add_of_le hle
  have hi : i < word.length := by omega
  refine ⟨word[i], List.getElem_mem hi, ?_⟩
  rw [← List.getElem?_drop, ← hback, List.getElem?_append_left hi, List.getElem?_eq_getElem hi]

/-- A whole word is among the matches that are tried. -/
theorem WholeAt.mem_tried (hi : ∀ b ∈ word, isIdentifierContinue b = true) (hw : word ≠ [])
    (h : WholeAt word text offset) : offset ∈ tried word text := by
  obtain ⟨place, hplace, hle, hlt⟩ := exists_mem_tried hw h.isPrefix
  rcases Nat.eq_or_lt_of_le hle with rfl | hbefore
  · exact hplace
  · -- The byte in front of the offset is one of the match, and so one of the word.
    obtain ⟨n, rfl⟩ : ∃ n, offset = n + 1 := Nat.exists_eq_add_one.2 (by omega)
    obtain ⟨b, hb, hbyte⟩ := exists_mem_of_isPrefix (isPrefix_of_mem_matchesFrom hplace)
      (Nat.le_of_lt_succ hbefore) (Nat.lt_of_succ_lt hlt)
    have hfalse := h.before n b rfl hbyte
    rw [hi b hb] at hfalse
    cases hfalse

/-! ## The search -/

theorem eq_append_of_isPrefixOf {b : UInt8} {rest : List UInt8} (hw : word ≠ [])
    (h : word.isPrefixOf (b :: rest) = true) :
    b :: rest = word ++ rest.drop (word.length - 1) := by
  obtain ⟨back, he⟩ := List.isPrefixOf_iff_prefix.1 h
  cases word with
  | nil => exact absurd rfl hw
  | cons d word =>
    obtain ⟨rfl, rfl⟩ := List.cons.inj he
    simp

/-- The search succeeds if one of the matches that it tries is a whole word. -/
theorem findAfter_iff {previous : Option UInt8} (front : List UInt8) (hw : word ≠ [])
    (hp : front.getLast? = previous) :
    findAfter word previous text = true ↔
      ∃ place ∈ matchesFrom word front.length 0 text, WholeAt word (front ++ text) place := by
  revert front
  fun_induction findAfter word previous text with
  | case1 previous => simp [matchesFrom]
  | case2 previous b rest hprefix behind hwhole =>
    intro front hp
    obtain ⟨hbefore, hbehind⟩ : extends? previous = false ∧
        extends? behind.head? = false := by simpa using hwhole
    rw [matchesFrom_of_isPrefixOf hw hprefix, eq_append_of_isPrefixOf hw hprefix]
    refine ⟨fun _ => ⟨front.length, List.mem_cons_self, wholeAt_append.2 ?_⟩, fun _ => rfl⟩
    rw [List.drop_left, hp]
    exact ⟨List.prefix_append .., hbefore, hbehind⟩
  | case3 previous b rest hprefix behind hwhole ih =>
    intro front hp
    have hlast : (front ++ word).getLast? = word.getLast?.or (some b) := by
      obtain ⟨d, hd⟩ := Option.isSome_iff_exists.1 (List.getLast?_isSome.2 hw)
      rw [List.getLast?_append, hd]
      rfl
    have hnot : ¬WholeAt word (front ++ (word ++ behind)) front.length := by
      rw [wholeAt_append, List.drop_left, hp]
      exact fun h => hwhole (by simp [h.2])
    rw [ih (front ++ word) hlast, matchesFrom_of_isPrefixOf hw hprefix,
      eq_append_of_isPrefixOf hw hprefix, List.length_append, List.append_assoc]
    simp only [List.mem_cons, exists_eq_or_imp]
    exact (or_iff_right hnot).symm
  | case4 previous b rest hprefix ih =>
    intro front hp
    rw [ih (front ++ [b]) List.getLast?_concat, matchesFrom, if_neg hprefix, List.length_append,
      List.append_assoc]
    rfl

theorem contains_iff_tried (hw : word ≠ []) :
    contains word text = true ↔ ∃ place ∈ tried word text, WholeAt word text place :=
  findAfter_iff [] hw rfl

theorem contains_iff_exists_wholeAt (hi : ∀ b ∈ word, isIdentifierContinue b = true)
    (hw : word ≠ []) : contains word text = true ↔ ∃ offset, WholeAt word text offset := by
  rw [contains_iff_tried hw]
  constructor
  · rintro ⟨offset, -, h⟩
    exact ⟨offset, h⟩
  · rintro ⟨offset, h⟩
    exact ⟨offset, h.mem_tried hi hw, h⟩

theorem occurs_iff_exists_wholeAt (hw : word ≠ []) :
    Occurs word text ↔ ∃ offset, WholeAt word text offset := by
  constructor
  · rintro ⟨front, back, rfl, hf, hb⟩
    refine ⟨front.length, wholeAt_append.2 ⟨List.prefix_append .., extends?_eq_false.2 hf, ?_⟩⟩
    rw [List.drop_left]
    exact extends?_eq_false.2 hb
  · rintro ⟨offset, h⟩
    have hle : offset ≤ text.length := by
      have hprefix := h.isPrefix.length_le
      have hlength := List.length_pos_iff.2 hw
      rw [List.length_drop] at hprefix
      omega
    obtain ⟨front, rest, rfl, rfl⟩ : ∃ front rest, text = front ++ rest ∧ front.length = offset :=
      ⟨text.take offset, text.drop offset, by simp, by simp [hle]⟩
    obtain ⟨⟨back, rfl⟩, hf, hb⟩ := wholeAt_append.1 h
    rw [List.drop_left] at hb
    exact ⟨front, back, rfl, extends?_eq_false.1 hf, extends?_eq_false.1 hb⟩

theorem contains_iff_occurs (hi : ∀ b ∈ word, isIdentifierContinue b = true) (hw : word ≠ []) :
    contains word text = true ↔ Occurs word text := by
  rw [contains_iff_exists_wholeAt hi hw, occurs_iff_exists_wholeAt hw]

/-- What a search for a word finds. The matches that it tries are occurrences that do not overlap,
and every occurrence overlaps one of them or is one. That one of them is a whole word is the same as
that there is a whole word at all. -/
structure FindsWords (word text : List UInt8) : Prop where
  isPrefix : ∀ place ∈ tried word text, word <+: text.drop place
  apart : (tried word text).Pairwise fun a b => a + word.length ≤ b
  exists_tried : ∀ offset, word <+: text.drop offset →
    ∃ place ∈ tried word text, place ≤ offset ∧ offset < place + word.length
  contains_iff_tried : contains word text = true ↔
    ∃ offset ∈ tried word text, WholeAt word text offset
  contains_iff : contains word text = true ↔ ∃ offset, WholeAt word text offset

theorem findsWords_of_identifier (word text : List UInt8)
    (hi : ∀ b ∈ word, isIdentifierContinue b = true) (hw : word ≠ []) : FindsWords word text where
  isPrefix _ h := isPrefix_of_mem_matchesFrom h
  apart := pairwise_matchesFrom ..
  exists_tried _ h := exists_mem_tried hw h
  contains_iff_tried := contains_iff_tried hw
  contains_iff := contains_iff_exists_wholeAt hi hw

/-- The occurrence at offset 2 is passed over, as it overlaps the one at offset 0. -/
theorem findsWords_overlapping :
    let word := Utf8.encode "a_a"
    let text := Utf8.encode "a_a_a(a_a)"
    (∀ b ∈ word, isIdentifierContinue b = true) ∧ word ≠ [] ∧ FindsWords word text ∧
      word <+: text.drop 2 ∧ tried word text = [0, 6] ∧ contains word text = true := by
  intro word text
  have hi : ∀ b ∈ word, isIdentifierContinue b = true := List.all_eq_true.1 rfl
  have hw : word ≠ [] := by decide
  exact ⟨hi, hw, findsWords_of_identifier word text hi hw, by decide, by decide,
    (contains_iff_occurs hi hw).2 (by decide)⟩

end BindlessHlsl.WordSearch
