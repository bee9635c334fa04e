import BindlessHlsl.Proofs.JsonRecords
import BindlessHlsl.Proofs.MemberSizes
import BindlessHlsl.Scalar

/-!
Names of primitive types. Where one spelling of a scalar extends another one, what it adds does not
start a shape (`MemberType.excludesShape_of_isPrefix`). So a word has one spelling with a shape
behind it at most, and no other spelling comes in its way (`MemberType.findSome?_eq_some_iff`): how
a word is read does not depend on the order in which spellings are tried (`MemberType.ReadsWord`).
-/

namespace BindlessHlsl

/-! ## Numerals -/

namespace Word

/-- A number in decimal digits. Zeros may stand in front of it. -/
def IsNumeral (text : String) (n : Nat) : Prop :=
  ∃ zeros, text.toList = List.replicate zeros '0' ++ Nat.toDigits 10 n

variable {text : String} {n : Nat}

theorem IsNumeral.isDigit (h : IsNumeral text n) : ∀ c ∈ text.toList, c.isDigit = true := by
  obtain ⟨zeros, hz⟩ := h
  intro c hc
  rw [hz] at hc
  rcases List.mem_append.1 hc with hc | hc
  · exact JsonNumber.isDigit_replicate c hc
  · exact JsonNumber.isDigit_toDigits c hc

theorem IsNumeral.toList_ne_nil (h : IsNumeral text n) : text.toList ≠ [] := by
  obtain ⟨zeros, hz⟩ := h
  rw [hz]
  exact List.append_ne_nil_of_right_ne_nil _ Nat.toDigits_ne_nil

theorem digitsValue_replicate_append (zeros : Nat) (digits : List Char) :
    digitsValue (List.replicate zeros '0' ++ digits) = digitsValue digits := by
  induction zeros with
  | zero => rfl
  | succ zeros ih => exact ih

theorem ofChars?_cons {first : Char} (h : first ≠ '+') (rest : List Char) :
    ofChars? (first :: rest) = if (first :: rest).all Char.isDigit then
      ofNat? (digitsValue (first :: rest)) else none := by
  have hdigits : ofChars? (first :: rest) =
      if (first :: rest).isEmpty || !(first :: rest).all Char.isDigit then none
      else ofNat? (digitsValue (first :: rest)) := by
    unfold ofChars?
    split
    next he => exact absurd (List.cons.inj he).1 h
    next => rfl
  rw [hdigits, List.isEmpty_cons, Bool.false_or]
  cases (first :: rest).all Char.isDigit <;> rfl

theorem ofText?_of_isNumeral {w : UInt32} (h : IsNumeral text w.toNat) : ofText? text = some w := by
  have hvalue : digitsValue text.toList = w.toNat := by
    obtain ⟨zeros, hz⟩ := h
    rw [hz, digitsValue_replicate_append, JsonNumber.digitsValue_toDigits]
  obtain ⟨first, rest, hcons⟩ := List.exists_cons_of_ne_nil h.toList_ne_nil
  have hdigit := h.isDigit
  rw [hcons] at hdigit hvalue
  have hplus : first ≠ '+' := by
    rintro rfl
    exact absurd (hdigit '+' List.mem_cons_self) (by decide)
  rw [ofText?, hcons, ofChars?_cons hplus, if_pos (List.all_eq_true.2 hdigit), hvalue, ofNat?_toNat]

theorem le_foldl_digits (digits : List Char) (n : Nat) :
    n ≤ digits.foldl (fun n d => 10 * n + (d.toNat - '0'.toNat)) n := by
  induction digits generalizing n with
  | nil => exact Nat.le_refl n
  | cons d digits ih => exact Nat.le_trans (Nat.le_trans (by omega) (Nat.le_add_right ..)) (ih _)

/-- A number with more than one digit is at least ten, unless it starts with a zero. -/
theorem ten_le_digitsValue {first : Char} (hf : first.isDigit = true) (hz : first ≠ '0')
    (second : Char) (rest : List Char) : 10 ≤ digitsValue (first :: second :: rest) := by
  have hfirst : '0'.toNat < first.toNat := by
    have hle := (Char.isDigit_iff_toNat.1 hf).1
    exact Nat.lt_of_le_of_ne hle fun he => hz (Char.toNat_inj.1 he.symm)
  have hvalue : digitsValue (first :: second :: rest) =
      rest.foldl (fun n d => 10 * n + (d.toNat - '0'.toNat))
        (10 * (10 * 0 + (first.toNat - '0'.toNat)) + (second.toNat - '0'.toNat)) := rfl
  rw [hvalue]
  refine Nat.le_trans ?_ (le_foldl_digits rest _)
  omega

end Word

/-! ## Shapes -/

namespace MemberType

/-- A dimension as it is written. -/
def IsDimension (text : String) (n : UInt32) : Prop :=
  Word.IsNumeral text n.toNat ∧ 1 ≤ n ∧ n ≤ 4

/-- A shape as it is written, with its rows and columns. -/
inductive IsShape : String → UInt32 → UInt32 → Prop where
  | scalar : IsShape "" 1 1
  | vector {text : String} {rows : UInt32} : IsDimension text rows → IsShape text rows 1
  | matrix {first second : String} {rows columns : UInt32} :
      IsDimension first rows → IsDimension second columns →
      IsShape (first ++ ("x" ++ second)) rows columns

variable {text : String} {n rows columns : UInt32}

theorem dimension?_of_isDimension (h : IsDimension text n) : dimension? text.toList = some n := by
  obtain ⟨hn, hle, hge⟩ := h
  have hword : Word.ofChars? text.toList = some n := Word.ofText?_of_isNumeral hn
  rw [dimension?, hword]
  simp [hle, hge]

theorem IsDimension.takeWhile_eq (h : IsDimension text n) (rest : List Char) :
    (text.toList ++ rest).takeWhile (· != 'x') = text.toList ++ rest.takeWhile (· != 'x') := by
  refine List.takeWhile_append_of_pos fun c hc => bne_iff_ne.2 ?_
  rintro rfl
  exact absurd (h.1.isDigit 'x' hc) (by decide)

theorem IsDimension.dropWhile_eq (h : IsDimension text n) (rest : List Char) :
    (text.toList ++ rest).dropWhile (· != 'x') = rest.dropWhile (· != 'x') := by
  refine List.dropWhile_append_of_pos fun c hc => bne_iff_ne.2 ?_
  rintro rfl
  exact absurd (h.1.isDigit 'x' hc) (by decide)

theorem shape?_of_isShape (h : IsShape text rows columns) :
    shape? text.toList = some (rows, columns) := by
  cases h with
  | scalar => rfl
  | vector h =>
    have hdrop : text.toList.dropWhile (· != 'x') = [] := by
      simpa using h.dropWhile_eq []
    rw [shape?, if_neg (by simpa using h.1.toList_ne_nil), hdrop]
    simp only [dimension?_of_isDimension h, Option.map_some]
  | @matrix first second _ _ hf hs =>
    have htext : (first ++ ("x" ++ second)).toList = first.toList ++ 'x' :: second.toList := by
      simp only [String.toList_append]
      rfl
    rw [htext, shape?, if_neg (by simp), hf.dropWhile_eq, hf.takeWhile_eq]
    simp [dimension?_of_isDimension hf, dimension?_of_isDimension hs]

/-! ## One spelling for each word -/

/-- Whether the first characters exclude that a shape starts here. -/
def excludesShape : List Char → Bool
  | first :: second :: _ => first != '+' && first != '0' && first != 'x' && second != 'x'
  | _ => false

theorem excludesShape_append {chars : List Char} (h : excludesShape chars = true)
    (rest : List Char) : excludesShape (chars ++ rest) = true := by
  unfold excludesShape at h
  split at h
  · exact h
  · cases h

theorem dimension?_eq_none {chars : List Char} (h : excludesShape chars = true) :
    dimension? chars = none := by
  unfold excludesShape at h
  split at h
  next first second rest =>
    simp only [Bool.and_eq_true, bne_iff_ne] at h
    obtain ⟨⟨⟨hplus, hzero⟩, -⟩, -⟩ := h
    rw [dimension?, Word.ofChars?_cons hplus, Option.filter_eq_none_iff]
    intro n hn
    split at hn
    next hall =>
      have hten := Word.ten_le_digitsValue (List.all_eq_true.1 hall first List.mem_cons_self)
        hzero second rest
      rw [← Word.toNat_of_ofNat? hn] at hten
      have hgt : ¬n ≤ 4 := fun hle =>
        absurd (Nat.le_trans hten (UInt32.le_iff_toNat_le.1 hle)) (by decide)
      simp [hgt]
    next => cases hn
  next => cases h

theorem shape?_eq_none {chars : List Char} (h : excludesShape chars = true) :
    shape? chars = none := by
  have htake : excludesShape (chars.takeWhile (· != 'x')) = true := by
    unfold excludesShape at h
    split at h
    next first second rest =>
      simp only [Bool.and_eq_true] at h
      rw [List.takeWhile_cons, if_pos h.1.2, List.takeWhile_cons, if_pos h.2]
      simpa [excludesShape] using h
    next => cases h
  have hempty : ¬chars.isEmpty = true := by
    intro he
    rw [List.isEmpty_iff.1 he] at h
    cases h
  rw [shape?, if_neg hempty]
  split
  · rw [dimension?_eq_none h]
    rfl
  · rw [dimension?_eq_none htake]
    rfl

/-- What a spelling adds to another one does not start a shape. -/
theorem excludesShape_of_isPrefix : ∀ s ∈ primitiveSpellings, ∀ t ∈ primitiveSpellings,
    s.1.toList <+: t.1.toList →
      s = t ∨ excludesShape (t.1.toList.drop s.1.toList.length) = true := by
  decide +kernel

variable {word : List Char} {s t : String × Scalar} {type : MemberType}

theorem withSpelling?_eq_some : withSpelling? word s = some type ↔
    ∃ shape, word = s.1.toList ++ shape ∧ shape? shape = some (type.rows, type.columns) ∧
      type.scalar = s.2 := by
  rw [withSpelling?]
  split
  next hfront =>
    obtain ⟨shape, rfl⟩ := List.isPrefixOf_iff_prefix.1 hfront
    rw [List.drop_left, Option.map_eq_some_iff]
    constructor
    · rintro ⟨⟨rows, columns⟩, hshape, rfl⟩
      exact ⟨shape, rfl, hshape, rfl⟩
    · rintro ⟨shape', happend, hshape, hscalar⟩
      obtain rfl := List.append_cancel_left happend
      exact ⟨_, hshape, by rw [← hscalar]⟩
  next hfront =>
    refine ⟨nofun, ?_⟩
    rintro ⟨shape, rfl, -⟩
    exact absurd (List.isPrefixOf_iff_prefix.2 (List.prefix_append ..)) hfront

/-- A longer spelling leaves nothing for a shorter one. -/
theorem eq_of_withSpelling?_of_isPrefix (hs : s ∈ primitiveSpellings) (ht : t ∈ primitiveSpellings)
    {type' : MemberType} (h : withSpelling? word s = some type)
    (h' : withSpelling? word t = some type') (hfront : s.1.toList <+: t.1.toList) : s = t := by
  refine (excludesShape_of_isPrefix s hs t ht hfront).resolve_right fun hexcludes => ?_
  -- The shape behind the shorter spelling would start with what the longer one adds.
  obtain ⟨more, hmore⟩ := hfront
  obtain ⟨shape, rfl, hshape, -⟩ := withSpelling?_eq_some.1 h
  obtain ⟨shape', happend, -⟩ := withSpelling?_eq_some.1 h'
  rw [← hmore, List.append_assoc] at happend
  rw [← hmore, List.drop_left] at hexcludes
  rw [List.append_cancel_left happend, shape?_eq_none (excludesShape_append hexcludes _)] at hshape
  cases hshape

theorem eq_of_withSpelling? (hs : s ∈ primitiveSpellings) (ht : t ∈ primitiveSpellings)
    {type' : MemberType} (h : withSpelling? word s = some type)
    (h' : withSpelling? word t = some type') : s = t := by
  obtain ⟨shape, hword, -⟩ := withSpelling?_eq_some.1 h
  obtain ⟨shape', hword', -⟩ := withSpelling?_eq_some.1 h'
  rcases List.prefix_or_prefix_of_prefix ⟨shape, hword.symm⟩ ⟨shape', hword'.symm⟩ with hp | hp
  · exact eq_of_withSpelling?_of_isPrefix hs ht h h' hp
  · exact (eq_of_withSpelling?_of_isPrefix ht hs h' h hp).symm

/-- Of the spellings that are tried, the one that fits is found wherever it stands. -/
theorem findSome?_eq_some_iff {table : List (String × Scalar)} (h : table ⊆ primitiveSpellings) :
    table.findSome? (withSpelling? word) = some type ↔
      ∃ s ∈ table, withSpelling? word s = some type := by
  refine ⟨List.exists_of_findSome?_eq_some, ?_⟩
  rintro ⟨s, hs, hsplit⟩
  have hsome : (table.findSome? (withSpelling? word)).isSome := by
    rw [List.findSome?_isSome_iff]
    exact ⟨s, hs, by rw [hsplit]; rfl⟩
  obtain ⟨type', htype⟩ := Option.isSome_iff_exists.1 hsome
  obtain ⟨t, ht, hfound⟩ := List.exists_of_findSome?_eq_some htype
  obtain rfl := eq_of_withSpelling? (h hs) (h ht) hsplit hfound
  rw [htype, ← hfound, hsplit]

theorem not_isPrefix_matrix : ∀ s ∈ primitiveSpellings, ¬s.1.toList <+: "matrix".toList := by
  decide +kernel

theorem ofWord?_of_ne_matrix {word : String} (h : word ≠ "matrix") :
    ofWord? word = primitiveSpellings.findSome? (withSpelling? word.toList) := by
  rw [ofWord?, if_neg (by simpa using h)]

/-- A spelling with a shape behind it is read as what it denotes. -/
theorem ofWord?_of_spelling {spelling shape : String} {scalar : Scalar} {rows columns : UInt32}
    (hs : (spelling, scalar) ∈ primitiveSpellings)
    (hshape : shape? shape.toList = some (rows, columns)) :
    ofWord? (spelling ++ shape) = some ⟨scalar, rows, columns⟩ := by
  have hmatrix : spelling ++ shape ≠ "matrix" := by
    intro he
    refine not_isPrefix_matrix _ hs ⟨shape.toList, ?_⟩
    rw [← String.toList_append, he]
  rw [ofWord?_of_ne_matrix hmatrix, findSome?_eq_some_iff (List.Subset.refl _)]
  exact ⟨_, hs, withSpelling?_eq_some.2 ⟨shape.toList, String.toList_append, hshape, rfl⟩⟩

/-! ## What a word denotes -/

/-- Reads a word with the spellings of a table, the first one that fits. -/
def ofWordIn? (table : List (String × Scalar)) (word : String) : Option MemberType :=
  if word == "matrix" then some ⟨.float, 4, 4⟩
  else (table.filter fun s => s.2 != Scalar.struct).findSome? (withSpelling? word.toList)

/-- A word falls apart into a spelling of a scalar that is no struct, and a shape. -/
structure Splits (word spelling shape : String) (type : MemberType) : Prop where
  word_eq : word = spelling ++ shape
  spelling_mem : (spelling, type.scalar) ∈ Keyword.spellings
  ne_struct : type.scalar ≠ .struct
  shape_eq : shape? shape.toList = some (type.rows, type.columns)

/-- How a word is read as a primitive type. -/
structure ReadsWord (word : String) : Prop where
  some_iff : ∀ type, ofWord? word = some type ↔
    word = "matrix" ∧ type = ⟨.float, 4, 4⟩ ∨ ∃ spelling shape, Splits word spelling shape type
  split_unique : ∀ {spelling shape type spelling' shape' type'}, Splits word spelling shape type →
    Splits word spelling' shape' type' → spelling = spelling' ∧ shape = shape' ∧ type = type'
  any_order : ∀ table, table.Perm Keyword.spellings → ofWordIn? table word = ofWord? word
  extents : ∀ type, ofWord? word = some type → IsExtent type.rows ∧ IsExtent type.columns

section ReadsWord

variable {word spelling shape spelling' shape' : String} {type' : MemberType}

theorem Splits.mem (h : Splits word spelling shape type) :
    (spelling, type.scalar) ∈ primitiveSpellings :=
  List.mem_filter.2 ⟨h.spelling_mem, bne_iff_ne.2 h.ne_struct⟩

theorem Splits.withSpelling?_eq (h : Splits word spelling shape type) :
    withSpelling? word.toList (spelling, type.scalar) = some type :=
  withSpelling?_eq_some.2 ⟨shape.toList, by rw [h.word_eq, String.toList_append], h.shape_eq, rfl⟩

theorem Splits.unique (h : Splits word spelling shape type)
    (h' : Splits word spelling' shape' type') :
    spelling = spelling' ∧ shape = shape' ∧ type = type' := by
  have hpair := eq_of_withSpelling? h.mem h'.mem h.withSpelling?_eq h'.withSpelling?_eq
  have htype : some type = some type' := by
    rw [← h.withSpelling?_eq, ← h'.withSpelling?_eq, hpair]
  obtain rfl : spelling = spelling' := (Prod.mk.inj hpair).1
  have happend : spelling ++ shape = spelling ++ shape' := h.word_eq.symm.trans h'.word_eq
  exact ⟨rfl, (String.append_right_inj spelling).1 happend, Option.some.inj htype⟩

theorem exists_split_of_withSpelling? (hs : s ∈ primitiveSpellings)
    (h : withSpelling? word.toList s = some type) : ∃ shape, Splits word s.1 shape type := by
  obtain ⟨chars, hword, hshape, hscalar⟩ := withSpelling?_eq_some.1 h
  obtain ⟨hmem, hstruct⟩ := List.mem_filter.1 hs
  refine ⟨String.ofList chars, ?_, hscalar ▸ hmem, ?_, by rwa [String.toList_ofList]⟩
  · rw [← String.toList_inj, String.toList_append, String.toList_ofList, hword]
  · rw [hscalar]
    exact bne_iff_ne.1 hstruct

theorem ofWord?_eq_some_iff : ofWord? word = some type ↔
    word = "matrix" ∧ type = ⟨.float, 4, 4⟩ ∨
      ∃ spelling shape, Splits word spelling shape type := by
  by_cases hmatrix : word = "matrix"
  · subst hmatrix
    have hsplit : ¬∃ spelling shape, Splits "matrix" spelling shape type := by
      rintro ⟨spelling, shape, h⟩
      exact not_isPrefix_matrix _ h.mem ⟨shape.toList, by rw [← String.toList_append, ← h.word_eq]⟩
    have hword : ofWord? "matrix" = some ⟨.float, 4, 4⟩ := rfl
    rw [hword, Option.some_inj, eq_comm]
    exact ⟨fun he => .inl ⟨rfl, he⟩, fun h => (h.resolve_right hsplit).2⟩
  · rw [ofWord?_of_ne_matrix hmatrix, findSome?_eq_some_iff (List.Subset.refl _)]
    constructor
    · rintro ⟨s, hs, hfound⟩
      exact .inr ⟨s.1, exists_split_of_withSpelling? hs hfound⟩
    · rintro (⟨he, -⟩ | ⟨spelling, shape, h⟩)
      · exact absurd he hmatrix
      · exact ⟨_, h.mem, h.withSpelling?_eq⟩

theorem ofWordIn?_of_perm {table : List (String × Scalar)} (h : table.Perm Keyword.spellings) :
    ofWordIn? table word = ofWord? word := by
  have hperm : (table.filter fun s => s.2 != Scalar.struct).Perm primitiveSpellings := h.filter _
  have hfind : (table.filter fun s => s.2 != Scalar.struct).findSome? (withSpelling? word.toList) =
      primitiveSpellings.findSome? (withSpelling? word.toList) := by
    refine Option.ext fun type => ?_
    rw [findSome?_eq_some_iff hperm.subset, findSome?_eq_some_iff (List.Subset.refl _)]
    simp only [hperm.mem_iff]
  rw [ofWordIn?, hfind]
  rfl

/-- A word is read as a primitive type in one way only, and the order in which spellings are tried
does not matter. -/
theorem reads_every_word (word : String) : ReadsWord word where
  some_iff _ := ofWord?_eq_some_iff
  split_unique := Splits.unique
  any_order _ := ofWordIn?_of_perm
  extents _ := isExtent_of_ofWord?

end ReadsWord

end MemberType

end BindlessHlsl
