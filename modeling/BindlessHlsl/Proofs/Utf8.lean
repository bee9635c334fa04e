import BindlessHlsl.Utf8

/-!
Bytes and characters of one text. Comparing two texts byte by byte gives the same order as comparing
them character by character (`encode_lt_encode`), a byte below 128 is always a character of its own
(`exists_char_of_ascii`), and bytes below 128 always form a text (`encode_decode_of_ascii`).
-/

namespace BindlessHlsl.Utf8

/-- The bytes that are characters of their own. -/
def isAscii (b : UInt8) : Bool := b < 128

@[simp] theorem encodeChars_nil : encodeChars [] = [] := rfl

@[simp] theorem encodeChars_cons (c : Char) (cs : List Char) :
    encodeChars (c :: cs) = String.utf8EncodeChar c ++ encodeChars cs := rfl

@[simp] theorem encodeChars_append (cs ds : List Char) :
    encodeChars (cs ++ ds) = encodeChars cs ++ encodeChars ds := by
  simp [encodeChars]

@[simp] theorem charsLength_nil : charsLength [] = 0 := rfl

@[simp] theorem charsLength_cons (c : Char) (cs : List Char) :
    charsLength (c :: cs) = c.utf8Size + charsLength cs := rfl

@[simp] theorem charsLength_append (cs ds : List Char) :
    charsLength (cs ++ ds) = charsLength cs + charsLength ds := by
  simp only [← length_encodeChars, encodeChars_append, List.length_append]

theorem encode_eq_encodeChars (s : String) : encode s = encodeChars s.toList := by
  rw [← encode_ofList, String.ofList_toList]

theorem length_eq_charsLength (s : String) : length s = charsLength s.toList := by
  rw [← length_encode, encode_eq_encodeChars, length_encodeChars]

/-! ## The order of bytes -/

private theorem ofNat_lt_ofNat {m n : Nat} (hm : m < 256) (hn : n < 256) :
    UInt8.ofNat m < UInt8.ofNat n ↔ m < n := by
  rw [UInt8.lt_iff_toNat_lt, UInt8.toNat_ofNat', UInt8.toNat_ofNat', Nat.mod_eq_of_lt hm,
    Nat.mod_eq_of_lt hn]

private theorem ofNat_eq_ofNat {m n : Nat} (hm : m < 256) (hn : n < 256) :
    UInt8.ofNat m = UInt8.ofNat n ↔ m = n := by
  rw [← UInt8.toNat_inj, UInt8.toNat_ofNat', UInt8.toNat_ofNat', Nat.mod_eq_of_lt hm,
    Nat.mod_eq_of_lt hn]

/-- A smaller number is smaller in the leading part or, with equal leading parts, in the last six
bits. -/
private theorem lt_iff_sextet {m n : Nat} :
    m < n ↔ m / 64 < n / 64 ∨ m / 64 = n / 64 ∧ m % 64 < n % 64 := by
  omega

/-- A smaller character has smaller bytes, whatever follows either of them. -/
theorem utf8EncodeChar_append_lt {c d : Char} (h : c < d) (x y : List UInt8) :
    String.utf8EncodeChar c ++ x < String.utf8EncodeChar d ++ y := by
  have hlt : c.val.toNat < d.val.toNat := h
  have hd : d.val.toNat < 0x110000 := by
    have := d.valid
    simp only [UInt32.isValidChar, Nat.isValidChar] at this
    omega
  have h₁ := lt_iff_sextet.1 hlt
  have h₂ := @lt_iff_sextet (c.val.toNat / 64) (d.val.toNat / 64)
  have h₃ := @lt_iff_sextet (c.val.toNat / 4096) (d.val.toNat / 4096)
  simp only [Nat.div_div_eq_div_mul, Nat.reduceMul] at h₂ h₃
  have hc₀ : c.val.toNat / 262144 % 8 = c.val.toNat / 262144 := by omega
  have hd₀ : d.val.toNat / 262144 % 8 = d.val.toNat / 262144 := by omega
  simp only [String.utf8EncodeChar, hc₀, hd₀]
  repeat' split
  all_goals
    simp (disch := omega) only [List.cons_append, List.cons_lt_cons_iff, ofNat_lt_ofNat,
      ofNat_eq_ofNat]
    omega

theorem encodeChars_lt {cs ds : List Char} (h : cs < ds) : encodeChars cs < encodeChars ds := by
  induction h with
  | nil =>
    rename_i d ds
    rw [encodeChars_nil, encodeChars_cons]
    obtain ⟨b, rest, hb⟩ := List.exists_cons_of_ne_nil (String.utf8EncodeChar_ne_nil (c := d))
    rw [hb]
    exact .nil
  | cons h ih => exact List.append_left_lt ih
  | rel h => exact utf8EncodeChar_append_lt h ..

/-- Texts are ordered as their bytes are. -/
theorem encode_lt_encode {s t : String} : encode s < encode t ↔ s < t := by
  rw [encode_eq_encodeChars, encode_eq_encodeChars]
  refine ⟨fun h => ?_, encodeChars_lt⟩
  by_cases hts : t < s
  · exact absurd (encodeChars_lt hts) (List.lt_asymm h)
  · rcases Std.le_iff_lt_or_eq.1 (String.not_lt.1 hts) with hst | rfl
    · exact hst
    · exact absurd h (List.lt_irrefl _)

theorem encode_le_encode {s t : String} : encode s ≤ encode t ↔ s ≤ t := by
  rw [← List.not_lt, encode_lt_encode, String.not_lt]

/-! ## Bytes that are characters -/

/-- Every byte of a longer character has its highest bit set. -/
theorem le_toNat_of_mem_utf8EncodeChar {c : Char} (hc : ¬c.val.toNat ≤ 0x7f) :
    ∀ b ∈ String.utf8EncodeChar c, 128 ≤ b.toNat := by
  simp only [String.utf8EncodeChar, if_neg hc]
  repeat' split
  all_goals
    simp only [List.forall_mem_cons, List.not_mem_nil, false_imp_iff, implies_true, and_true,
      UInt8.toNat_ofNat']
    omega

/-- A byte below 128 is the only byte of its character. -/
theorem utf8EncodeChar_eq_of_ascii {c : Char} {b : UInt8} (h : b ∈ String.utf8EncodeChar c)
    (hb : isAscii b = true) : String.utf8EncodeChar c = [b] := by
  have hlt : b.toNat < 128 := by simpa [isAscii, UInt8.lt_iff_toNat_lt] using hb
  by_cases hc : c.val.toNat ≤ 0x7f
  · simp only [String.utf8EncodeChar, if_pos hc] at h ⊢
    rw [List.mem_singleton.1 h]
  · have := le_toNat_of_mem_utf8EncodeChar hc b h
    omega

/-- The code of a character of one byte. -/
theorem toNat_of_utf8EncodeChar {c : Char} {b : UInt8} (h : String.utf8EncodeChar c = [b]) :
    c.toNat = b.toNat := by
  have hlength : c.utf8Size = 1 := by
    rw [← String.length_utf8EncodeChar, h, List.length_singleton]
  have hsize : c.val.toNat ≤ 0x7f := UInt32.le_iff_toNat_le.1 (Char.utf8Size_eq_one_iff.1 hlength)
  simp only [String.utf8EncodeChar, if_pos hsize] at h
  rw [← List.singleton_inj.1 h, UInt8.toNat_ofNat', Nat.mod_eq_of_lt (by omega)]
  rfl

/-- Where a text may be cut without cutting a character apart. -/
def IsBoundary (cs : List Char) (offset : Nat) : Prop :=
  ∃ front back, cs = front ++ back ∧ charsLength front = offset

theorem isBoundary_nil {place : Nat} (h : IsBoundary [] place) : place = 0 := by
  obtain ⟨front, back, hf, rfl⟩ := h
  obtain ⟨rfl, -⟩ := List.append_eq_nil_iff.1 hf.symm
  rfl

theorem isBoundary_cons {c : Char} {cs : List Char} {place : Nat} (h : IsBoundary (c :: cs) place) :
    place = 0 ∨ ∃ rest, IsBoundary cs rest ∧ place = c.utf8Size + rest := by
  obtain ⟨front, back, hf, rfl⟩ := h
  cases front with
  | nil => exact .inl rfl
  | cons d front =>
    obtain ⟨rfl, rfl⟩ := List.cons.inj hf
    exact .inr ⟨_, ⟨front, back, rfl, rfl⟩, charsLength_cons ..⟩

theorem IsBoundary.le {cs : List Char} {offset : Nat} (h : IsBoundary cs offset) :
    offset ≤ charsLength cs := by
  obtain ⟨front, back, rfl, rfl⟩ := h
  simp

/-- A boundary of a text is one of its first part or one of its second part. -/
theorem isBoundary_append {as bs : List Char} {offset : Nat} (h : IsBoundary (as ++ bs) offset) :
    (IsBoundary as offset ∧ offset ≤ charsLength as) ∨
      ∃ rest, IsBoundary bs rest ∧ offset = charsLength as + rest := by
  obtain ⟨front, back, hf, rfl⟩ := h
  rcases List.append_eq_append_iff.1 hf with ⟨mid, rfl, rfl⟩ | ⟨mid, rfl, rfl⟩
  · exact .inr ⟨charsLength mid, ⟨mid, back, rfl, rfl⟩, charsLength_append ..⟩
  · exact .inl ⟨⟨front, mid, rfl, rfl⟩, by simp⟩

/-- Two boundaries divide a text in three. -/
theorem exists_parts {cs : List Char} {start stop : Nat} (hs : IsBoundary cs start)
    (ht : IsBoundary cs stop) (hle : start ≤ stop) :
    ∃ front mid back, cs = front ++ (mid ++ back) ∧ charsLength front = start ∧
      charsLength front + charsLength mid = stop := by
  obtain ⟨front, rest, rfl, rfl⟩ := hs
  rcases isBoundary_append ht with ⟨_, hlt⟩ | ⟨place, ⟨mid, back, rfl, rfl⟩, rfl⟩
  · exact ⟨front, [], rest, rfl, rfl, by simp; omega⟩
  · exact ⟨front, mid, back, rfl, rfl, rfl⟩

/-- A byte below 128 is a character of the text that it stands in. -/
theorem exists_char_of_ascii {cs : List Char} {offset : Nat} {b : UInt8}
    (h : (encodeChars cs)[offset]? = some b) (hb : isAscii b = true) :
    ∃ front c back, cs = front ++ c :: back ∧ charsLength front = offset ∧
      String.utf8EncodeChar c = [b] := by
  induction cs generalizing offset with
  | nil => simp at h
  | cons c cs ih =>
    rw [encodeChars_cons] at h
    by_cases ho : offset < (String.utf8EncodeChar c).length
    · rw [List.getElem?_append_left ho] at h
      have hc := utf8EncodeChar_eq_of_ascii (List.mem_of_getElem? h) hb
      rw [hc, List.length_singleton] at ho
      exact ⟨[], c, cs, rfl, by simp; omega, hc⟩
    · rw [List.getElem?_append_right (by omega)] at h
      obtain ⟨front, d, back, rfl, hf, hd⟩ := ih h
      refine ⟨c :: front, d, back, rfl, ?_, hd⟩
      rw [charsLength_cons, hf, ← String.length_utf8EncodeChar]
      omega

theorem isBoundary_of_ascii {cs : List Char} {offset : Nat} {b : UInt8}
    (h : (encodeChars cs)[offset]? = some b) (hb : isAscii b = true) : IsBoundary cs offset := by
  obtain ⟨front, c, back, rfl, hf, _⟩ := exists_char_of_ascii h hb
  exact ⟨front, c :: back, rfl, hf⟩

theorem isBoundary_succ_of_ascii {cs : List Char} {offset : Nat} {b : UInt8}
    (h : (encodeChars cs)[offset]? = some b) (hb : isAscii b = true) :
    IsBoundary cs (offset + 1) := by
  obtain ⟨front, c, back, rfl, hf, hc⟩ := exists_char_of_ascii h hb
  refine ⟨front ++ [c], back, by simp, ?_⟩
  rw [charsLength_append, hf, charsLength_cons, ← String.length_utf8EncodeChar, hc]
  rfl

/-- Bytes below 128 are a text. -/
theorem encode_decode_of_ascii {bytes : List UInt8} (h : ∀ b ∈ bytes, isAscii b = true) :
    encode (decode bytes) = bytes := by
  suffices hs : ∃ cs, encodeChars cs = bytes by
    obtain ⟨cs, rfl⟩ := hs
    rw [← encode_ofList, decode_encode]
  induction bytes with
  | nil => exact ⟨[], rfl⟩
  | cons b bytes ih =>
    obtain ⟨cs, hcs⟩ := ih fun d hd => h d (List.mem_cons_of_mem _ hd)
    have hb : b.toNat < 128 := by
      simpa [isAscii, UInt8.lt_iff_toNat_lt] using h b List.mem_cons_self
    refine ⟨Char.ofNat b.toNat :: cs, ?_⟩
    have hv : (Char.ofNat b.toNat).val.toNat = b.toNat := by
      rw [Char.ofNat, dif_pos (.inl (by omega))]
      rfl
    rw [encodeChars_cons, hcs, String.utf8EncodeChar]
    simp only [hv]
    rw [if_pos (by omega), UInt8.ofNat_toNat]
    rfl

end BindlessHlsl.Utf8
