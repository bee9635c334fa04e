import BindlessHlsl.Inspection.Json
import BindlessHlsl.Pipeline.Json
import BindlessHlsl.Proofs.JsonText
import BindlessHlsl.Proofs.NameMap

/-!
Records survive their JSON text. A value of the library is encoded by a JSON value that has a text
and that is read as it (`JsonValue.Encodes`); a record is encoded by the object of its fields if its
fields are. The numbers that are written have texts (`JsonNumber.proper_ofNat`,
`JsonNumber.proper_ofSingle`), so inspections and pipeline descriptions are read back from either
text (`JsonValue.records_readBack`).
-/

namespace BindlessHlsl

/-! ## Digits -/

namespace JsonNumber

/-- The digits of a positive number do not start with a zero. -/
theorem head?_toDigits_ne {n : Nat} (hn : n ≠ 0) : (Nat.toDigits 10 n).head? ≠ some '0' := by
  induction n using Nat.strongRecOn with
  | ind n ih =>
    rw [Nat.toDigits_eq_if (by decide)]
    split
    next hlt =>
      have hdigit : ∀ n < 10, n ≠ 0 → Nat.digitChar n ≠ '0' := by decide
      simpa using hdigit n hlt hn
    next hle =>
      rw [List.head?_append, Option.or_of_isSome (List.isSome_head?.2 Nat.toDigits_ne_nil)]
      exact ih (n / 10) (by omega) (by omega)

theorem isDigit_toDigits {n : Nat} : ∀ c ∈ Nat.toDigits 10 n, c.isDigit = true :=
  fun _ => Nat.isDigit_of_mem_toDigits (by decide) (by decide)

theorem digitsValue_toDigits (n : Nat) : Word.digitsValue (Nat.toDigits 10 n) = n :=
  Nat.ofDigitChars_toDigits (by decide) (by decide)

theorem isDigit_replicate {n : Nat} : ∀ c ∈ List.replicate n '0', c.isDigit = true := by
  intro c hc
  rw [List.eq_of_mem_replicate hc]
  rfl

/-- A number whose digits before the point start like those of a positive number. -/
theorem proper_of_head {n : JsonNumber} {digits : Nat} (hd : digits ≠ 0)
    (hhead : n.whole.head? = (Nat.toDigits 10 digits).head?)
    (hwhole : ∀ c ∈ n.whole, c.isDigit = true) (hfraction : ∀ c ∈ n.fraction, c.isDigit = true)
    (hexponent : ∀ e ∈ n.exponent, e.2 ≠ [] ∧ ∀ c ∈ e.2, c.isDigit = true) : n.Proper where
  whole_ne_nil := by
    intro hnil
    rw [hnil, List.head?_nil] at hhead
    exact Nat.toDigits_ne_nil (List.head?_eq_none_iff.1 hhead.symm)
  whole_digits := hwhole
  whole_zero h := absurd (hhead ▸ h) (head?_toDigits_ne hd)
  fraction_digits := hfraction
  exponent_digits := hexponent

theorem proper_ofNat (n : Nat) : (ofNat n).Proper where
  whole_ne_nil := Nat.toDigits_ne_nil
  whole_digits := isDigit_toDigits
  whole_zero h := by
    obtain rfl : n = 0 := Decidable.byContradiction fun hn => head?_toDigits_ne hn h
    rfl
  fraction_digits _ h := absurd h List.not_mem_nil
  exponent_digits _ h := by cases h

theorem proper_ofDecimal {d : Decimal} (hd : d.digits ≠ 0) : (ofDecimal d).Proper := by
  have htake : ∀ {n : Nat}, 0 < n →
      ((Nat.toDigits 10 d.digits).take n).head? = (Nat.toDigits 10 d.digits).head? :=
    fun hn => by rw [List.head?_take, if_neg (Nat.ne_of_gt hn)]
  have hdigits := isDigit_toDigits (n := d.digits)
  simp only [ofDecimal]
  split
  · split
    · refine proper_of_head hd ?_ ?_ ?_ nofun
      · rw [List.head?_append, Option.or_of_isSome (List.isSome_head?.2 Nat.toDigits_ne_nil)]
      · intro c hc
        exact (List.mem_append.1 hc).elim (hdigits c) (isDigit_replicate c)
      · rintro _ (⟨⟩ | ⟨_, ⟨⟩⟩)
        rfl
    · split
      next hleading =>
        exact proper_of_head hd (htake (by omega)) (fun c hc => hdigits c (List.mem_of_mem_take hc))
          (fun c hc => hdigits c (List.mem_of_mem_drop hc)) nofun
      next =>
        refine ⟨List.cons_ne_nil _ _, ?_, fun _ => rfl, ?_, nofun⟩
        · rintro _ (⟨⟩ | ⟨_, ⟨⟩⟩)
          rfl
        · intro c hc
          exact (List.mem_append.1 hc).elim (isDigit_replicate c) (hdigits c)
  · refine proper_of_head hd (htake Nat.one_pos) (fun c hc => hdigits c (List.mem_of_mem_take hc))
      (fun c hc => hdigits c (List.mem_of_mem_drop hc)) ?_
    rintro _ ⟨⟩
    exact ⟨Nat.toDigits_ne_nil, isDigit_toDigits⟩

end JsonNumber

theorem Decimal.digits_normalize_ne {d : Decimal} (hd : d.digits ≠ 0) : d.normalize.digits ≠ 0 := by
  fun_induction normalize d with
  | case1 d h ih => exact ih (show d.digits / 10 ≠ 0 by omega)
  | case2 d h => exact hd

theorem BinaryFormat.units_ne_zero {f : BinaryFormat} {bits : Nat} (h : bits ≠ 0) :
    f.units bits ≠ 0 := by
  have hpos : 0 < Nat.pow 2 f.fractionBits := Nat.two_pow_pos _
  simp only [units]
  split
  next hexponent =>
    have hlt : bits < Nat.pow 2 f.fractionBits := (Nat.div_eq_zero_iff_lt hpos).1 hexponent
    rwa [Nat.mod_eq_of_lt hlt]
  next => exact Nat.mul_ne_zero (by omega) (Nat.ne_of_gt (Nat.two_pow_pos _))

namespace Single

/-- A decimal that reads back as positive bits is not zero. -/
theorem digits_of_withDigits? {bits num den count : Nat} {d : Decimal} (h : bits ≠ 0)
    (hd : withDigits? bits num den count = some d) : d.digits ≠ 0 := by
  have hread : ∀ low : Decimal, (magnitudeOfDecimal low == bits) = true → low.digits ≠ 0 := by
    intro low hlow hzero
    rw [beq_iff_eq, magnitudeOfDecimal, if_pos hzero] at hlow
    exact h hlow.symm
  simp only [withDigits?] at hd
  split at hd
  next hlow _ =>
    split at hd <;> cases hd
    · exact hread _ hlow
    · exact Nat.succ_ne_zero _
  next hlow _ =>
    cases hd
    exact hread _ hlow
  next =>
    cases hd
    exact Nat.succ_ne_zero _
  next => cases hd

theorem digits_shortest_ne {bits : Nat} (h : bits ≠ 0) : (shortest bits).digits ≠ 0 := by
  refine Decimal.digits_normalize_ne ?_
  cases hfind : (List.range' 1 9).findSome? (withDigits? bits (BinaryFormat.single.units bits)
      (Nat.pow 2 BinaryFormat.single.scale)) with
  | none =>
    exact Nat.mul_ne_zero (BinaryFormat.units_ne_zero h) (Nat.ne_of_gt (Nat.pow_pos (by decide)))
  | some d =>
    obtain ⟨_, _, hd⟩ := List.exists_of_findSome?_eq_some hfind
    exact digits_of_withDigits? h hd

end Single

theorem JsonNumber.proper_ofSingle (x : Single) : (ofSingle x).Proper := by
  unfold ofSingle
  split
  · refine ⟨List.cons_ne_nil _ _, ?_, fun _ => rfl, ?_, nofun⟩ <;>
    · rintro _ (⟨⟩ | ⟨_, ⟨⟩⟩)
      rfl
  next h =>
    obtain ⟨h1, h2, h3, h4, h5⟩ := proper_ofDecimal (Single.digits_shortest_ne h)
    exact ⟨h1, h2, h3, h4, h5⟩

/-! ## Tags -/

/-- A type whose tags tell its values apart. -/
class LawfulTagged (α : Type) [Tagged α] [BEq α] : Prop where
  ofTag?_tag (x : α) : Tagged.ofTag? (Tagged.tag x) = some x

instance : LawfulTagged ResourceKind := ⟨fun x => by cases x <;> rfl⟩
instance : LawfulTagged PropertyDefault := ⟨fun x => by cases x <;> rfl⟩
instance : LawfulTagged TextureFilter := ⟨fun x => by cases x <;> rfl⟩
instance : LawfulTagged AddressMode := ⟨fun x => by cases x <;> rfl⟩
instance : LawfulTagged SamplerBorder := ⟨fun x => by cases x <;> rfl⟩
instance : LawfulTagged InputClass := ⟨fun x => by cases x <;> rfl⟩
instance : LawfulTagged InputFormat := ⟨fun x => by cases x <;> rfl⟩
instance : LawfulTagged LayoutKind := ⟨fun x => by cases x <;> rfl⟩
instance : LawfulTagged VariantKind := ⟨fun x => by cases x; rfl⟩

/-! ## Encodings -/

namespace JsonValue

/-- A JSON value that has a text and is read as a value of the library. -/
structure Encodes {α : Type} (read : JsonValue → Option α) (v : JsonValue) (x : α) : Prop where
  proper : v.Proper
  read_eq : read v = some x

theorem encodes_string (s : String) : Encodes toText? (.string s) s := ⟨.string s, rfl⟩

theorem encodes_tagged {α : Type} [Tagged α] [BEq α] [LawfulTagged α] (x : α) :
    Encodes toTagged? (.ofTagged x) x :=
  ⟨.string _, LawfulTagged.ofTag?_tag x⟩

theorem encodes_word (w : UInt32) : Encodes toWord? (.ofWord w) w := by
  refine ⟨.number (JsonNumber.proper_ofNat _), ?_⟩
  change Word.ofNat? (Word.digitsValue (Nat.toDigits 10 w.toNat)) = some w
  rw [JsonNumber.digitsValue_toDigits, Word.ofNat?_toNat]

theorem encodes_single {x : Single} (hfinite : x.isFinite = true)
    (hread : (JsonNumber.ofSingle x).toSingle? = some x) : Encodes toSingle? (.ofSingle x) x := by
  rw [ofSingle, if_pos hfinite]
  exact ⟨.number (JsonNumber.proper_ofSingle x), hread⟩

/-- A value that may be absent is written as null, which no other value is. -/
theorem encodes_option {α : Type} {read : JsonValue → Option α} {write : α → JsonValue}
    (x? : Option α) (hnull : read .null = none) (h : ∀ x, Encodes read (write x) x) :
    Encodes (fun v => optional read (some v)) (.ofOption write x?) x? := by
  cases x? with
  | none => exact ⟨.null, rfl⟩
  | some x =>
    obtain ⟨hproper, hread⟩ := h x
    refine ⟨hproper, ?_⟩
    change optional read (some (write x)) = some (some x)
    unfold optional
    split
    next heq => cases heq
    next heq =>
      rw [Option.some.inj heq, hnull] at hread
      cases hread
    next heq => rw [← Option.some.inj heq, hread]; rfl

theorem encodes_list {α : Type} {read : JsonValue → Option α} {write : α → JsonValue}
    (xs : List α) (h : ∀ x ∈ xs, Encodes read (write x) x) :
    Encodes (toList? read) (.array (xs.map write)) xs := by
  refine ⟨.array ?_, ?_⟩
  · intro item hitem
    obtain ⟨x, hx, rfl⟩ := List.mem_map.1 hitem
    exact (h x hx).proper
  · change (xs.map write).mapM read = some xs
    induction xs with
    | nil => rfl
    | cons x xs ih =>
      rw [List.map_cons, List.mapM_cons, (h x List.mem_cons_self).read_eq,
        ih fun y hy => h y (List.mem_cons_of_mem _ hy)]
      rfl

/-! ## Records -/

theorem fieldsNamed_of_notMem {fields : List (String × JsonValue)} {name : String}
    (h : name ∉ fields.map Prod.fst) : fieldsNamed fields name = [] := by
  refine List.filterMap_eq_nil_iff.2 fun f hf => if_neg fun heq => ?_
  exact h (heq ▸ List.mem_map_of_mem hf)

theorem field?_of_mem {fields : List (String × JsonValue)} (hnodup : (fields.map Prod.fst).Nodup)
    {f : String × JsonValue} (hf : f ∈ fields) : field? fields f.1 = some (some f.2) := by
  have hnamed : fieldsNamed fields f.1 = [f.2] := by
    obtain ⟨front, back, rfl⟩ := List.append_of_mem hf
    rw [List.map_append, List.map_cons] at hnodup
    obtain ⟨-, hback, hfront⟩ := List.nodup_append.1 hnodup
    have hfront : fieldsNamed front f.1 = [] :=
      fieldsNamed_of_notMem fun hmem => hfront _ hmem _ List.mem_cons_self rfl
    have hback : fieldsNamed back f.1 = [] := fieldsNamed_of_notMem (List.nodup_cons.1 hback).1
    simp only [fieldsNamed] at hfront hback ⊢
    rw [List.filterMap_append, List.filterMap_cons, if_pos rfl, hfront, hback]
    rfl
  rw [field?, hnamed]

/-- The fields of an object in the order of their names, with names at the end that do not occur. -/
theorem record?_object (absent : List String) {names : List String} (h : names.Nodup)
    {spare : Nat} {fields : List (String × JsonValue)}
    (hnames : names = fields.map Prod.fst ++ absent) :
    record? names spare (.object fields) =
      some (fields.map (fun f => some f.2) ++ absent.map fun _ => none) := by
  obtain ⟨hfields, -, hdisjoint⟩ := List.nodup_append.1 (hnames ▸ h)
  have hpresent : (fields.map Prod.fst).mapM (field? fields) =
      some (fields.map fun f => some f.2) := by
    have hread : ∀ part ⊆ fields, (part.map Prod.fst).mapM (field? fields) =
        some (part.map fun f => some f.2) := by
      intro part hpart
      induction part with
      | nil => rfl
      | cons f part ih =>
        obtain ⟨hf, hpart⟩ := List.cons_subset.1 hpart
        rw [List.map_cons, List.mapM_cons, field?_of_mem hfields hf, ih hpart]
        rfl
    exact hread fields (List.Subset.refl _)
  have habsent : absent.mapM (field? fields) = some (absent.map fun _ => none) := by
    have hnone : ∀ name ∈ absent, field? fields name = some none := by
      intro name hname
      rw [field?, fieldsNamed_of_notMem fun hmem => hdisjoint _ hmem _ hname rfl]
    clear hnames hdisjoint
    induction absent with
    | nil => rfl
    | cons name absent ih =>
      rw [List.mapM_cons, hnone name List.mem_cons_self,
        ih fun n hn => hnone n (List.mem_cons_of_mem _ hn)]
      rfl
  change names.mapM (field? fields) = _
  rw [hnames, List.mapM_append, hpresent, habsent]
  rfl

end JsonValue

open JsonValue

theorem Property.encodes (p : Property) : Encodes Property.ofJson? p.toJson p := by
  have hname := encodes_string p.name
  have hfallback := encodes_option p.fallback rfl encodes_tagged
  refine ⟨.object ?_, ?_⟩
  · simp only [List.forall_mem_cons]
    exact ⟨hname.proper, hfallback.proper, nofun⟩
  · rw [ofJson?, toJson, record?_object []]
    · simp [required, hname.read_eq, hfallback.read_eq]
    · decide
    · rfl

theorem SlotDescription.encodes (r : SlotDescription) :
    Encodes SlotDescription.ofJson? r.toJson r := by
  obtain ⟨name, group, index, signature, kind, property⟩ := r
  have hname := encodes_string name
  have hgroup := encodes_string group
  have hindex := encodes_word index
  have hsignature := encodes_string signature
  have hkind := encodes_tagged kind
  cases property with
  | none =>
    refine ⟨.object ?_, ?_⟩
    · simp only [Option.map_none, Option.toList_none, List.append_nil, List.forall_mem_cons]
      exact ⟨hname.proper, hgroup.proper, hindex.proper, hsignature.proper, hkind.proper, nofun⟩
    · rw [ofJson?, toJson, record?_object ["property"]]
      · simp [required, JsonValue.optional, hname.read_eq, hgroup.read_eq, hindex.read_eq,
          hsignature.read_eq, hkind.read_eq]
      · decide
      · rfl
  | some property =>
    have hproperty : JsonValue.optional Property.ofJson? (some property.toJson) =
        some (some property) := (encodes_option (some property) rfl Property.encodes).read_eq
    refine ⟨.object ?_, ?_⟩
    · simp only [Option.map_some, Option.toList_some, List.cons_append, List.nil_append,
        List.forall_mem_cons]
      exact ⟨hname.proper, hgroup.proper, hindex.proper, hsignature.proper, hkind.proper,
        property.encodes.proper, nofun⟩
    · rw [ofJson?, toJson, record?_object []]
      · simp [required, hname.read_eq, hgroup.read_eq, hindex.read_eq, hsignature.read_eq,
          hkind.read_eq, hproperty]
      · decide
      · rfl

theorem ConstantsDescription.encodes (c : ConstantsDescription) :
    Encodes ConstantsDescription.ofJson? c.toJson c := by
  have hname := encodes_string c.name
  have hstruct := encodes_string c.structName
  have hsize := encodes_word c.size
  refine ⟨.object ?_, ?_⟩
  · simp only [List.forall_mem_cons]
    exact ⟨hname.proper, hstruct.proper, hsize.proper, nofun⟩
  · rw [ofJson?, toJson, record?_object []]
    · simp [required, hname.read_eq, hstruct.read_eq, hsize.read_eq]
    · decide
    · rfl

theorem InputElement.encodes (e : InputElement) : Encodes InputElement.ofJson? e.toJson e := by
  have hname := encodes_string e.name
  have hoffset := encodes_option e.offset rfl encodes_word
  have hslot := encodes_option e.slot rfl encodes_word
  have hclass := encodes_tagged e.inputClass
  have hformat := encodes_tagged e.format
  refine ⟨.object ?_, ?_⟩
  · simp only [List.forall_mem_cons]
    exact ⟨hname.proper, hoffset.proper, hslot.proper, hclass.proper, hformat.proper, nofun⟩
  · rw [ofJson?, toJson, record?_object []]
    · simp [required, hname.read_eq, hoffset.read_eq, hslot.read_eq, hclass.read_eq,
        hformat.read_eq]
    · decide
    · rfl

/-- The levels of detail of a sampler. -/
def Sampler.lods (s : Sampler) : List Single :=
  [s.settings.mipLodBias, s.settings.minLod, s.settings.maxLod]

theorem Sampler.encodes (s : Sampler) (hlods : ∀ x ∈ s.lods,
    x.isFinite = true ∧ (JsonNumber.ofSingle x).toSingle? = some x) :
    Encodes Sampler.ofJson? s.toJson s := by
  have hlod : ∀ x ∈ s.lods, Encodes toSingle? (.ofSingle x) x := fun x hx =>
    encodes_single (hlods x hx).1 (hlods x hx).2
  obtain ⟨hbias, hmin, hmax, -⟩ : Encodes _ _ _ ∧ Encodes _ _ _ ∧ Encodes _ _ _ ∧ True := by
    simpa only [lods, List.forall_mem_cons, List.not_mem_nil, false_imp_iff, implies_true]
      using hlod
  have hname := encodes_string s.name
  have hindex := encodes_word s.index
  have hfilter := encodes_tagged s.settings.filter
  have hu := encodes_tagged s.settings.addressU
  have hv := encodes_tagged s.settings.addressV
  have hw := encodes_tagged s.settings.addressW
  have hanisotropy := encodes_word s.settings.maxAnisotropy
  have hborder := encodes_tagged s.settings.border
  refine ⟨.object ?_, ?_⟩
  · simp only [List.forall_mem_cons]
    exact ⟨hname.proper, hindex.proper, hfilter.proper, hu.proper, hv.proper, hw.proper,
      hanisotropy.proper, hbias.proper, hmin.proper, hmax.proper, hborder.proper, nofun⟩
  · rw [ofJson?, toJson, record?_object []]
    · simp [required, hname.read_eq, hindex.read_eq, hfilter.read_eq, hu.read_eq, hv.read_eq,
        hw.read_eq, hanisotropy.read_eq, hbias.read_eq, hmin.read_eq, hmax.read_eq,
        hborder.read_eq]
    · decide
    · rfl

theorem isReadable_ofWord (levels : Nat) (w : UInt32) : isReadable levels (.ofWord w) = true := by
  have hvalue : Word.digitsValue (Nat.toDigits 10 w.toNat) < JsonNumber.significandBound := by
    have hlt := w.toNat_lt
    rw [JsonNumber.digitsValue_toDigits]
    simp only [JsonNumber.significandBound]
    omega
  simp [isReadable, ofWord, JsonNumber.isInteger64, JsonNumber.ofNat, hvalue]

theorem ConstantsLayout.encodes (l : ConstantsLayout) :
    Encodes ConstantsLayout.ofJson? l.toJson l := by
  have htable := encodes_word l.tableSize
  have hconstants := encodes_word l.constantsSize
  have hkind : kindOfJson? (.ofTagged l.kind) = some l.kind := LawfulTagged.ofTag?_tag l.kind
  refine ⟨.object ?_, ?_⟩
  · simp only [List.forall_mem_cons]
    exact ⟨.string _, htable.proper, hconstants.proper, nofun⟩
  · rw [ofJson?, toJson, record?_object []]
    · have hkindReadable : isReadable nestingLimit (.ofTagged l.kind) = true := rfl
      simp [required, hkind, htable.read_eq, hconstants.read_eq, isReadable, isReadable_ofWord,
        hkindReadable]
    · decide
    · rfl

theorem PipelineDescription.encodes (d : PipelineDescription)
    (hlods : ∀ s ∈ d.samplers, ∀ x ∈ s.lods,
      x.isFinite = true ∧ (JsonNumber.ofSingle x).toSingle? = some x) :
    Encodes PipelineDescription.ofJson? d.toJson d := by
  have hfile := encodes_string d.sourceFile
  have hpath := encodes_option d.path rfl encodes_string
  have hvertex := encodes_option d.vertexEntry rfl encodes_string
  have hpixel := encodes_option d.pixelEntry rfl encodes_string
  have hgroups := encodes_list d.groups fun x _ => encodes_string x
  have hresources := encodes_list d.resources fun x _ => x.encodes
  have hconstants := encodes_list d.constants fun x _ => x.encodes
  have hsamplers := encodes_list d.samplers fun x hx => x.encodes (hlods x hx)
  have hinputs := encodes_list d.inputLayout fun x _ => x.encodes
  have hsize := encodes_word d.constantsSize
  have hlayout := encodes_option d.layout rfl ConstantsLayout.encodes
  refine ⟨.object ?_, ?_⟩
  · simp only [List.forall_mem_cons]
    exact ⟨hfile.proper, hpath.proper, hvertex.proper, hpixel.proper, hgroups.proper,
      hresources.proper, hconstants.proper, hsamplers.proper, hinputs.proper, hsize.proper,
      hlayout.proper, nofun⟩
  · rw [ofJson?, toJson, record?_object []]
    · simp [required, hfile.read_eq, hpath.read_eq, hvertex.read_eq, hpixel.read_eq,
        hgroups.read_eq, hresources.read_eq, hconstants.read_eq, hsamplers.read_eq,
        hinputs.read_eq, hsize.read_eq, hlayout.read_eq]
    · decide
    · rfl

theorem Variant.encodes (v : Variant) : Encodes Variant.ofJson? v.toJson v := by
  have hkind := encodes_tagged v.kind
  have hidentifier := encodes_string v.identifier
  have hname := encodes_option v.displayName rfl encodes_string
  refine ⟨.object ?_, ?_⟩
  · simp only [List.forall_mem_cons]
    exact ⟨hkind.proper, hidentifier.proper, hname.proper, nofun⟩
  · rw [ofJson?, toJson, record?_object []]
    · simp [required, hkind.read_eq, hidentifier.read_eq, hname.read_eq]
    · decide
    · rfl

theorem FileRecord.encodes (r : FileRecord) : Encodes FileRecord.ofJson? r.toJson r := by
  have hgroups := encodes_list r.groups.names fun x _ => encodes_string x
  have hvariants := encodes_list r.variants fun x _ => x.encodes
  refine ⟨.object ?_, ?_⟩
  · simp only [List.forall_mem_cons]
    exact ⟨hgroups.proper, hvariants.proper, nofun⟩
  · rw [ofJson?, toJson, record?_object []]
    · simp [required, hgroups.read_eq, hvariants.read_eq, NameSet.ofList_names]
    · decide
    · rfl

theorem Inspection.encodes (i : Inspection) : Encodes Inspection.ofJson? i.toJson i := by
  have hentries : ∀ entries : List (String × FileRecord),
      (entries.map fun e => (e.1, e.2.toJson)).mapM entryOfJson? = some entries := by
    intro entries
    induction entries with
    | nil => rfl
    | cons e entries ih =>
      rw [List.map_cons, List.mapM_cons, ih, entryOfJson?, e.2.encodes.read_eq]
      rfl
  have hfiles : Encodes filesOfJson? (.object (i.files.entries.map fun e => (e.1, e.2.toJson)))
      i.files := by
    refine ⟨.object ?_, ?_⟩
    · intro f hf
      obtain ⟨e, -, rfl⟩ := List.mem_map.1 hf
      exact e.2.encodes.proper
    · rw [filesOfJson?, hentries, Option.map_some, NameMap.insertAll_entries]
  refine ⟨.object ?_, ?_⟩
  · simp only [List.forall_mem_cons]
    exact ⟨hfiles.proper, nofun⟩
  · rw [ofJson?, toJson, record?_object []]
    · simp [required, hfiles.read_eq]
    · decide
    · rfl

/-- Either text of an encoding is read as what is encoded. -/
theorem JsonValue.Encodes.readBack {α : Type} {read : JsonValue → Option α} {v : JsonValue} {x : α}
    (h : Encodes read v x) :
    (ofText? v.compact).bind read = some x ∧ (ofText? v.pretty).bind read = some x := by
  obtain ⟨hcompact, hpretty⟩ := ofText?_printed h.proper
  rw [hcompact, hpretty]
  exact ⟨h.read_eq, h.read_eq⟩

/-- Inspections are read back from their texts, and so are pipeline descriptions whose levels of
detail are finite numbers that are read back themselves. -/
theorem JsonValue.records_readBack :
    (∀ i : Inspection, Inspection.ofText? i.toJson.compact = some i ∧
      Inspection.ofText? i.toJson.pretty = some i) ∧
    ∀ d : PipelineDescription,
      (∀ s ∈ d.samplers, ∀ x ∈ s.lods,
        x.isFinite = true ∧ (JsonNumber.ofSingle x).toSingle? = some x) →
      PipelineDescription.ofText? d.toJson.compact = some d ∧
        PipelineDescription.ofText? d.text = some d :=
  ⟨fun i => i.encodes.readBack, fun d hlods => (d.encodes hlods).readBack⟩

/-- Such as a description with escaped texts, absent values, greatest words and levels of detail at
both ends of the range. -/
theorem JsonValue.exists_records_readBack :
    ∃ d : PipelineDescription,
      d.samplers.flatMap Sampler.lods = [⟨0x3dcccccd⟩, ⟨0x80000001⟩, .greatest] ∧
      (∀ s ∈ d.samplers, ∀ x ∈ s.lods,
        x.isFinite = true ∧ (JsonNumber.ofSingle x).toSingle? = some x) ∧
      PipelineDescription.ofText? d.toJson.compact = some d ∧
        PipelineDescription.ofText? d.text = some d := by
  let d : PipelineDescription := {
    sourceFile := "a\"b\\c\n\x01é.hlsl", path := none, vertexEntry := some "V"
    pixelEntry := some "", groups := ["__Default", "\t"]
    resources := [⟨"t", "__Default", 0, "Texture2D<float4>", .texture2D, some ⟨"T", none⟩⟩,
      ⟨"b", "\t", 4294967295, "StructuredBuffer<S>", .structuredBuffer, none⟩]
    constants := [⟨"c", "S", 16⟩]
    samplers := [⟨"s", 0,
      { filter := .linear, mipLodBias := ⟨0x3dcccccd⟩, minLod := ⟨0x80000001⟩ }⟩]
    inputLayout := [⟨"POSITION", none, some 0, .perVertex, .float3⟩]
    constantsSize := 16, layout := some ⟨.split, 8, 16⟩ }
  have hlods : ∀ s ∈ d.samplers, ∀ x ∈ s.lods,
      x.isFinite = true ∧ (JsonNumber.ofSingle x).toSingle? = some x := by decide +kernel
  exact ⟨d, rfl, hlods, records_readBack.2 d hlods⟩

end BindlessHlsl
