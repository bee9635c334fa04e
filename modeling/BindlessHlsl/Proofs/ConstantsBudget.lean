import BindlessHlsl.Proofs.ConstantsOrder
import BindlessHlsl.Proofs.PreambleParts

/-!
The budget of the user constants against their exact size. A shader is accepted or rejected by the
exact size as long as every size on the way to the decision is a word, and is not generated at all
otherwise (`Shader.KeepsBudget`). A size that is no word is never taken for one.
-/

namespace BindlessHlsl

/-- Bytes of user constants. -/
def Declarations.bytesOf (members : List (Resource × Struct)) : Nat :=
  (members.map fun m => m.2.exactSize).sum

namespace Declarations

variable {members front back : List (Resource × Struct)} {m : Resource × Struct}

@[simp] theorem bytesOf_cons : bytesOf (m :: back) = m.2.exactSize + bytesOf back := by
  rw [bytesOf, List.map_cons, List.sum_cons, bytesOf]

@[simp] theorem bytesOf_append : bytesOf (front ++ back) = bytesOf front + bytesOf back := by
  rw [bytesOf, List.map_append, List.sum_append, bytesOf, bytesOf]

/-- Every size up to the decision about the user constants is a word: the running total, as long as
the budget is kept in front of it, and the total together with the index table. -/
structure SizesFit (d : Declarations) : Prop where
  constants : ∀ front m back, d.backed d.resources = front ++ m :: back → bytesOf front ≤ 128 →
    bytesOf front + m.2.exactSize < Word.bound
  table : bytesOf (d.backed d.resources) ≤ 128 →
    4 * (d.resources.filter fun r => !r.isConstants).length + bytesOf (d.backed d.resources) <
      Word.bound

theorem sizesFit_of_lt {d : Declarations}
    (h : 4 * (d.resources.filter fun r => !r.isConstants).length +
      bytesOf (d.backed d.resources) < Word.bound) : d.SizesFit where
  constants front m back hsplit _ := by
    rw [hsplit, bytesOf_append, bytesOf_cons] at h
    omega
  table _ := h

/-- Constants that exceed what is left of the budget do so first at one of them. -/
theorem exists_first_exceeding {n : Nat} (hn : n ≤ 128) (h : 128 < n + bytesOf members) :
    ∃ front m back, members = front ++ m :: back ∧ n + bytesOf front ≤ 128 ∧
      128 < n + bytesOf front + m.2.exactSize := by
  induction members generalizing n with
  | nil => exact absurd h (Nat.not_lt.2 hn)
  | cons first rest ih =>
    by_cases hfirst : n + first.2.exactSize ≤ 128
    · rw [bytesOf_cons, ← Nat.add_assoc] at h
      obtain ⟨front, m, back, rfl, hfront, hm⟩ := ih hfirst h
      refine ⟨first :: front, m, back, rfl, ?_, ?_⟩ <;> rwa [bytesOf_cons, ← Nat.add_assoc]
    · exact ⟨[], first, rest, rfl, hn, Nat.not_le.1 hfirst⟩

theorem size?_of_mem_backed {includes : Includes} {file source : String} {d : Declarations}
    (hd : ofRoot includes file source = .ok d) (hm : m ∈ d.backed d.resources) :
    m.2.size? = Word.ofNat? m.2.exactSize :=
  Struct.size?_eq (shaped_of_mem hd (mem_of_elementStruct? (mem_backed.1 hm).2.2))

end Declarations

/-! ## Collecting against the budget -/

namespace UserConstants

open Declarations

variable {d : Declarations} {file : String} {u : UserConstants}
  {members front back : List (Resource × Struct)} {m : Resource × Struct}

/-- Collecting goes through the constants whose struct is known. -/
theorem ofDeclarations_eq : ofDeclarations file d =
    (d.backed d.resources).foldlM (fun u m => u.addField file m.1 m.2) {} := by
  rw [ofDeclarations, backed]
  generalize ({} : UserConstants) = u
  induction d.resources.filter Resource.isConstants generalizing u with
  | nil => rfl
  | cons r rest ih =>
    rw [List.foldlM_cons, List.filterMap_cons, add]
    cases d.elementStruct? r with
    | none => exact ih u
    | some s =>
      rw [Option.map_some, List.foldlM_cons]
      exact congrArg _ (funext ih)

/-- The rejection of a constant buffer with which the user constants come to a size. -/
def exceeding (file : String) (r : Resource) (size : Nat) : Stop :=
  .rejected ⟨file, .point r.location, .constantsOverflow size.toUInt32 budget⟩

/-- A struct of the root file whose size is computed as a number. -/
structure Sized (s : Struct) : Prop where
  inRoot : s.range.isSome
  size? : s.size? = Word.ofNat? s.exactSize

/-- Adding a field is decided by the exact total. -/
theorem addField_eq (hm : Sized m.2) : u.addField file m.1 m.2 =
    (Stop.fitting (Word.ofNat? (u.size.toNat + m.2.exactSize))).bind fun total =>
      if budget < total then
        .error (.rejected ⟨file, .point m.1.location, .constantsOverflow total budget⟩)
      else .ok {
        structs := if u.structs.contains m.2 then u.structs else u.structs ++ [m.2]
        fields := u.fields ++ [⟨m.2.name, m.1.name⟩]
        size := total } := by
  have hnone : ¬m.2.range.isNone = true := by
    rw [Option.isNone_eq_false_iff.2 hm.inRoot]
    exact Bool.false_ne_true
  rw [addField, if_neg hnone, hm.size?]
  by_cases hsize : m.2.exactSize < Word.bound
  · rw [Word.ofNat?_eq_some hsize]
    simp only [Stop.fitting, bind, Except.bind, Word.add?_toUInt32 hsize]
    rfl
  · rw [Word.ofNat?_eq_none (Nat.not_lt.1 hsize), Word.ofNat?_eq_none (by omega)]
    rfl

theorem budget_lt_iff {n : Nat} (h : n < Word.bound) : budget < n.toUInt32 ↔ 128 < n := by
  rw [UInt32.lt_iff_toNat_lt, Word.toNat_toUInt32 h]
  exact Iff.rfl

theorem addField_eq_overflow (hm : Sized m.2)
    (h : Word.bound ≤ u.size.toNat + m.2.exactSize) :
    u.addField file m.1 m.2 = .error .overflow := by
  rw [addField_eq hm, Word.ofNat?_eq_none h]
  rfl

theorem addField_eq_exceeding (hm : Sized m.2) (hlt : 128 < u.size.toNat + m.2.exactSize)
    (h : u.size.toNat + m.2.exactSize < Word.bound) :
    u.addField file m.1 m.2 = .error (exceeding file m.1 (u.size.toNat + m.2.exactSize)) := by
  rw [addField_eq hm, Word.ofNat?_eq_some h]
  exact if_pos ((budget_lt_iff h).2 hlt)

theorem exists_addField_eq_ok (file : String) (hm : Sized m.2)
    (hle : u.size.toNat + m.2.exactSize ≤ 128) :
    ∃ u', u.addField file m.1 m.2 = .ok u' ∧
      u'.size.toNat = u.size.toNat + m.2.exactSize := by
  have h : u.size.toNat + m.2.exactSize < Word.bound := Nat.lt_of_le_of_lt hle (by decide)
  rw [addField_eq hm, Word.ofNat?_eq_some h]
  exact ⟨_, if_neg (mt (budget_lt_iff h).1 (Nat.not_lt.2 hle)), Word.toNat_toUInt32 h⟩

theorem exists_foldlM_eq_ok (file : String) (hm : ∀ m ∈ members, Sized m.2)
    (hle : u.size.toNat + bytesOf members ≤ 128) :
    ∃ u', members.foldlM (fun u m => u.addField file m.1 m.2) u = .ok u' ∧
      u'.size.toNat = u.size.toNat + bytesOf members := by
  induction members generalizing u with
  | nil => exact ⟨u, rfl, rfl⟩
  | cons first rest ih =>
    obtain ⟨hfirst, hrest⟩ := List.forall_mem_cons.1 hm
    rw [bytesOf_cons, ← Nat.add_assoc] at hle
    have hle₁ : u.size.toNat + first.2.exactSize ≤ 128 := Nat.le_trans (Nat.le_add_right ..) hle
    obtain ⟨u₁, h₁, hs₁⟩ := exists_addField_eq_ok file hfirst hle₁
    obtain ⟨u₂, h₂, hs₂⟩ := ih hrest (hs₁ ▸ hle)
    refine ⟨u₂, ?_, by rw [hs₂, hs₁, bytesOf_cons, Nat.add_assoc]⟩
    rw [List.foldlM_cons, h₁]
    exact h₂

/-- Collecting stops where adding a field stops. -/
theorem ofDeclarations_eq_error {stop : Stop} (hm : ∀ m ∈ d.backed d.resources, Sized m.2)
    (hsplit : d.backed d.resources = front ++ m :: back) (hfront : bytesOf front ≤ 128)
    (hstop : ∀ u : UserConstants, u.size.toNat = bytesOf front →
      u.addField file m.1 m.2 = .error stop) :
    ofDeclarations file d = .error stop := by
  rw [ofDeclarations_eq, hsplit]
  have hfront' : ∀ m ∈ front, Sized m.2 := fun m hmem =>
    hm m (hsplit ▸ List.mem_append_left _ hmem)
  obtain ⟨u, hu, hsize⟩ := exists_foldlM_eq_ok (u := {}) file hfront'
    ((Nat.zero_add _).symm ▸ hfront)
  have hadd := hstop u (hsize.trans (Nat.zero_add _))
  rw [List.foldlM_append, hu]
  simp only [bind, Except.bind, List.foldlM_cons, hadd]

theorem exists_ofDeclarations (file : String) (hm : ∀ m ∈ d.backed d.resources, Sized m.2)
    (hle : bytesOf (d.backed d.resources) ≤ 128) :
    ∃ u, ofDeclarations file d = .ok u ∧ u.size.toNat = bytesOf (d.backed d.resources) := by
  obtain ⟨u, hu, hsize⟩ := exists_foldlM_eq_ok (u := {}) file hm ((Nat.zero_add _).symm ▸ hle)
  exact ⟨u, ofDeclarations_eq.trans hu, hsize.trans (Nat.zero_add _)⟩

end UserConstants

/-! ## Laying out the table -/

theorem Stop.eq_overflow_or_of_bind {α β : Type} {x : Option α} {f : α → Except Stop β}
    {stop : Stop} (h : (fitting x >>= f) = .error stop) :
    stop = .overflow ∨ ∃ a, x = some a ∧ f a = .error stop := by
  cases x with
  | none =>
    cases h
    exact .inl rfl
  | some a => exact .inr ⟨a, rfl, h⟩

namespace ConstantsLayout

variable {resources : List Resource} {size : UInt32}

theorem exists_ofResources
    (h : 4 * (Resource.slotted resources).length + size.toNat < Word.bound) :
    ∃ layout, ofResources resources size = .ok layout := by
  have hcount : (Resource.slotted resources).length < Word.bound := by omega
  have htable : (Resource.slotted resources).length * slotSize.toNat < Word.bound := by
    change _ * 4 < _
    omega
  have htotal : (Resource.slotted resources).length * slotSize.toNat + size.toNat <
      Word.bound := by
    change _ * 4 + _ < _
    omega
  simp only [ofResources, Word.ofNat?_eq_some hcount, Stop.fitting, bind, Except.bind, Word.mul?,
    Word.toNat_toUInt32 hcount, Word.ofNat?_eq_some htable]
  split
  · exact ⟨_, rfl⟩
  · rw [Word.add?, Word.toNat_toUInt32 htable, Word.ofNat?_eq_some htotal]
    exact ⟨_, rfl⟩

theorem eq_overflow_of_ofResources {stop : Stop} (h : ofResources resources size = .error stop) :
    stop = .overflow := by
  rcases Stop.eq_overflow_or_of_bind h with h | ⟨count, _, h⟩
  · exact h
  · rcases Stop.eq_overflow_or_of_bind h with h | ⟨tableSize, _, h⟩
    · exact h
    · split at h
      · cases h
      · rcases Stop.eq_overflow_or_of_bind h with h | ⟨total, _, h⟩
        · exact h
        · cases h

theorem ofResources_eq_overflow
    (h : Word.bound ≤ 4 * (Resource.slotted resources).length + size.toNat) :
    ofResources resources size = .error .overflow := by
  cases hl : ofResources resources size with
  | error stop => rw [eq_overflow_of_ofResources hl]
  | ok layout =>
    have hlays := lays_of_ofResources hl
    cases layout with
    | none =>
      rw [hlays.none_iff.1 rfl] at h
      exact absurd (Nat.lt_of_lt_of_le size.toNat_lt h) (by simp [Resource.slotted])
    | some l =>
      have := hlays.total_lt l rfl
      rw [hlays.tableSize l rfl] at this
      exact absurd this (Nat.not_lt.2 h)

end ConstantsLayout

/-! ## The decision -/

namespace Shader

open Declarations

/-- The outcome of generation, decided by the exact size of the user constants. -/
structure KeepsBudget (file : String) (d : Declarations) (outcome : Except Stop Shader) :
    Prop where
  accepted : d.SizesFit → bytesOf (d.backed d.resources) ≤ 128 →
    ∃ shader, outcome = .ok shader ∧
      shader.constantsSize.toNat = bytesOf (d.backed d.resources)
  rejected : d.SizesFit → 128 < bytesOf (d.backed d.resources) →
    ∃ front m back, d.backed d.resources = front ++ m :: back ∧ bytesOf front ≤ 128 ∧
      128 < bytesOf front + m.2.exactSize ∧
      outcome = .error (UserConstants.exceeding file m.1 (bytesOf front + m.2.exactSize))
  stopped : ¬d.SizesFit → outcome = .error .overflow
  exact : ∀ shader, outcome = .ok shader →
    shader.constantsSize.toNat = bytesOf (d.backed d.resources) ∧
      bytesOf (d.backed d.resources) ≤ 128

variable {includes : Includes} {file source : String} {d : Declarations}

theorem ofSource_eq_generate (hd : ofRoot includes file source = .ok d) :
    ofSource includes file source = generate file source d := by
  rw [ofSource, hd]
  rfl

theorem generate_eq_error_of_constants {stop : Stop}
    (h : UserConstants.ofDeclarations file d = .error stop) :
    generate file source d = .error stop := by
  rw [generate, h]
  rfl

theorem generate_eq_error_of_layout {stop : Stop} {u : UserConstants}
    (hu : UserConstants.ofDeclarations file d = .ok u)
    (h : ConstantsLayout.ofResources d.resources u.size = .error stop) :
    generate file source d = .error stop := by
  rw [← ConstantsLayout.ofResources_table] at h
  simp only [generate, hu, bind, Except.bind, h]

theorem total_eq_bytesOf {members : List (Resource × Struct)}
    (hs : ∀ m ∈ members, m.2.size? = Word.ofNat? m.2.exactSize)
    (hsome : ∀ m ∈ members, m.2.size?.isSome) :
    Word.total (members.map fun m => m.2.size?.getD 0) = bytesOf members := by
  induction members with
  | nil => rfl
  | cons m rest ih =>
    obtain ⟨hm, hrest⟩ := List.forall_mem_cons.1 hs
    obtain ⟨hmsome, hrestsome⟩ := List.forall_mem_cons.1 hsome
    obtain ⟨size, hsize⟩ := Option.isSome_iff_exists.1 hmsome
    rw [bytesOf_cons, ← ih hrest hrestsome, ← Word.toNat_of_ofNat? (hm.symm.trans hsize),
      List.map_cons, hsize]
    rfl

/-- The size that a generated shader reports is exact. -/
theorem constantsSize_eq {shader : Shader} (hd : ofRoot includes file source = .ok d)
    (h : generate file source d = .ok shader) :
    shader.constantsSize.toNat = bytesOf (d.backed d.resources) ∧
      bytesOf (d.backed d.resources) ≤ 128 := by
  obtain ⟨p, hc, _, _, _, _, hshader⟩ := generate_eq_ok h
  have hcollects := UserConstants.collects_of_ofDeclarations hc
  have hsize : p.constants.size.toNat = bytesOf (d.backed d.resources) := by
    rw [hcollects.size]
    exact total_eq_bytesOf (fun m hm => size?_of_mem_backed hd hm) hcollects.sized
  rw [hshader]
  exact ⟨hsize, hsize ▸ UInt32.le_iff_toNat_le.1 hcollects.size_le⟩

/-- Once the user constants are collected, only the size of the table can stop generation. -/
theorem exists_ofSource_of_constants {u : UserConstants}
    (hd : ofRoot includes file source = .ok d)
    (hu : UserConstants.ofDeclarations file d = .ok u)
    (h : 4 * (Resource.slotted d.resources).length + u.size.toNat < Word.bound) :
    ∃ shader, ofSource includes file source = .ok shader := by
  obtain ⟨layout, hl⟩ := ConstantsLayout.exists_ofResources h
  have hplanned : planned includes file source = .ok layout := by
    rw [planned, Stop.mapError_eq_ok.2 hd]
    simp only [bind, Except.bind, hu, hl]
  exact exists_ofSource hplanned

theorem exists_generate (hd : ofRoot includes file source = .ok d)
    (hm : ∀ m ∈ d.backed d.resources, UserConstants.Sized m.2) (hfit : d.SizesFit)
    (hle : bytesOf (d.backed d.resources) ≤ 128) :
    ∃ shader, generate file source d = .ok shader := by
  obtain ⟨u, hu, hsize⟩ := UserConstants.exists_ofDeclarations file hm hle
  obtain ⟨shader, hs⟩ := exists_ofSource_of_constants hd hu (hsize ▸ hfit.table hle)
  exact ⟨shader, ofSource_eq_generate hd ▸ hs⟩

theorem generate_eq_exceeding (hm : ∀ m ∈ d.backed d.resources, UserConstants.Sized m.2)
    (hfit : d.SizesFit) {front back : List (Resource × Struct)} {m : Resource × Struct}
    (hsplit : d.backed d.resources = front ++ m :: back) (hfront : bytesOf front ≤ 128)
    (hexceeds : 128 < bytesOf front + m.2.exactSize) :
    generate file source d =
      .error (UserConstants.exceeding file m.1 (bytesOf front + m.2.exactSize)) := by
  have hmem : m ∈ d.backed d.resources := hsplit ▸ List.mem_append_cons_self
  refine generate_eq_error_of_constants
    (UserConstants.ofDeclarations_eq_error hm hsplit hfront fun u hu => ?_)
  rw [← hu] at hexceeds ⊢
  exact UserConstants.addField_eq_exceeding (hm m hmem) hexceeds
    (hu ▸ hfit.constants front m back hsplit hfront)

theorem generate_eq_overflow (hm : ∀ m ∈ d.backed d.resources, UserConstants.Sized m.2)
    (hfit : ¬d.SizesFit) : generate file source d = .error .overflow := by
  by_cases hconstants : ∀ front m back, d.backed d.resources = front ++ m :: back →
      bytesOf front ≤ 128 → bytesOf front + m.2.exactSize < Word.bound
  · -- The constants are collected, and their total does not fit beside the table.
    obtain ⟨hle, hbound⟩ : bytesOf (d.backed d.resources) ≤ 128 ∧ Word.bound ≤
        4 * (Resource.slotted d.resources).length + bytesOf (d.backed d.resources) := by
      refine Decidable.byContradiction fun hn => hfit ⟨hconstants, fun hle => ?_⟩
      exact Nat.not_le.1 fun hge => hn ⟨hle, hge⟩
    obtain ⟨u, hu, hsize⟩ := UserConstants.exists_ofDeclarations file hm hle
    rw [← hsize] at hbound
    exact generate_eq_error_of_layout hu (ConstantsLayout.ofResources_eq_overflow hbound)
  · obtain ⟨front, m, back, hsplit, hfront, hbound⟩ : ∃ front m back,
        d.backed d.resources = front ++ m :: back ∧ bytesOf front ≤ 128 ∧
        Word.bound ≤ bytesOf front + m.2.exactSize := by
      simpa only [Classical.not_forall, Nat.not_lt, exists_prop] using hconstants
    have hmem : m ∈ d.backed d.resources := hsplit ▸ List.mem_append_cons_self
    refine generate_eq_error_of_constants
      (UserConstants.ofDeclarations_eq_error hm hsplit hfront fun u hu => ?_)
    rw [← hu] at hbound
    exact UserConstants.addField_eq_overflow (hm m hmem) hbound

theorem keepsBudget_ofRoot (hd : ofRoot includes file source = .ok d)
    (hroot : ∀ m ∈ d.backed d.resources, m.2.range.isSome) :
    KeepsBudget file d (ofSource includes file source) := by
  have hsized : ∀ m ∈ d.backed d.resources, UserConstants.Sized m.2 := fun m hm =>
    ⟨hroot m hm, size?_of_mem_backed hd hm⟩
  rw [ofSource_eq_generate hd]
  exact {
    accepted := fun hfit hle => by
      obtain ⟨shader, h⟩ := exists_generate hd hsized hfit hle
      exact ⟨shader, h, (constantsSize_eq hd h).1⟩
    rejected := fun hfit hlt => by
      obtain ⟨front, m, back, hsplit, hfront, hexceeds⟩ :=
        exists_first_exceeding (Nat.zero_le 128) (by rwa [Nat.zero_add])
      rw [Nat.zero_add] at hfront hexceeds
      exact ⟨front, m, back, hsplit, hfront, hexceeds,
        generate_eq_exceeding hsized hfit hsplit hfront hexceeds⟩
    stopped := generate_eq_overflow hsized
    exact := fun shader h => constantsSize_eq hd h }

theorem exists_keepsBudget :
    let source := "struct A \x7b float4 x[7]; float3 y; \x7d;\nstruct B \x7b float z; \x7d;\n" ++
      "Texture2D t;\n[constants] ConstantBuffer<A> a;\n[constants] ConstantBuffer<U> u;\n" ++
      "[constants] ConstantBuffer<B> b;\n"
    ∃ d, ofRoot (.ofFiles []) "f" source = .ok d ∧
      (∀ m ∈ d.backed d.resources, m.2.range.isSome) ∧
      KeepsBudget "f" d (ofSource (.ofFiles []) "f" source) ∧
      d.SizesFit ∧ bytesOf (d.backed d.resources) = 128 := by
  intro source
  obtain ⟨d, hd, hroot, hslots, hbytes⟩ : ∃ d ∈ (ofRoot (.ofFiles []) "f" source).toOption,
      (∀ m ∈ d.backed d.resources, m.2.range.isSome) ∧
      (d.resources.filter fun r => !r.isConstants).length = 1 ∧
      bytesOf (d.backed d.resources) = 128 := by
    decide +kernel
  have hd : ofRoot (.ofFiles []) "f" source = .ok d := eq_ok_of_mem_toOption hd
  refine ⟨d, hd, hroot, keepsBudget_ofRoot hd hroot, sizesFit_of_lt ?_, hbytes⟩
  rw [hslots, hbytes]
  decide

/-- A member of 4294967296 bytes. They are more than the budget, and the shader is not rejected for
it: their number is no word. -/
theorem oversized_member_overflows :
    let source := "struct S \x7b float4 a[268435456]; \x7d;\n[constants] ConstantBuffer<S> c;\n"
    ∃ d, ofRoot (.ofFiles []) "f.hlsl" source = .ok d ∧
      (∀ m ∈ d.backed d.resources, m.2.range.isSome) ∧
      bytesOf (d.backed d.resources) = 4294967296 ∧
      ofSource (.ofFiles []) "f.hlsl" source = .error .overflow := by
  intro source
  obtain ⟨d, hd, hroot, hbytes⟩ : ∃ d ∈ (ofRoot (.ofFiles []) "f.hlsl" source).toOption,
      (∀ m ∈ d.backed d.resources, m.2.range.isSome) ∧
      bytesOf (d.backed d.resources) = 4294967296 := by
    decide +kernel
  have hoverflow : ofSource (.ofFiles []) "f.hlsl" source = .error .overflow := by decide +kernel
  exact ⟨d, eq_ok_of_mem_toOption hd, hroot, hbytes, hoverflow⟩

end Shader

end BindlessHlsl
