import BindlessHlsl.Proofs.Generation

/-!
What collecting the user constants comes to when nothing is rejected (`UserConstants.Collects`): a
field for each constant buffer whose struct is known, in the order of declaration, with the sizes
summed up.
-/

namespace BindlessHlsl

/-- The sum of a list as a number, which may be no word. -/
def Word.total (words : List UInt32) : Nat := words.foldr (fun w n => w.toNat + n) 0

theorem Word.total_append (as bs : List UInt32) : total (as ++ bs) = total as + total bs := by
  induction as with
  | nil => simp [total]
  | cons a as ih =>
    simp only [total, List.cons_append, List.foldr_cons] at ih ⊢
    omega

/-- The user constants among resources with their structs, in the order of the resources. -/
def Declarations.backed (d : Declarations) (resources : List Resource) :
    List (Resource × Struct) :=
  (resources.filter Resource.isConstants).filterMap fun r =>
    (d.elementStruct? r).map fun s => (r, s)

theorem Declarations.mem_backed {d : Declarations} {resources : List Resource}
    {m : Resource × Struct} :
    m ∈ d.backed resources ↔
      m.1 ∈ resources ∧ m.1.isConstants = true ∧ d.elementStruct? m.1 = some m.2 := by
  obtain ⟨r, s⟩ := m
  simp only [backed, List.mem_filterMap, List.mem_filter, Option.map_eq_some_iff, Prod.mk.injEq]
  constructor
  · rintro ⟨_, hr, _, hs, rfl, rfl⟩
    exact ⟨hr.1, hr.2, hs⟩
  · rintro ⟨hr, hc, hs⟩
    exact ⟨r, ⟨hr, hc⟩, s, hs, rfl, rfl⟩

theorem Declarations.mem_of_elementStruct? {d : Declarations} {r : Resource} {s : Struct}
    (h : d.elementStruct? r = some s) : s ∈ d.structs := by
  obtain ⟨name, _, hs⟩ := Option.bind_eq_some_iff.1 h
  exact List.mem_of_find?_eq_some hs

namespace UserConstants

/-- User constants that hold these resources with their structs. -/
structure Collects (members : List (Resource × Struct)) (u : UserConstants) : Prop where
  fields : u.fields = members.map fun m => ⟨m.2.name, m.1.name⟩
  sized : ∀ m ∈ members, m.2.size?.isSome
  size : u.size.toNat = Word.total (members.map fun m => m.2.size?.getD 0)
  size_le : u.size ≤ budget
  structs : ∀ s, s ∈ u.structs ↔ ∃ m ∈ members, m.2 = s
  inRoot : ∀ m ∈ members, m.2.range.isSome

variable {d : Declarations} {file : String} {u u' : UserConstants}
  {members : List (Resource × Struct)} {r : Resource}

theorem collects_nil : Collects [] {} where
  fields := rfl
  sized := by simp
  size := rfl
  size_le := by decide
  structs := by simp
  inRoot := by simp

theorem mem_addStruct {structs : List Struct} {s t : Struct} :
    t ∈ (if structs.contains s then structs else structs ++ [s]) ↔ t ∈ structs ∨ t = s := by
  split
  next hc =>
    have hs : s ∈ structs := by simpa using hc
    exact ⟨.inl, fun ht => ht.elim id fun he => he ▸ hs⟩
  next => simp

theorem Collects.addField {s : Struct} (hu : Collects members u)
    (h : u.addField file r s = .ok u') : Collects (members ++ [(r, s)]) u' := by
  unfold UserConstants.addField at h
  split at h
  · cases h
  next hrange =>
    simp only [Stop.bind_eq_ok, Stop.fitting_eq_ok] at h
    obtain ⟨size, hs, total, ht, h⟩ := h
    split at h
    · cases h
    next hle =>
      cases h
      exact {
        fields := by simp [hu.fields]
        sized := List.forall_mem_append.2 ⟨hu.sized, by simp [hs]⟩
        size := by
          rw [Word.toNat_of_add? ht, hu.size, List.map_append, Word.total_append, List.map_cons, hs]
          rfl
        size_le := by simpa using hle
        structs := fun t => by
          rw [mem_addStruct, hu.structs]
          simp only [List.mem_append, List.mem_singleton, or_and_right, exists_or, exists_eq_left]
          exact or_congr_right eq_comm
        inRoot := List.forall_mem_append.2 ⟨hu.inRoot, by
          simpa [Option.isSome_iff_ne_none] using hrange⟩ }

theorem Collects.add (hu : Collects members u) (h : add d file u r = .ok u') :
    Collects (members ++ ((d.elementStruct? r).map fun s => (r, s)).toList) u' := by
  unfold UserConstants.add at h
  cases hs : d.elementStruct? r with
  | none =>
    rw [hs] at h
    cases h
    simpa using hu
  | some s =>
    rw [hs] at h
    exact hu.addField h

theorem collects_of_foldlM {resources : List Resource} (hu : Collects members u)
    (h : resources.foldlM (UserConstants.add d file) u = .ok u') :
    Collects (members ++ resources.filterMap fun r => (d.elementStruct? r).map fun s => (r, s))
      u' := by
  induction resources generalizing members u with
  | nil =>
    cases h
    simpa using hu
  | cons r rest ih =>
    rw [List.foldlM_cons, Stop.bind_eq_ok] at h
    obtain ⟨u₁, h₁, h⟩ := h
    have := ih (hu.add h₁) h
    rw [List.append_assoc] at this
    rw [List.filterMap_cons]
    cases hs : d.elementStruct? r <;> simpa [hs] using this

theorem collects_of_ofDeclarations (h : ofDeclarations file d = .ok u) :
    Collects (d.backed d.resources) u :=
  collects_of_foldlM collects_nil h

theorem structs_subset (h : ofDeclarations file d = .ok u) : u.structs ⊆ d.structs := by
  intro s hs
  obtain ⟨m, hm, rfl⟩ := ((collects_of_ofDeclarations h).structs s).1 hs
  exact Declarations.mem_of_elementStruct? (Declarations.mem_backed.1 hm).2.2

end UserConstants

end BindlessHlsl
