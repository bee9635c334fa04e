import BindlessHlsl.NameMap

/-!
What a map from names holds after insertions: an entry that was inserted under its name, or one from
before under another name (`NameMap.mem_insert`, `NameMap.mem_insertAll`).
-/

namespace BindlessHlsl

namespace NameMap

variable {α : Type} {name : String} {value : α} {e : String × α}

theorem mem_insertEntry_iff {entries : List (String × α)}
    (h : entries.Pairwise fun a b => a.1 < b.1) :
    e ∈ insertEntry name value entries ↔ e = (name, value) ∨ e ∈ entries ∧ e.1 ≠ name := by
  induction entries with
  | nil => simp [insertEntry]
  | cons entry rest ih =>
    obtain ⟨hfirst, hrest⟩ := List.pairwise_cons.1 h
    unfold insertEntry
    split
    next hlt =>
      -- All names of the list come after the new one.
      have hne : ∀ e ∈ entry :: rest, e.1 ≠ name := by
        intro e he heq
        rcases List.mem_cons.1 he with rfl | he
        · exact String.lt_irrefl _ (heq ▸ hlt)
        · exact String.lt_irrefl _ (heq ▸ String.lt_trans hlt (hfirst e he))
      rw [List.mem_cons]
      exact or_congr_right ⟨fun he => ⟨he, hne e he⟩, And.left⟩
    next =>
      split
      next heq =>
        have hne : ∀ e ∈ rest, e.1 ≠ name := fun e he hn =>
          String.lt_irrefl _ (hn ▸ heq ▸ hfirst e he)
        rw [List.mem_cons, List.mem_cons]
        refine or_congr_right ⟨fun he => ⟨.inr he, hne e he⟩, ?_⟩
        rintro ⟨rfl | he, hn⟩
        · exact absurd heq.symm hn
        · exact he
      next hne =>
        rw [List.mem_cons, ih hrest, List.mem_cons]
        constructor
        · rintro (rfl | he | ⟨he, hn⟩)
          · exact .inr ⟨.inl rfl, Ne.symm hne⟩
          · exact .inl he
          · exact .inr ⟨.inr he, hn⟩
        · rintro (he | ⟨rfl | he, hn⟩)
          · exact .inr (.inl he)
          · exact .inl rfl
          · exact .inr (.inr ⟨he, hn⟩)

theorem mem_insert {m : NameMap α} :
    e ∈ (m.insert name value).entries ↔ e = (name, value) ∨ e ∈ m.entries ∧ e.1 ≠ name :=
  mem_insertEntry_iff m.sorted

theorem mem_names_insertAll {m : NameMap α} {entries : List (String × α)} :
    name ∈ (m.insertAll entries).names ↔ name ∈ m.names ∨ name ∈ entries.map Prod.fst := by
  induction entries generalizing m with
  | nil => simp [insertAll]
  | cons entry rest ih =>
    have hinsert : name ∈ (m.insert entry.1 entry.2).names ↔ name = entry.1 ∨ name ∈ m.names := by
      simp only [names, List.mem_map, mem_insert]
      constructor
      · rintro ⟨e, rfl | ⟨he, _⟩, rfl⟩
        · exact .inl rfl
        · exact .inr ⟨e, he, rfl⟩
      · rintro (rfl | ⟨e, he, rfl⟩)
        · exact ⟨_, .inl rfl, rfl⟩
        · by_cases hn : e.1 = entry.1
          · exact ⟨_, .inl rfl, hn.symm⟩
          · exact ⟨e, .inr ⟨he, hn⟩, rfl⟩
    change name ∈ ((m.insert entry.1 entry.2).insertAll rest).names ↔ _
    rw [ih, hinsert, List.map_cons, List.mem_cons, or_comm (a := name = entry.1), or_assoc]

/-- Entries under names of their own are all kept. -/
theorem mem_insertAll {m : NameMap α} {entries : List (String × α)}
    (h : (entries.map Prod.fst).Nodup) :
    e ∈ (m.insertAll entries).entries ↔
      e ∈ entries ∨ e ∈ m.entries ∧ e.1 ∉ entries.map Prod.fst := by
  induction entries generalizing m with
  | nil => simp [insertAll]
  | cons entry rest ih =>
    obtain ⟨hfirst, hrest⟩ := List.nodup_cons.1 h
    change e ∈ ((m.insert entry.1 entry.2).insertAll rest).entries ↔ _
    rw [ih hrest, mem_insert, List.map_cons, List.mem_cons, List.mem_cons, not_or]
    constructor
    · rintro (he | ⟨rfl | ⟨he, hn⟩, hr⟩)
      · exact .inl (.inr he)
      · exact .inl (.inl rfl)
      · exact .inr ⟨he, hn, hr⟩
    · rintro ((rfl | he) | ⟨he, hn, hr⟩)
      · exact .inr ⟨.inl rfl, hfirst⟩
      · exact .inl he
      · exact .inr ⟨.inr ⟨he, hn⟩, hr⟩

theorem entries_eq_singleton {m : NameMap α} (he : e ∈ m.entries)
    (h : ∀ e' ∈ m.entries, e'.1 = e.1) : m.entries = [e] := by
  have hs := m.sorted
  generalize m.entries = entries at he h hs
  match entries with
  | [] => cases he
  | [first] => rw [List.mem_singleton.1 he]
  | first :: second :: rest =>
    have hlt := (List.pairwise_cons.1 hs).1 second List.mem_cons_self
    rw [h first List.mem_cons_self, h second (List.mem_cons_of_mem _ List.mem_cons_self)] at hlt
    exact absurd hlt (String.lt_irrefl _)

theorem insertEntry_of_lt {entries : List (String × α)} (h : ∀ e ∈ entries, e.1 < name) :
    insertEntry name value entries = entries ++ [(name, value)] := by
  induction entries with
  | nil => rfl
  | cons entry rest ih =>
    obtain ⟨hentry, hrest⟩ := List.forall_mem_cons.1 h
    have hlt : ¬name < entry.1 := fun hlt => String.lt_irrefl _ (String.lt_trans hlt hentry)
    have hne : name ≠ entry.1 := fun heq => String.lt_irrefl _ (heq ▸ hentry)
    rw [insertEntry, if_neg hlt, if_neg hne, ih hrest, List.cons_append]

/-- Entries in order are put behind one another. -/
theorem entries_insertAll {m : NameMap α} {entries : List (String × α)}
    (h : (m.entries ++ entries).Pairwise fun a b => a.1 < b.1) :
    (m.insertAll entries).entries = m.entries ++ entries := by
  induction entries generalizing m with
  | nil => rw [List.append_nil]; rfl
  | cons entry rest ih =>
    have hinsert : (m.insert entry.1 entry.2).entries = m.entries ++ [entry] :=
      insertEntry_of_lt fun e he => (List.pairwise_append.1 h).2.2 e he entry List.mem_cons_self
    change ((m.insert entry.1 entry.2).insertAll rest).entries = _
    rw [ih, hinsert, List.append_assoc, List.singleton_append]
    rwa [hinsert, List.append_assoc, List.singleton_append]

theorem eq_of_entries {m m' : NameMap α} (h : m.entries = m'.entries) : m = m' := by
  cases m
  cases m'
  cases h
  rfl

theorem insertAll_entries (m : NameMap α) : empty.insertAll m.entries = m :=
  eq_of_entries (entries_insertAll m.sorted)

end NameMap

theorem NameSet.ofList_names (s : NameSet) : NameSet.ofList s.names = s := by
  have hnames : (s.names.map fun name => (name, ())) = s.entries := by
    rw [NameMap.names, List.map_map]
    exact List.map_id' _
  rw [ofList, hnames, NameMap.insertAll_entries]

theorem NameSet.mem_ofList {name : String} {names : List String} :
    name ∈ (NameSet.ofList names).names ↔ name ∈ names := by
  rw [NameSet.ofList, NameMap.mem_names_insertAll, List.map_map]
  simp [NameMap.empty, NameMap.names]

end BindlessHlsl
