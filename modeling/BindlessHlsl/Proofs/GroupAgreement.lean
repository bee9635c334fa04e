import BindlessHlsl.Proofs.IncludeStack
import BindlessHlsl.Proofs.InspectionSteps

/-!
The bind groups of a shader beside those that an inspection of it finds. A shader has the groups
that the texts it goes through declare. An inspection goes through the same texts, and finds each of
those groups whose name it accepts, unless it misses the directive that declares the group or one
that includes a file on the way (`Shader.group_mem_or_loses`). It does not skip string literals, so
a literal can hide a group from it (`Shader.literal_hides_group`).
-/

namespace BindlessHlsl

open Relation

/-! ## The groups of a shader -/

/-- A bind group that was gathered is declared by an item. -/
theorem Declarations.Gathers.exists_of_mem_groups {d d' : Declarations} {entries : List Entry}
    {g : BindGroup} (h : Gathers d entries d') (hg : g ∈ d'.groups.groups) :
    g ∈ d.groups.groups ∨
      ∃ e ∈ entries, ∃ place range, e.item = .bindGroup g.name place range := by
  induction h with
  | nil => exact .inl hg
  | @cons d d₁ d₂ e rest ha _ ih =>
    rcases ih hg with hg | ⟨e', he', hitem⟩
    · generalize hi : e.item = item at ha
      cases ha with
      | @bindGroup name place range groups hinsert =>
        unfold BindGroups.insert? at hinsert
        split at hinsert
        · cases hinsert
        · cases hinsert
          rcases BindGroups.mem_place.1 hg with rfl | hg
          · exact .inr ⟨e, List.mem_cons_self, place, range, hi⟩
          · exact .inl hg
      | _ => exact .inl hg
    · exact .inr ⟨e', List.mem_cons_of_mem _ he', hitem⟩

/-! ## The groups that an inspection finds -/

theorem FileRecord.mem_groups_ofText {name text : String} :
    name ∈ (FileRecord.ofText text).groups.names ↔ .bindGroup name ∈ Note.ofText text := by
  rw [FileRecord.ofText, FileRecord.ofNotes, NameSet.mem_ofList, List.mem_filterMap]
  constructor
  · rintro ⟨note, hm, he⟩
    cases note <;> cases he
    exact hm
  · exact fun hm => ⟨_, hm, rfl⟩

namespace Inspection

variable {includes : Includes} {file source name text : String}

theorem mem_groups_iff {i : Inspection} :
    name ∈ i.groups ↔ ∃ e ∈ i.files.entries, name ∈ e.2.groups.names := by
  rw [groups, NameSet.mem_ofList, List.mem_flatMap, NameMap.values]
  constructor
  · rintro ⟨record, hm, hn⟩
    obtain ⟨e, he, rfl⟩ := List.mem_map.1 hm
    exact ⟨e, he, hn⟩
  · rintro ⟨e, he, hn⟩
    exact ⟨e.2, List.mem_map_of_mem he, hn⟩

/-- An inspection has the groups of every file within reach, if paths with one key stand for one
text. -/
theorem Reached.mem_groups {group : String} (hl : Lists includes file source)
    (hc : Consistent includes file source) (hr : Reached includes file source name text)
    (hg : .bindGroup group ∈ Note.ofText text) :
    group ∈ (ofSource includes file source).groups := by
  obtain ⟨entered, hrun⟩ := exists_run hl
  obtain ⟨f, hf, hkey⟩ := hr.exists_file hc hrun
  obtain ⟨other, text', hfollows⟩ := (InspectionState.sound_of_reachable hrun).followed f hf
  obtain rfl : text' = text := hfollows.reached.text_eq hc hr (hfollows.key_eq.trans hkey)
  refine mem_groups_iff.2 ⟨_, (mem_ofSource_iff hrun).2 ⟨f, hf, rfl⟩, ?_⟩
  rw [hfollows.record_eq]
  exact FileRecord.mem_groups_ofText.2 hg

/-- An inspection that goes through a text loses a bind group there: it misses the directive that
declares the group, or one that includes another file. -/
inductive Loses (includes : Includes) (file source : String) (g : BindGroup) : Prop
  | group {name text : String} {place : Location} {range : ByteRange} :
    Reached includes file source name text → ReflTransGen includes.Links source text →
    NoteScan.MissesItem text (.bindGroup g.name place range) → Loses includes file source g
  | inclusion {name text path : String} {place : Location} :
    Reached includes file source name text → ReflTransGen includes.Links source text →
    NoteScan.MissesItem text (.inclusion path place) → Loses includes file source g

/-- An inspection reaches every text that a scan reaches, unless it misses an inclusion on the
way. -/
theorem reached_or_loses {inner : String} {g : BindGroup}
    (hf : ∀ text, ReflTransGen includes.Links source text → (Outline.ofText text).failure = none)
    (h : ReflTransGen includes.Links source inner) :
    (∃ name, Reached includes file source name inner) ∨ Loses includes file source g := by
  induction h with
  | refl => exact .inl ⟨file, .root⟩
  | @tail text inner hlinks hlink ih =>
    rcases ih with ⟨name, hr⟩ | hloses
    · obtain ⟨path, place, hitem, hfound⟩ := hlink
      rcases NoteScan.exists_repeats (hf text hlinks) hitem with ⟨note, ⟨span, rfl⟩, hnote⟩ | hmiss
      · exact .inl ⟨path, hr.inclusion (hnote _ rfl) hfound⟩
      · exact .inr (.inclusion hr hlinks hmiss)
    · exact .inr hloses

end Inspection

/-! ## Agreement -/

namespace Shader

open Inspection

variable {includes : Includes} {file source : String} {shader : Shader}

/-- A bind group of a shader, other than the default one, is declared by a text that is reached
through includes. -/
theorem exists_of_mem_groups {d : Declarations} {g : BindGroup}
    (h : Declarations.ofRoot includes file source = .ok d) (hg : g ∈ d.groups.groups)
    (hd : g.isDefault = false) :
    ∃ text place range, ReflTransGen includes.Links source text ∧
      .bindGroup g.name place range ∈ (Outline.ofText text).items := by
  obtain ⟨hcomplete, hgathers⟩ := Declarations.gathers_of_ofRoot h
  rcases hgathers.exists_of_mem_groups hg with hdefault | ⟨e, he, place, range, hitem⟩
  · cases List.mem_singleton.1 hdefault
    cases hd
  · obtain ⟨text, hlinks, hi⟩ := Expansion.exists_links_of_mem hcomplete he
    exact ⟨text, place, range, hlinks, hitem ▸ hi⟩

/-- An inspection finds every bind group of a shader, other than the default one, whose name it
accepts, unless it loses the group in a text that both go through. -/
theorem group_mem_or_loses (h : ofSource includes file source = .ok shader)
    (hl : Lists includes file source) (hc : Consistent includes file source) (g : BindGroup)
    (hg : g ∈ shader.groups.groups) (hd : g.isDefault = false)
    (hp : Note.isPrintable g.name = true) :
    g.name ∈ (Inspection.ofSource includes file source).groups ∨ Loses includes file source g := by
  obtain ⟨d, hroot, _⟩ := ofSource_eq_ok h
  have hgroups := groups_ofRoot h
  rw [hroot] at hgroups
  rw [← Except.ok.inj hgroups] at hg
  have hcomplete := (Declarations.gathers_of_ofRoot hroot).1
  have hscanned : ∀ text, ReflTransGen includes.Links source text →
      (Outline.ofText text).failure = none :=
    fun text hlinks => Expansion.failure_eq_none_of_links hcomplete hlinks
  obtain ⟨text, place, range, hlinks, hitem⟩ := exists_of_mem_groups hroot hg hd
  rcases reached_or_loses hscanned hlinks with ⟨name, hr⟩ | hloses
  · rcases NoteScan.exists_repeats (hscanned text hlinks) hitem with ⟨note, hrepeats, hnote⟩ | hmiss
    · exact .inl (hr.mem_groups hl hc (hnote _ (hrepeats hp)))
    · exact .inr (.group hr hlinks hmiss)
  · exact .inr hloses

/-- A group that an included file declares behind a function with a comment. -/
theorem exists_group_mem_or_loses :
    let files := [("a.hlsli", "float f() \x7b /* # */ return 1; \x7d\n#pragma bindgroup \"A\"\n")]
    let source := "static const string s = \"#\";\n#include \"a.hlsli\"\n"
    ∃ shader, ofSource (.ofFiles files) "f.hlsl" source = .ok shader ∧
      Lists (.ofFiles files) "f.hlsl" source ∧ Consistent (.ofFiles files) "f.hlsl" source ∧
      ⟨"A"⟩ ∈ shader.groups.groups ∧
      ("A" ∈ (Inspection.ofSource (.ofFiles files) "f.hlsl" source).groups ∨
        Loses (.ofFiles files) "f.hlsl" source ⟨"A"⟩) := by
  intro files source
  have hplan : planned (.ofFiles files) "f.hlsl" source = .ok none := by decide +kernel
  obtain ⟨shader, h⟩ := exists_ofSource hplan
  have hl : Lists (.ofFiles files) "f.hlsl" source :=
    lists_of_listed (Includes.listed_ofFiles files [])
  have hc : Consistent (.ofFiles files) "f.hlsl" source :=
    @consistent_of_closed _ _ _ (("f.hlsl", source) :: files) (by decide +kernel)
      (by decide +kernel) (by decide +kernel)
  have hroot : (Declarations.ofRoot (.ofFiles files) "f.hlsl" source).map Declarations.groups =
      .ok ⟨[.default, ⟨"A"⟩]⟩ := by decide +kernel
  have hg : ⟨"A"⟩ ∈ shader.groups.groups := by
    rw [← Except.ok.inj (hroot.symm.trans (groups_ofRoot h))]
    exact List.mem_cons_of_mem _ (List.mem_singleton_self _)
  exact ⟨shader, h, hl, hc, hg, group_mem_or_loses h hl hc ⟨"A"⟩ hg (by decide) (by decide +kernel)⟩

/-- What looks like the start of a comment in a string literal hides a group from an inspection. -/
theorem literal_hides_group :
    let source := "static const string s = \"/*\";\n#pragma bindgroup \"G\"\n"
    ∃ shader, ofSource (.ofFiles []) "f.hlsl" source = .ok shader ∧
      Consistent (.ofFiles []) "f.hlsl" source ∧ ⟨"G"⟩ ∈ shader.groups.groups ∧
      Note.isPrintable "G" = true ∧
      "G" ∉ (Inspection.ofSource (.ofFiles []) "f.hlsl" source).groups := by
  intro source
  have hplan : planned (.ofFiles []) "f.hlsl" source = .ok none := by decide +kernel
  obtain ⟨shader, h⟩ := exists_ofSource hplan
  have hc : Consistent (.ofFiles []) "f.hlsl" source :=
    @consistent_of_closed _ _ _ [("f.hlsl", source)] (by decide +kernel) (by decide +kernel)
      (by decide +kernel)
  have hroot : (Declarations.ofRoot (.ofFiles []) "f.hlsl" source).map Declarations.groups =
      .ok ⟨[.default, ⟨"G"⟩]⟩ := by decide +kernel
  have hg : ⟨"G"⟩ ∈ shader.groups.groups := by
    rw [← Except.ok.inj (hroot.symm.trans (groups_ofRoot h))]
    exact List.mem_cons_of_mem _ (List.mem_singleton_self _)
  refine ⟨shader, h, hc, hg, by decide +kernel, fun hm => ?_⟩
  obtain ⟨e, he, hm⟩ := mem_groups_iff.1 hm
  rw [entries_of_not_found not_found_of_nil] at he
  cases List.mem_singleton.1 he
  have hnone : .bindGroup "G" ∉ Note.ofText source := by decide +kernel
  exact hnone (FileRecord.mem_groups_ofText.1 hm)

end Shader

end BindlessHlsl
