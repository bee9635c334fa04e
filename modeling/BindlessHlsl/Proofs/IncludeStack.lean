import BindlessHlsl.Proofs.Generation
import BindlessHlsl.Proofs.RunMoments

/-!
The stack of files that are being scanned. Which files a file includes is decided by its text alone
(`Includes.Links`), so a file that includes itself, directly or through others, would be expanded
without an end; the limit on the depth cuts every such expansion off. A shader is therefore
generated only if no file on the stack ever has the text of another one (`Shader.BoundsStack`).
-/

namespace BindlessHlsl

open Relation

/-! ## Cycles -/

namespace Expansion

variable {includes : Includes} {levels depth : Nat} {file text inner : String}

theorem complete_of_links (h : (ofFile includes levels depth file text).rejection = none)
    (hl : includes.Links text inner) :
    ∃ below path, levels = below + 1 ∧
      (ofFile includes below (depth + 1) path inner).rejection = none := by
  obtain ⟨path, place, hi, hf⟩ := hl
  cases levels with
  | zero => exact absurd ((complete_ofItems h).2.1 _ hi) nofun
  | succ below =>
    have hinner := (complete_ofItems h).2.1 _ hi
    simp only [expanded, hf] at hinner
    exact ⟨below, path, rfl, hinner⟩

theorem complete_of_chain (hc : TransGen includes.Links text inner)
    (h : (ofFile includes levels depth file text).rejection = none) :
    ∃ below depth' path, below < levels ∧
      (ofFile includes below depth' path inner).rejection = none := by
  induction hc with
  | single hl =>
    obtain ⟨below, path, rfl, hinner⟩ := complete_of_links h hl
    exact ⟨below, _, path, Nat.lt_succ_self _, hinner⟩
  | tail _ hl ih =>
    obtain ⟨below, _, _, hlt, hmiddle⟩ := ih
    obtain ⟨below', path, rfl, hinner⟩ := complete_of_links hmiddle hl
    exact ⟨below', _, path, Nat.lt_of_succ_lt hlt, hinner⟩

/-- A text that includes itself has no complete expansion, however many levels there are. -/
theorem not_complete_of_cycle (hc : TransGen includes.Links text text) :
    (ofFile includes levels depth file text).rejection ≠ none := by
  induction levels using Nat.strongRecOn generalizing depth file with
  | ind levels ih =>
    intro h
    obtain ⟨below, _, _, hlt, hagain⟩ := complete_of_chain hc h
    exact ih below hlt hagain

theorem not_cycle_of_complete (h : (ofFile includes levels depth file text).rejection = none)
    (hr : ReflTransGen includes.Links text inner) : ¬TransGen includes.Links inner inner := by
  intro hc
  rcases reflTransGen_iff_eq_or_transGen.1 hr with rfl | ht
  · exact not_complete_of_cycle hc h
  · obtain ⟨_, _, _, _, hinner⟩ := complete_of_chain ht h
    exact not_complete_of_cycle hc hinner

/-- Every text that a complete expansion goes through is scanned to its end. -/
theorem failure_eq_none_of_links (h : (ofFile includes levels depth file text).rejection = none)
    (hr : ReflTransGen includes.Links text inner) : (Outline.ofText inner).failure = none := by
  rcases reflTransGen_iff_eq_or_transGen.1 hr with rfl | ht
  · exact (complete_ofFile h).1
  · obtain ⟨_, _, _, _, hinner⟩ := complete_of_chain ht h
    exact (complete_ofFile hinner).1

/-- An entry of a complete expansion is an item of a text that is reached through includes. -/
theorem exists_links_of_mem {e : Entry}
    (h : (ofFile includes levels depth file text).rejection = none)
    (hm : e ∈ (ofFile includes levels depth file text).entries) :
    ∃ inner, ReflTransGen includes.Links text inner ∧ e.item ∈ (Outline.ofText inner).items := by
  induction levels using Nat.strongRecOn generalizing depth file text with
  | ind levels ih =>
    rcases mem_ofFile h hm with ⟨_, hi⟩ | ⟨below, path, text', rfl, hlink, hr, hm', _⟩
    · exact ⟨text, .refl, hi⟩
    · obtain ⟨inner, hlinks, hinner⟩ := ih below (Nat.lt_succ_self _) hr hm'
      exact ⟨inner, hlinks.head hlink, hinner⟩

end Expansion

/-! ## The stack at each moment -/

namespace Frame

/-- The scan of the file has come to where it stands: what is left of it completes its outline. -/
def Scanning (f : Frame) : Prop :=
  ∃ seen, Outline.ofText f.text = (Outline.ofScan f.scan).after seen

theorem scanning_opened (file text : String) : (opened file text).Scanning := ⟨[], rfl⟩

variable {f : Frame} {b : UInt8} {items : List Item} {scan : Scan}

theorem Scanning.moved (h : f.Scanning) (hp : f.scan.cursor.peek = some b)
    (hs : f.scan.step b = ⟨items, .ok scan⟩) : (f.moved scan).Scanning := by
  obtain ⟨seen, ht⟩ := h
  refine ⟨seen ++ items, ht.trans ?_⟩
  rw [Outline.ofScan_of_ok hp hs]
  simp only [Outline.after, Frame.moved, List.append_assoc]

theorem Scanning.mem_items (h : f.Scanning) (hp : f.scan.cursor.peek = some b)
    (hs : f.scan.step b = ⟨items, .ok scan⟩) {item : Item} (hi : item ∈ items) :
    item ∈ (Outline.ofText f.text).items := by
  obtain ⟨seen, ht⟩ := h
  rw [ht, Outline.ofScan_of_ok hp hs]
  exact List.mem_append_right _ (List.mem_append_left _ hi)

end Frame

namespace Moment

/-- What holds of the stack at each moment of a run: it lies on the root file, every file on it was
reached through includes and is included by the ones below it, and it is not higher than the
limit. -/
structure Stacked (includes : Includes) (file source : String) (stack : List Frame) : Prop where
  scanning : ∀ f ∈ stack, f.Scanning
  reached : ∀ f ∈ stack, ReflTransGen includes.Links source f.text
  linked : stack.Pairwise fun inner outer => TransGen includes.Links outer.text inner.text
  height : stack.length ≤ Expansion.depthLimit + 1
  root : ∀ f, stack.getLast? = some f → f.file = file ∧ f.text = source

namespace Stacked

variable {includes : Includes} {file source : String} {f : Frame} {below : List Frame}

theorem leave (h : Stacked includes file source (f :: below)) :
    Stacked includes file source below where
  scanning g hg := h.scanning g (List.mem_cons_of_mem _ hg)
  reached g hg := h.reached g (List.mem_cons_of_mem _ hg)
  linked := h.linked.of_cons
  height := Nat.le_of_succ_le h.height
  root g hg := h.root g (by rw [List.getLast?_cons, hg]; rfl)

theorem moved {scan : Scan} (h : Stacked includes file source (f :: below))
    (hf : (f.moved scan).Scanning) : Stacked includes file source (f.moved scan :: below) where
  scanning := List.forall_mem_cons.2 ⟨hf, h.leave.scanning⟩
  reached := List.forall_mem_cons.2 ⟨h.reached f List.mem_cons_self, h.leave.reached⟩
  linked := List.pairwise_cons.2 ⟨(List.pairwise_cons.1 h.linked).1, h.leave.linked⟩
  height := h.height
  root g hg := by
    cases below with
    | nil =>
      obtain rfl := Option.some.inj hg
      exact h.root f rfl
    | cons _ _ => exact h.leave.root g hg

theorem enter {path text : String} (h : Stacked includes file source (f :: below))
    (hl : includes.Links f.text text) (hlt : below.length < Expansion.depthLimit) :
    Stacked includes file source (.opened path text :: f :: below) where
  scanning := List.forall_mem_cons.2 ⟨Frame.scanning_opened path text, h.scanning⟩
  reached := List.forall_mem_cons.2 ⟨(h.reached f List.mem_cons_self).tail hl, h.reached⟩
  linked := by
    refine List.pairwise_cons.2 ⟨List.forall_mem_cons.2 ⟨.single hl, fun g hg => ?_⟩, h.linked⟩
    exact ((List.pairwise_cons.1 h.linked).1 g hg).tail hl
  height := Nat.succ_le_succ hlt
  root g hg := h.root g hg

end Stacked

variable {includes : Includes} {file source : String} {m m' : Moment}

theorem follows_of_mem (h : m' ∈ (m.next? includes).bind Except.toOption) :
    Follows includes m m' := by
  obtain ⟨outcome, hn, ho⟩ := Option.bind_eq_some_iff.1 h
  cases outcome with
  | error r => cases ho
  | ok m₁ =>
    cases ho
    exact next?_eq_ok_iff.1 hn

theorem stacked_of_follows (h : Follows includes m m')
    (hm : Stacked includes file source m.stack) : Stacked includes file source m'.stack := by
  cases h with
  | leave => exact hm.leave
  | notice hp hs =>
    exact hm.moved ((hm.scanning _ List.mem_cons_self).moved hp hs)
  | enter hp hs hlt hf =>
    have hscan := hm.scanning _ List.mem_cons_self
    exact (hm.moved (hscan.moved hp hs)).enter
      ⟨_, _, hscan.mem_items hp hs List.mem_cons_self, hf⟩ hlt

theorem stacked_of_reachable (h : Reachable includes file source m) :
    Stacked includes file source m.stack := by
  induction h with
  | refl =>
    exact {
      scanning := List.forall_mem_singleton.2 (Frame.scanning_opened file source)
      reached := List.forall_mem_singleton.2 .refl
      linked := List.pairwise_singleton ..
      height := Nat.succ_le_succ (Nat.zero_le _)
      root := by
        rintro f ⟨⟩
        exact ⟨rfl, rfl⟩ }
  | tail _ hf ih => exact stacked_of_follows hf ih

/-- Files on a stack have texts of their own, if nothing is rejected in the end. -/
theorem nodup_of_reachable {d : Declarations}
    (hd : Declarations.ofRoot includes file source = .ok d)
    (h : Reachable includes file source m) : (m.stack.map Frame.text).Nodup := by
  have hstack := stacked_of_reachable h
  have hcomplete := (Declarations.gathers_of_ofRoot hd).1
  have hacyclic : m.stack.Pairwise fun inner outer => inner.text ≠ outer.text := by
    refine hstack.linked.imp_of_mem fun {inner outer} hi _ hl he => ?_
    rw [← he] at hl
    exact Expansion.not_cycle_of_complete hcomplete (hstack.reached inner hi) hl
  exact List.pairwise_map.2 hacyclic

end Moment

namespace Shader

open Moment

/-- The stack of the files that are being scanned stays within the limit, with the root file at its
bottom. While a shader is generated, no two files on it have the same text, and a file that includes
itself is always rejected. -/
structure BoundsStack (includes : Includes) (file source : String) : Prop where
  run : ∀ shader, ofSource includes file source = .ok shader →
    ∃ d, Reachable includes file source ⟨[], d⟩ ∧ generate file source d = .ok shader
  height : ∀ m, Reachable includes file source m → m.stack ≠ [] →
    ∃ above root, m.stack = above ++ [root] ∧ root.file = file ∧ root.text = source ∧
      above.length ≤ 32
  distinct : ∀ shader, ofSource includes file source = .ok shader →
    ∀ m, Reachable includes file source m → (m.stack.map Frame.text).Nodup
  cyclic : ∀ text, ReflTransGen includes.Links source text →
    TransGen includes.Links text text → ∃ r, ofSource includes file source = .error (.rejected r)

theorem ofSource_eq_rejected {includes : Includes} {file source : String} {r : Rejection}
    (h : Declarations.ofRoot includes file source = .error r) :
    ofSource includes file source = .error (.rejected r) := by
  rw [ofSource, h]
  rfl

theorem boundsStack_ofSource (includes : Includes) (file source : String) :
    BoundsStack includes file source where
  run shader h := by
    obtain ⟨d, hd, hg⟩ := ofSource_eq_ok h
    exact ⟨d, ofRoot_eq_ok_iff.1 hd, hg⟩
  height m hm hne := by
    have hstack := stacked_of_reachable hm
    have hsplit := List.dropLast_concat_getLast hne
    obtain ⟨hfile, htext⟩ := hstack.root _ (List.getLast?_eq_some_getLast hne)
    refine ⟨_, _, hsplit.symm, hfile, htext, ?_⟩
    have hheight := hstack.height
    rw [List.length_dropLast]
    exact Nat.sub_le_of_le_add hheight
  distinct shader h m hm := by
    obtain ⟨d, hd, _⟩ := ofSource_eq_ok h
    exact nodup_of_reachable hd hm
  cyclic text hr hc := by
    cases hd : Declarations.ofRoot includes file source with
    | error r => exact ⟨r, ofSource_eq_rejected hd⟩
    | ok d =>
      have hcomplete := (Declarations.gathers_of_ofRoot hd).1
      exact absurd hc (Expansion.not_cycle_of_complete hcomplete hr)

theorem exists_boundsStack :
    let includes := Includes.ofFiles
      [("a", "#include \"c\"\n"), ("b", "#include \"./c\"\n"), ("c", "Texture2D q;\n"),
        ("x", "Texture2D t;\n#include \"./x\"\n")]
    let source := "#include \"a\"\n#include \"b\"\n"
    BoundsStack includes "f" source ∧ (∃ shader, ofSource includes "f" source = .ok shader) ∧
      (∃ m, Reachable includes "f" source m ∧
        m.stack.map Frame.text = ["Texture2D q;\n", "#include \"c\"\n", source]) ∧
      ∃ r, ofSource includes "f" "#include \"x\"\n" = .error (.rejected r) := by
  intro includes source
  refine ⟨boundsStack_ofSource .., ?_, ?_, ?_⟩
  · have hplan : planned includes "f" source = .ok (some ⟨.combined, 8, 0⟩) := by decide +kernel
    exact exists_ofSource hplan
  · obtain ⟨m₁, h₁, m₂, h₂, hstack⟩ :
        ∃ m₁ ∈ ((start "f" source).next? includes).bind Except.toOption,
          ∃ m₂ ∈ (m₁.next? includes).bind Except.toOption,
            m₂.stack.map Frame.text = ["Texture2D q;\n", "#include \"c\"\n", source] := by
      decide +kernel
    exact ⟨m₂, .tail (.single (follows_of_mem h₁)) (follows_of_mem h₂), hstack⟩
  · have hfirst : includes.Links "#include \"x\"\n" "Texture2D t;\n#include \"./x\"\n" := by
      refine ⟨"x", ⟨1, 1⟩, ?_, ?_⟩ <;> decide +kernel
    have hloop : includes.Links "Texture2D t;\n#include \"./x\"\n"
        "Texture2D t;\n#include \"./x\"\n" := by
      refine ⟨"./x", ⟨2, 1⟩, ?_, ?_⟩ <;> decide +kernel
    exact (boundsStack_ofSource includes "f" _).cyclic _ (.single hfirst) (.single hloop)

end Shader

end BindlessHlsl
