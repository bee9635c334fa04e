import BindlessHlsl.Proofs.ConstantsBudget
import BindlessHlsl.Proofs.RunMoments
import BindlessHlsl.Proofs.Spelling

/-!
A text that is included against the same text as a root file. An expansion that is complete at some
depth is complete nearer to the root, with the same items (`Expansion.agrees_ofFile`), and an item
declares the same at any depth up to the ranges that only the root file has
(`Declarations.addItem_unplaced`). So a file that does nothing but include another one declares what
the other one declares as a root file (`Shader.ofSource_inclusion`).
-/

namespace BindlessHlsl

open Utf8

/-! ## Declarations without ranges -/

/-- A function as an included file declares it. -/
def Function.unplaced (f : Function) : Function := { f with body := none }

/-- A struct as an included file defines it. -/
def Struct.unplaced (s : Struct) : Struct := { s with range := none }

namespace Declarations

/-- Declarations without the ranges that they take in the root file. -/
def unplaced (d : Declarations) : Declarations :=
  { d with
    functions := d.functions.map Function.unplaced
    structs := d.structs.map Struct.unplaced }

theorem struct?_unplaced (d : Declarations) (name : String) :
    d.unplaced.struct? name = (d.struct? name).map Struct.unplaced := by
  rw [struct?, unplaced, List.find?_map]
  rfl

theorem elementStruct?_unplaced (d : Declarations) (r : Resource) :
    d.unplaced.elementStruct? r = (d.elementStruct? r).map Struct.unplaced := by
  rw [elementStruct?, elementStruct?, Option.map_bind]
  exact congrArg _ (funext d.struct?_unplaced)

theorem structName_unplaced (d : Declarations) (name : String) :
    d.unplaced.structName name = d.structName name := by
  rw [structName, structName, unplaced, List.length_map]

theorem mark_unplaced (d : Declarations) (name : String) (placed : PlacedAttribute) :
    d.unplaced.mark name placed = (d.mark name placed).map unplaced := by
  have hcheck : d.unplaced.check placed .function name = d.check placed .function name := rfl
  rw [mark, mark, hcheck]
  cases d.check placed .function name with
  | error failure => rfl
  | ok =>
    simp only [bind, Except.bind, pure, Except.pure, Except.map]
    cases placed.value <;> rfl

theorem marks_unplaced (d : Declarations) (name : String) (attributes : List PlacedAttribute) :
    attributes.foldlM (fun d placed => mark d name placed) d.unplaced =
      (attributes.foldlM (fun d placed => mark d name placed) d).map unplaced := by
  induction attributes generalizing d with
  | nil => rfl
  | cons placed rest ih =>
    rw [List.foldlM_cons, List.foldlM_cons, mark_unplaced]
    cases d.mark name placed with
    | error failure => rfl
    | ok d₁ => exact ih d₁

/-- An item of an included file declares what it would declare anywhere, without a range. Only a
directive for the content path is another matter. -/
theorem addItem_unplaced (d : Declarations) (inRoot : Bool) {item : Item}
    (h : ∀ place, item ≠ .pathDirective place) :
    d.unplaced.addItem false item = (d.addItem inRoot item).map unplaced := by
  cases item with
  | pathDirective place => exact absurd rfl (h place)
  | contentPath | inclusion | bracketed | sampler => rfl
  | bindGroup name place range =>
    have hgroups : d.unplaced.groups = d.groups := rfl
    rw [addItem, addItem, hgroups]
    cases d.groups.insert? ⟨name⟩ <;> rfl
  | groupUse group place =>
    have hgroups : d.unplaced.groups = d.groups := rfl
    rw [addItem, addItem, hgroups]
    cases d.groups.contains group <;> rfl
  | resource kind element name place attributes range =>
    have hcheck : (fun placed => d.unplaced.check placed (.resource kind) name) =
        fun placed => d.check placed (.resource kind) name := rfl
    rw [addItem, addItem, addResource, addResource, hcheck]
    cases attributes.forM fun placed => d.check placed (.resource kind) name <;> rfl
  | struct definition place range =>
    rw [addItem, addItem, addStruct, addStruct, structName_unplaced, struct?_unplaced,
      Option.isSome_map]
    cases (d.struct? (d.structName definition.name)).isSome with
    | true => rfl
    | false => simp [Except.map, unplaced, Struct.unplaced, rootRange]
  | functionStart name attributes => exact marks_unplaced d name attributes
  | function name body => simp [addItem, Except.map, unplaced, Function.unplaced, rootRange]

theorem addItem_of_unplaced {d d₁ : Declarations} {item : Item} (inRoot : Bool)
    (h : d.unplaced.addItem false item = .ok d₁) :
    ∃ d₂, d.addItem inRoot item = .ok d₂ ∧ d₁ = d₂.unplaced := by
  have hitem : ∀ place, item ≠ .pathDirective place := by
    rintro place rfl
    cases h
  rw [addItem_unplaced d inRoot hitem] at h
  cases hadd : d.addItem inRoot item with
  | error failure =>
    rw [hadd] at h
    cases h
  | ok d₂ =>
    rw [hadd] at h
    cases h
    exact ⟨d₂, rfl, rfl⟩

theorem add_eq_ok {d d₁ : Declarations} {e : Entry} :
    d.add e = .ok d₁ ↔ d.addItem e.inRoot e.item = .ok d₁ := by
  rw [add]
  cases d.addItem e.inRoot e.item with
  | error failure =>
    constructor <;>
    · intro h
      cases h
  | ok =>
    constructor <;>
    · intro h
      cases h
      rfl

/-- Entries of included files declare what entries with the same items declare. -/
theorem foldlM_add_of_unplaced {included entries : List Entry} {d d₁ : Declarations}
    (hdepth : ∀ e ∈ included, e.inRoot = false)
    (hitems : entries.map Entry.item = included.map Entry.item)
    (h : included.foldlM add d.unplaced = .ok d₁) :
    ∃ d₂, entries.foldlM add d = .ok d₂ ∧ d₁ = d₂.unplaced := by
  induction included generalizing entries d with
  | nil =>
    obtain rfl := List.map_eq_nil_iff.1 hitems
    cases h
    exact ⟨d, rfl, rfl⟩
  | cons e included ih =>
    obtain ⟨e', entries, rfl, hitem, hitems⟩ := List.map_eq_cons_iff.1 hitems
    obtain ⟨he, hdepth⟩ := List.forall_mem_cons.1 hdepth
    rw [List.foldlM_cons] at h
    cases hadd : d.unplaced.add e with
    | error r =>
      rw [hadd] at h
      cases h
    | ok d' =>
      rw [hadd] at h
      rw [add_eq_ok, he, ← hitem] at hadd
      obtain ⟨d'', hadd', rfl⟩ := addItem_of_unplaced e'.inRoot hadd
      obtain ⟨d₂, hrest, hd₂⟩ := ih hdepth hitems h
      refine ⟨d₂, ?_, hd₂⟩
      rw [List.foldlM_cons, add_eq_ok.2 hadd']
      exact hrest

theorem ofRoot_eq_ok {includes : Includes} {file text : String} {d : Declarations} :
    ofRoot includes file text = .ok d ↔ (Expansion.ofRoot includes file text).rejection = none ∧
      (Expansion.ofRoot includes file text).entries.foldlM add {} = .ok d := by
  have hadd : gatherer.step = add := rfl
  rw [ofRoot_eq, ofExpansion, Visitor.through, hadd]
  cases (Expansion.ofRoot includes file text).entries.foldlM add {} with
  | error r => simp
  | ok d' =>
    cases (Expansion.ofRoot includes file text).rejection with
    | some r => simp
    | none => simp

end Declarations

/-! ## Expansions with the same items -/

namespace Expansion

/-- If the first expansion is complete, so is the second one, and their items are the same. -/
structure Agrees (x y : Expansion) : Prop where
  complete : x.rejection = none → y.rejection = none
  items : x.rejection = none → y.entries.map Entry.item = x.entries.map Entry.item

theorem agrees_stopped {file : String} {place : Location} {cause : Cause} {y : Expansion} :
    Agrees (stopped file place cause) y := ⟨nofun, nofun⟩

theorem Agrees.append {x x' y y' : Expansion} (hx : Agrees x x') (hy : Agrees y y') :
    Agrees (x.append y) (x'.append y') where
  complete h := by
    obtain ⟨hxr, hyr, -⟩ := append_rejection h
    rw [Expansion.append, hx.complete hxr]
    exact hy.complete hyr
  items h := by
    obtain ⟨hxr, hyr, he⟩ := append_rejection h
    rw [he, Expansion.append, hx.complete hxr]
    dsimp only
    rw [List.map_append, List.map_append, hx.items hxr, hy.items hyr]

theorem agrees_ofItems {enter enter' : String → Location → Expansion}
    (h : ∀ path place, Agrees (enter path place) (enter' path place)) (file file' : String)
    (depth depth' : Nat) (failure : Option Failure) (items : List Item) :
    Agrees (ofItems enter file depth failure items)
      (ofItems enter' file' depth' failure items) := by
  induction items with
  | nil => exact ⟨fun hn => by simpa [ofItems] using hn, fun _ => rfl⟩
  | cons item rest ih =>
    have hitem : Agrees ⟨[⟨file, depth, item⟩], none⟩ ⟨[⟨file', depth', item⟩], none⟩ :=
      ⟨fun _ => rfl, fun _ => rfl⟩
    have hexpanded : Agrees (expanded enter item) (expanded enter' item) := by
      cases item with
      | inclusion path place => exact h path place
      | _ => exact ⟨fun _ => rfl, fun _ => rfl⟩
    exact hitem.append (hexpanded.append ih)

/-- A file whose expansion is complete is expanded to the same items under any name and depth, as
long as no fewer levels are left. -/
theorem agrees_ofFile (includes : Includes) {levels levels' : Nat} (h : levels ≤ levels')
    (depth depth' : Nat) (file file' text : String) :
    Agrees (ofFile includes levels depth file text)
      (ofFile includes levels' depth' file' text) := by
  induction levels generalizing levels' depth depth' file file' text with
  | zero =>
    cases levels' <;> exact agrees_ofItems (fun _ _ => agrees_stopped) ..
  | succ levels ih =>
    obtain ⟨more, rfl⟩ : ∃ more, levels' = more + 1 := Nat.exists_eq_add_one.2 (by omega)
    refine agrees_ofItems (fun path place => ?_) ..
    cases includes.find path with
    | found inner => exact ih (Nat.le_of_succ_le_succ h) ..
    | missing | unreadable => exact agrees_stopped

end Expansion

/-! ## A file that includes another one -/

section Inclusion

variable {includes : Includes} {path text ending : String}

/-- The text of a file that does nothing but include another one. -/
theorem Outline.ofText_inclusion (hp : Quotable path) (he : ending = "" ∨ ending = "\n") :
    Outline.ofText ("#include \"" ++ path ++ "\"" ++ ending) =
      ⟨[.inclusion path ⟨1, 1⟩], none⟩ := by
  have hrest : (Scan.ofText ("#include \"" ++ path ++ "\"" ++ ending)).cursor.rest =
      encode ("#include \"" ++ path ++ "\"") ++ encode ending := encode_append ..
  obtain ⟨d, hd, hend⟩ := Cursor.exists_spells _ hrest
  have hline : d.AtLineEnd := by
    intro b hb
    rw [Cursor.peek, hend] at hb
    rcases he with rfl | rfl
    · cases hb
    · exact (Option.some.inj hb).symm
  have hpeek : (Scan.ofText ("#include \"" ++ path ++ "\"" ++ ending)).cursor.peek =
      some Ascii.hash := by
    rw [Cursor.peek, hrest, encode_append, encode_append]
    rfl
  rw [ofText, ofScan_of_ok hpeek (Scan.step_inclusion hd hp hline)]
  rcases he with rfl | rfl
  · rw [ofScan_of_end (by rw [Cursor.peek, Scan.moved, hend]; rfl)]
    rfl
  · obtain ⟨e, hnewline, hnil⟩ :=
      Cursor.exists_spells (encode "\n") (hend.trans (List.append_nil _).symm)
    rw [ofScan_blank (s := Scan.moved _ d true) hnewline rfl,
      ofScan_of_end (by rw [Cursor.peek, Scan.moved, hnil]; rfl)]
    rfl

/-- Such a file adds nothing to the items of the file that it includes. -/
theorem Expansion.ofRoot_inclusion (hp : Quotable path) (he : ending = "" ∨ ending = "\n")
    (hfind : includes.find path = .found text) (file : String) :
    Expansion.ofRoot includes file ("#include \"" ++ path ++ "\"" ++ ending) =
      append ⟨[⟨file, 0, .inclusion path ⟨1, 1⟩⟩], none⟩
        ((ofFile includes 31 1 path text).append ⟨[], none⟩) := by
  rw [ofRoot, depthLimit, ofFile, Outline.ofText_inclusion hp he]
  dsimp only
  rw [ofItems, expanded, hfind]
  rfl

theorem Declarations.ofRoot_of_inclusion {d : Declarations} {file : String} (hp : Quotable path)
    (he : ending = "" ∨ ending = "\n") (hfind : includes.find path = .found text)
    (h : ofRoot includes file ("#include \"" ++ path ++ "\"" ++ ending) = .ok d)
    (file' : String) : ∃ d', ofRoot includes file' text = .ok d' ∧ d = d'.unplaced := by
  rw [ofRoot_eq_ok, Expansion.ofRoot_inclusion hp he hfind] at h
  obtain ⟨hcomplete, hfold⟩ := h
  obtain ⟨-, hcomplete, hentries⟩ := Expansion.append_rejection hcomplete
  obtain ⟨hcomplete, -, hentries'⟩ := Expansion.append_rejection hcomplete
  rw [hentries, hentries', List.append_nil] at hfold
  have hlevels : 31 ≤ Expansion.depthLimit := by decide
  have hagrees := Expansion.agrees_ofFile includes hlevels 1 0 path file' text
  have hdepth : ∀ e ∈ (Expansion.ofFile includes 31 1 path text).entries, e.inRoot = false := by
    intro e hmem
    have hle := Expansion.depth_le_of_mem hcomplete hmem
    exact beq_eq_false_iff_ne.2 (Nat.ne_of_gt hle)
  obtain ⟨d', hfold', hd⟩ := foldlM_add_of_unplaced (d := {}) hdepth (hagrees.items hcomplete) hfold
  exact ⟨d', ofRoot_eq_ok.2 ⟨hagrees.complete hcomplete, hfold'⟩, hd⟩

end Inclusion

/-! ## Generating from either file -/

namespace Shader

open Declarations

variable {includes : Includes} {file file' source path text ending : String} {d : Declarations}

theorem backed_unplaced (d : Declarations) (resources : List Resource) :
    d.unplaced.backed resources = (d.backed resources).map fun m => (m.1, m.2.unplaced) := by
  rw [backed, backed, List.map_filterMap]
  congr
  funext r
  rw [elementStruct?_unplaced, Option.map_map, Option.map_map]
  rfl

/-- Declarations without ranges that pass have no user constants, and with ranges neither. -/
theorem ofDeclarations_of_unplaced {u : UserConstants}
    (h : UserConstants.ofDeclarations file d.unplaced = .ok u) (file' : String) :
    u = {} ∧ UserConstants.ofDeclarations file' d = .ok {} := by
  have hroot := (UserConstants.collects_of_ofDeclarations h).inRoot
  have hnone : d.backed d.resources = [] := by
    apply List.eq_nil_iff_forall_not_mem.2
    intro m hm
    rw [backed_unplaced] at hroot
    exact absurd (hroot _ (List.mem_map_of_mem hm)) nofun
  rw [UserConstants.ofDeclarations_eq, backed_unplaced] at h
  have hresources : d.unplaced.resources = d.resources := rfl
  rw [hresources, hnone] at h
  rw [UserConstants.ofDeclarations_eq, hnone]
  exact ⟨(Except.ok.inj h).symm, rfl⟩

/-- What two generated shaders have in common if one of them was generated from declarations without
ranges. -/
theorem unplaced_of_generate {wrapped shader : Shader}
    (hw : generate file source d.unplaced = .ok wrapped)
    (hs : generate file' text d = .ok shader) :
    wrapped.toDeclarations = shader.toDeclarations.unplaced ∧
      wrapped.constantsSize = shader.constantsSize ∧ wrapped.layout = shader.layout := by
  obtain ⟨p, hc, hr, -, hl, -, hwrapped⟩ := generate_eq_ok hw
  obtain ⟨p', hc', hr', -, hl', -, hshader⟩ := generate_eq_ok hs
  obtain ⟨hconstants, hnone⟩ := ofDeclarations_of_unplaced hc file'
  have hconstants' : p'.constants = {} := Except.ok.inj (hc'.symm.trans hnone)
  have hresources : p.resources = p'.resources := hr.trans hr'.symm
  have hlayout : p.layout = p'.layout := by
    rw [hresources, hconstants] at hl
    rw [hconstants'] at hl'
    exact Except.ok.inj (hl.symm.trans hl')
  rw [hwrapped, hshader]
  refine ⟨?_, by rw [hconstants, hconstants'], hlayout⟩
  simp only [unplaced, hresources, List.map_map]
  rfl

/-- A file that does nothing but include another one is generated only if the other one is, as a
root file, and declares the same. -/
theorem ofSource_inclusion {wrapped : Shader} (hp : Quotable path)
    (he : ending = "" ∨ ending = "\n") (hfind : includes.find path = .found text)
    (h : ofSource includes file ("#include \"" ++ path ++ "\"" ++ ending) = .ok wrapped)
    (file' : String) :
    ∃ shader, ofSource includes file' text = .ok shader ∧
      wrapped.toDeclarations = shader.toDeclarations.unplaced ∧
      wrapped.constantsSize = shader.constantsSize ∧ wrapped.layout = shader.layout := by
  obtain ⟨d, hd, hg⟩ := ofSource_eq_ok h
  obtain ⟨d', hd', rfl⟩ := ofRoot_of_inclusion hp he hfind hd file'
  obtain ⟨p, hc, hr, -, hl, -, -⟩ := generate_eq_ok hg
  obtain ⟨hconstants, hnone⟩ := ofDeclarations_of_unplaced hc file'
  have hplanned : planned includes file' text = .ok p.layout := by
    rw [planned, Stop.mapError_eq_ok.2 hd']
    simp only [bind, Except.bind, hnone]
    rw [← ConstantsLayout.ofResources_table, ← hl, hr, hconstants]
    rfl
  obtain ⟨shader, hs⟩ := exists_ofSource hplanned
  exact ⟨shader, hs, unplaced_of_generate hg (ofSource_eq_generate hd' ▸ hs)⟩

theorem exists_ofSource_inclusion :
    let text := "#pragma bindgroup \"g\"\n#include \"b\"\nstruct S \x7b float x; \x7d;\n" ++
      "[bindgroup(Group = \"g\")] Texture2D t;\n[vertex] void f() \x7b t; \x7d\n"
    let includes := Includes.ofFiles [("a", text), ("b", "StructuredBuffer<S> s;\n")]
    ∃ wrapped shader,
      ofSource includes "f" ("#include \"" ++ "a" ++ "\"" ++ "\n") = .ok wrapped ∧
      ofSource includes "a" text = .ok shader ∧
      wrapped.toDeclarations = shader.toDeclarations.unplaced ∧
      wrapped.constantsSize = shader.constantsSize ∧ wrapped.layout = shader.layout := by
  intro text includes
  have hplanned : planned includes "f" ("#include \"" ++ "a" ++ "\"" ++ "\n") =
      .ok (some ⟨.combined, 8, 0⟩) := by decide +kernel
  obtain ⟨wrapped, hw⟩ := exists_ofSource hplanned
  have hfind : includes.find "a" = .found text := by decide +kernel
  obtain ⟨shader, hs, heq⟩ := ofSource_inclusion (by simp [Quotable]) (.inr rfl) hfind hw "a"
  exact ⟨wrapped, shader, hw, hs, heq⟩

end Shader

end BindlessHlsl
