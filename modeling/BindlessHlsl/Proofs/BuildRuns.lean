import BindlessHlsl.Build.Basic
import BindlessHlsl.Proofs.FileTrees
import BindlessHlsl.Proofs.Generation
import Mathlib.Logic.Relation

/-!
What a build does, shader by shader. A shader comes to two texts or a fault (`Build.result`), which
depends on the files that it reads. If the file system serves the build (`Build.Served`), working on
one shader writes those two texts into the output directory or reports the fault, and does nothing
else (`Build.takes_shader`); by induction, working on all of them adds up what they come to at their
turns (`Build.takesAll_shaders`). The names of the files that are written are all different.
-/

namespace BindlessHlsl

open FileTree (IsName)
open Relation (ReflTransGen)

/-! ## The names of generated files -/

namespace Path

variable {chars stem : List Char}

theorem fileNameChars?_of_name (hs : separator ∉ chars) (hi : isIdle chars = false) :
    fileNameChars? chars = if chars = ['.', '.'] then none else some chars := by
  rw [fileNameChars?, segments_of_not_mem hs, List.reverse_singleton, List.dropWhile_cons, hi,
    if_neg Bool.false_ne_true]

theorem trimIdle_of_name (hs : separator ∉ chars) (hi : isIdle chars = false) :
    trimIdle chars = chars := by
  rw [trimIdle, segments_of_not_mem hs, List.reverse_singleton, List.takeWhile_cons, hi,
    if_neg Bool.false_ne_true]
  exact List.take_length

/-- A point with something in front of it separates a name from its extension. -/
theorem exists_of_extensionPoint? {k : Nat} (h : extensionPoint? chars = some k) :
    ∃ stem tail, chars = stem ++ '.' :: tail ∧ stem ≠ [] ∧ k = stem.length := by
  rw [extensionPoint?] at h
  split at h
  case isTrue => cases h
  next hc =>
  obtain ⟨hall, hfirst⟩ := not_or.1 (by simpa using hc)
  have hsplit := List.takeWhile_append_dropWhile (p := (· != '.')) (l := chars.reverse)
  generalize htail : chars.reverse.takeWhile (· != '.') = tail at *
  cases hd : chars.reverse.dropWhile (· != '.') with
  | nil =>
    rw [hd, List.append_nil] at hsplit
    exact absurd (by rw [hsplit, List.length_reverse]) hall
  | cons c front =>
    have hpoint : c = '.' := by
      have hnot := List.head_dropWhile_not (p := (· != '.')) (l := chars.reverse) (by simp [hd])
      simpa [hd] using hnot
    have hchars : chars = front.reverse ++ '.' :: tail.reverse := by
      rw [← List.reverse_reverse chars, ← hsplit, hd, hpoint]
      simp
    have hlength : chars.length = front.length + (tail.length + 1) := by
      rw [hchars]
      simp
    refine ⟨front.reverse, tail.reverse, hchars, ?_, ?_⟩
    · intro hempty
      rw [List.reverse_eq_nil_iff.1 hempty] at hlength
      exact hfirst (by simpa using hlength.symm)
    · rw [← Option.some.inj h, List.length_reverse]
      omega

theorem extensionPoint?_concat (h : stem ≠ []) :
    extensionPoint? (stem ++ ['.']) = some stem.length := by
  have hlength : stem.length ≠ 0 := by simpa using h
  simp [extensionPoint?, hlength]

theorem exists_stem {extension : List Char} (hs : separator ∉ chars) (hi : isIdle chars = false)
    (h : extensionChars? chars = some extension) :
    ∃ stem, stem ≠ [] ∧ chars = stem ++ '.' :: extension := by
  obtain ⟨name, hn, h⟩ := Option.bind_eq_some_iff.1 h
  obtain ⟨k, hk, h⟩ := Option.bind_eq_some_iff.1 h
  rw [fileNameChars?_of_name hs hi] at hn
  split at hn
  case isTrue => cases hn
  next =>
    cases hn
    obtain ⟨stem, tail, rfl, hne, rfl⟩ := exists_of_extensionPoint? hk
    have htail : tail = extension := by simpa using h
    exact ⟨stem, hne, by rw [htail]⟩

/-- An extension is put behind a point, unless the name in front of it is a single point: together
they lead to the parent of a directory. -/
theorem putExtension_concat {extension : List Char} (hs : separator ∉ stem) (hne : stem ≠ [])
    (he : extension ≠ []) :
    putExtension (stem ++ ['.']) extension =
      if stem = ['.'] then ['.', '.'] else stem ++ '.' :: extension := by
  have hsep : separator ∉ stem ++ ['.'] := by
    rw [List.mem_append, List.mem_singleton]
    exact not_or.2 ⟨hs, by decide⟩
  have hidle : isIdle (stem ++ ['.']) = false := by simp [isIdle, hne]
  have hparent : stem ++ ['.'] = ['.'] ++ ['.'] ↔ stem = ['.'] := List.append_left_inj ['.']
  rw [putExtension, fileNameChars?_of_name hsep hidle]
  simp only [show ['.', '.'] = ['.'] ++ ['.'] from rfl, hparent]
  split
  next hn =>
    split at hn
    next hstem => rw [if_pos hstem, hstem]
    next => cases hn
  next name hn =>
    split at hn
    case isTrue => cases hn
    next hstem =>
      cases hn
      rw [if_neg hstem, trimIdle_of_name hsep hidle, extensionPoint?_concat hne,
        if_neg (by simpa using he)]
      simp

end Path

namespace Build

/-- The name under which the description of a shader is written. -/
@[irreducible] def descriptionName (file : String) : String :=
  (Path.withExtension? file "json").getD file

theorem descriptionPath_eq (config : BuildConfig) (file : String) :
    config.descriptionPath file = config.outputPath (descriptionName file) := by
  rw [BuildConfig.descriptionPath, descriptionName]

/-- A name that a shader can have. -/
structure IsShader (file : String) : Prop extends IsName file where
  extension : Path.extension? file = some shaderExtension

variable {f g : String}

theorem IsShader.exists_stem (h : IsShader f) :
    ∃ stem, stem ≠ [] ∧ Path.separator ∉ stem ∧ f.toList = stem ++ ".hlsl".toList ∧
      (descriptionName f).toList =
        if stem = ['.'] then "..".toList else stem ++ ".json".toList := by
  obtain ⟨extension, hext, hname⟩ := Option.map_eq_some_iff.1 h.extension
  have hchars : extension = "hlsl".toList := by
    have := congrArg String.toList hname
    rwa [String.toList_ofList] at this
  obtain ⟨stem, hne, hf⟩ := Path.exists_stem h.no_separator h.not_idle hext
  have hs : Path.separator ∉ stem := by
    intro hm
    exact h.no_separator (hf ▸ List.mem_append_left _ hm)
  refine ⟨stem, hne, hs, by rw [hf, hchars]; rfl, ?_⟩
  have htake : f.toList.take (f.toList.length - extension.length) = stem ++ ['.'] := by
    rw [hf, List.append_cons, List.length_append, Nat.add_sub_cancel, List.take_left]
  have hdescription : descriptionName f =
      String.ofList (Path.putExtension (stem ++ ['.']) "json".toList) := by
    simp only [descriptionName, Path.withExtension?, hext, Option.getD_some, htake]
    rfl
  rw [hdescription, String.toList_ofList, Path.putExtension_concat hs hne (by decide)]
  rfl

theorem IsShader.ne_descriptionName (hf : IsShader f) (hg : IsShader g) :
    f ≠ descriptionName g := by
  obtain ⟨stem, -, -, hname, -⟩ := hf.exists_stem
  obtain ⟨stem', -, -, -, hdescription⟩ := hg.exists_stem
  intro he
  have hlast : f.toList.getLast? = some 'l' := by rw [hname, List.getLast?_append]; rfl
  rw [he, hdescription] at hlast
  split at hlast
  · exact absurd hlast (by decide)
  · rw [List.getLast?_append] at hlast
    exact absurd (show some 'n' = some 'l' from hlast) (by decide)

theorem IsShader.eq_of_descriptionName (hf : IsShader f) (hg : IsShader g)
    (h : descriptionName f = descriptionName g) : f = g := by
  obtain ⟨stem, -, -, hname, hdescription⟩ := hf.exists_stem
  obtain ⟨stem', -, -, hname', hdescription'⟩ := hg.exists_stem
  have hstem : stem = stem' := by
    rw [h, hdescription'] at hdescription
    by_cases hs : stem = ['.'] <;> by_cases hs' : stem' = ['.']
    · rw [hs, hs']
    · have := congrArg List.length hdescription
      simp [hs, hs'] at this
    · have := congrArg List.length hdescription
      simp [hs, hs'] at this
    · rw [if_neg hs, if_neg hs'] at hdescription
      exact (List.append_cancel_right hdescription).symm
  exact String.toList_inj.1 (by rw [hname, hname', hstem])

/-- The description of a shader is a file of the output directory, unless it would be written to the
parent of the directory. -/
theorem IsShader.isName_descriptionName (h : IsShader f) (hne : descriptionName f ≠ "..") :
    IsName (descriptionName f) := by
  obtain ⟨stem, hstem, hs, -, hdescription⟩ := h.exists_stem
  have hname : (descriptionName f).toList = stem ++ ".json".toList := by
    rw [hdescription, if_neg]
    intro hpoint
    rw [if_pos hpoint] at hdescription
    exact hne (String.toList_inj.1 hdescription)
  refine ⟨?_, hne, ?_⟩
  · have hlong : stem ++ ".json".toList ≠ ['.'] := fun he => by
      simpa using congrArg List.length he
    rw [FileTree.isIdle, Path.isIdle, hname, beq_false_of_ne hlong]
    simp
  · rw [hname, List.mem_append]
    exact not_or.2 ⟨hs, by decide⟩

theorem isShader_metadata : IsShader "metadata.hlsl" := ⟨by decide, by decide +kernel⟩

theorem descriptionName_metadata : descriptionName "metadata.hlsl" = "metadata.json" := by
  decide +kernel

theorem IsShader.ne_metadata (h : IsShader f) : f ≠ "metadata.json" := by
  rw [← descriptionName_metadata]
  exact h.ne_descriptionName isShader_metadata

/-- One shader has its description where the inspection goes. -/
theorem IsShader.eq_of_metadata (h : IsShader f) (he : descriptionName f = "metadata.json") :
    f = "metadata.hlsl" := by
  rw [← descriptionName_metadata] at he
  exact h.eq_of_descriptionName isShader_metadata he

end Build

/-! ## What a shader reads -/

/-- The paths of a text's directives. -/
def Outline.inclusions (o : Outline) : List String :=
  o.items.filterMap fun
    | .inclusion path _ => some path
    | _ => none

theorem Outline.mem_inclusions {o : Outline} {path : String} {place : Location}
    (h : .inclusion path place ∈ o.items) : path ∈ o.inclusions :=
  List.mem_filterMap.2 ⟨_, h, rfl⟩

/-- The two sources find the same under every path that a shader, or a file that it includes, asks
for. -/
def Includes.AgreeFrom (includes includes' : Includes) (source : String) : Prop :=
  ∀ text, ReflTransGen includes.Links source text →
    ∀ path ∈ (Outline.ofText text).inclusions, includes'.find path = includes.find path

section

variable {includes includes' : Includes} {file source : String}

theorem Expansion.ofItems_congr {enter enter' : String → Location → Expansion} {depth : Nat}
    {failure : Option Failure} {items : List Item}
    (h : ∀ path place, .inclusion path place ∈ items → enter' path place = enter path place) :
    ofItems enter' file depth failure items = ofItems enter file depth failure items := by
  induction items with
  | nil => rfl
  | cons item rest ih =>
    have hitem : expanded enter' item = expanded enter item := by
      cases item with
      | inclusion path place => exact h path place List.mem_cons_self
      | _ => rfl
    rw [ofItems, ofItems, hitem, ih fun path place hm => h path place (List.mem_cons_of_mem _ hm)]

/-- The expansion of a file depends on no other included files. -/
theorem Expansion.ofFile_congr {levels depth : Nat} (h : includes.AgreeFrom includes' source) :
    ofFile includes' levels depth file source = ofFile includes levels depth file source := by
  induction levels generalizing depth file source with
  | zero => rfl
  | succ levels ih =>
    rw [ofFile, ofFile]
    refine ofItems_congr fun path place hm => ?_
    rw [h source .refl path (Outline.mem_inclusions hm)]
    split
    next inner hf =>
      exact ih fun text hr => h text (.head ⟨path, place, hm, hf⟩ hr)
    next => rfl
    next => rfl

theorem Shader.ofSource_congr (h : includes.AgreeFrom includes' source) :
    ofSource includes' file source = ofSource includes file source := by
  have hroot : Expansion.ofRoot includes' file source = Expansion.ofRoot includes file source :=
    Expansion.ofFile_congr h
  rw [ofSource, ofSource, Declarations.ofRoot_eq, Declarations.ofRoot_eq, hroot]

end

/-! ## One shader -/

namespace Build

variable {config : BuildConfig} {out : List String} {t t' : FileTree} {b : Build} {f : String}

/-- What a shader comes to among the files of a tree: its generated text and its description. -/
def result (config : BuildConfig) (t : FileTree) (file : String) :
    Except ShaderFault (String × String) :=
  match t.read (config.sourcePath file) with
  | .error e => .error (.unreadable (config.sourcePath file) e)
  | .ok source => products (config.includes t) file source

/-- The files that a shader leaves in the output directory, each with its name and its text. -/
def filesOf (file : String) : Except ShaderFault (String × String) → List (String × String)
  | .ok (output, description) => [(file, output), (descriptionName file, description)]
  | .error _ => []

/-- Files of the output directory with their paths. -/
def pathed (config : BuildConfig) (files : List (String × String)) : List (String × String) :=
  files.map fun f => (config.outputPath f.1, f.2)

/-- A fault that lies in a shader: no call on the file system failed, apart from the reading of
bytes that are no text, and the shader could be worked on. -/
def Owned : ShaderFault → Prop
  | .unreadable _ error => error = .invalidText
  | .stopped stop => ∃ r, stop = .rejected r
  | .incomplete _ => True
  | .unwritable _ => False

/-- Working on a shader either finds a fault that lies in it or writes its files. -/
def Served (config : BuildConfig) (b : Build) (file : String) : Prop :=
  match result config b.tree file with
  | .ok (output, description) =>
    (b.writeAll
      [(config.outputPath file, output), (config.descriptionPath file, description)]).2 = none
  | .error fault => Owned fault

/-- The output directory is there. -/
structure Opened (config : BuildConfig) (out : List String) (t : FileTree) : Prop where
  proper : t.Proper
  place : t.placeOf config.outputDir = .ok out
  directory : t.isDirectoryAt out = true

/-- Files can be written into the output directory. -/
def Writable (out : List String) (t : FileTree) (files : List (String × String)) : Prop :=
  ∀ f ∈ files, IsName f.1 ∧ t.isDirectoryAt (out ++ [f.1]) = false

theorem Writable.extends {files : List (String × String)} (h : Writable out t files) :
    t.Extends out (t.withFiles out files) :=
  .withFiles fun f hf => (h f hf).2

theorem Opened.withFiles {files : List (String × String)} (ho : Opened config out t)
    (h : Writable out t files) : Opened config out (t.withFiles out files) where
  proper := ho.proper.withFiles ho.directory h
  place := h.extends.placeOf_of_ok ho.place
  directory := (h.extends.isDirectoryAt_eq out).trans ho.directory

theorem write_outputPath {name : String} (text : String) (ho : Opened config out b.tree)
    (hn : IsName name) :
    b.write (config.outputPath name) text =
      if b.tree.isDirectoryAt (out ++ [name]) then .error .isDirectory
      else .ok { b with
        tree := b.tree.withFiles out [(name, text)]
        written := b.written ++ pathed config [(name, text)] } := by
  rw [write, BuildConfig.outputPath, FileTree.write_join hn ho.place ho.directory]
  split <;> rfl

theorem writeAll_eq {files : List (String × String)} (ho : Opened config out b.tree)
    (h : Writable out b.tree files) :
    b.writeAll (pathed config files) =
      ({ b with
        tree := b.tree.withFiles out files
        written := b.written ++ pathed config files }, none) := by
  induction files generalizing b with
  | nil => simp [pathed, writeAll, FileTree.withFiles]
  | cons f rest ih =>
    obtain ⟨⟨hn, hd⟩, hrest⟩ := List.forall_mem_cons.1 h
    have hf : Writable out b.tree [f] := fun g hg => List.mem_singleton.1 hg ▸ ⟨hn, hd⟩
    have hwrite := write_outputPath f.2 ho hn
    rw [hd, if_neg Bool.false_ne_true] at hwrite
    rw [pathed, List.map_cons, writeAll, hwrite]
    refine (ih (ho.withFiles hf) fun g hg => ?_).trans ?_
    · exact (hrest g hg).imp_right (hf.extends.isDirectoryAt_eq _).trans
    · simp [pathed, FileTree.withFiles]

/-- A file that was written could be, and the parent of a directory could not. -/
theorem eq_of_write {name text : String} {b' : Build} (ho : Opened config out b.tree)
    (hn : name ≠ ".." → IsName name) (h : b.write (config.outputPath name) text = .ok b') :
    Writable out b.tree [(name, text)] ∧
      b' = { b with
        tree := b.tree.withFiles out [(name, text)]
        written := b.written ++ pathed config [(name, text)] } := by
  by_cases hp : name = ".."
  · rw [hp, write] at h
    cases hw : b.tree.write (config.outputPath "..") (Utf8.encode text) with
    | error e => simp [hw, bind, Except.bind] at h
    | ok t => exact absurd hw FileTree.write_join_parent
  · rw [write_outputPath text ho (hn hp)] at h
    split at h
    case isTrue => cases h
    next hd =>
      refine ⟨fun g hg => List.mem_singleton.1 hg ▸ ⟨hn hp, by simpa using hd⟩, ?_⟩
      exact (Except.ok.inj h).symm

theorem exists_of_writeAll {path text : String} {rest : List (String × String)}
    (h : (b.writeAll ((path, text) :: rest)).2 = none) :
    ∃ b', b.write path text = .ok b' ∧ (b'.writeAll rest).2 = none := by
  rw [writeAll] at h
  split at h
  next b' hb => exact ⟨b', hb, h⟩
  next => cases h

theorem writable_of_writeAll {output description : String} (ho : Opened config out b.tree)
    (hf : IsShader f)
    (h : (b.writeAll [(config.outputPath f, output), (config.descriptionPath f, description)]).2 =
      none) : Writable out b.tree [(f, output), (descriptionName f, description)] := by
  rw [descriptionPath_eq] at h
  obtain ⟨b₁, h₁, h⟩ := exists_of_writeAll h
  obtain ⟨b₂, h₂, -⟩ := exists_of_writeAll h
  obtain ⟨hfirst, rfl⟩ := eq_of_write ho (fun _ => hf.toIsName) h₁
  obtain ⟨hsecond, -⟩ := eq_of_write (ho.withFiles hfirst) hf.isName_descriptionName h₂
  refine List.forall_mem_cons.2 ⟨hfirst _ List.mem_cons_self, fun g hg => ?_⟩
  exact (hsecond g hg).imp_right (hfirst.extends.isDirectoryAt_eq _).symm.trans

/-- What a shader does to a build: its files are written and it is reported. -/
structure Takes (config : BuildConfig) (out : List String) (f : String)
    (r : Except ShaderFault (String × String)) (b b' : Build) : Prop where
  tree : b'.tree = b.tree.withFiles out (filesOf f r)
  written : b'.written = b.written ++ pathed config (filesOf f r)
  generated : b'.report.generated = b.report.generated ++ [f].filter fun _ => r.isOk
  failed : b'.report.failed.map FailedShader.file =
    b.report.failed.map FailedShader.file ++ [f].filter fun _ => !r.isOk

theorem attempt_of_error {fault : ShaderFault} (h : result config b.tree f = .error fault) :
    ∃ b', attempt config b f = (b', some fault) ∧ b'.tree = b.tree ∧ b'.written = b.written ∧
      b'.report = b.report := by
  unfold result at h
  unfold attempt
  cases hread : b.tree.read (config.sourcePath f) with
  | error e =>
    rw [hread] at h
    cases h
    simp only [hread]
    exact ⟨b, rfl, rfl, rfl, rfl⟩
  | ok source =>
    rw [hread] at h
    simp only [hread, h]
    exact ⟨_, rfl, rfl, rfl, rfl⟩

theorem attempt_of_ok {output description : String} (ho : Opened config out b.tree)
    (h : result config b.tree f = .ok (output, description))
    (hw : Writable out b.tree (filesOf f (.ok (output, description)))) :
    ∃ b', attempt config b f = (b', none) ∧
      b'.tree = b.tree.withFiles out (filesOf f (.ok (output, description))) ∧
      b'.written = b.written ++ pathed config (filesOf f (.ok (output, description))) ∧
      b'.report = b.report := by
  unfold result at h
  unfold attempt
  cases hread : b.tree.read (config.sourcePath f) with
  | error e =>
    rw [hread] at h
    cases h
  | ok source =>
    rw [hread] at h
    -- the inspection and the log are all that has changed before the files are written
    have hfiles : [(config.outputPath f, output), (config.descriptionPath f, description)] =
        pathed config (filesOf f (.ok (output, description))) := by
      rw [descriptionPath_eq]
      rfl
    have hwrite : ∀ b₁ : Build, b₁.tree = b.tree →
        b₁.writeAll (pathed config (filesOf f (.ok (output, description)))) =
          ({ b₁ with
            tree := b₁.tree.withFiles out (filesOf f (.ok (output, description)))
            written := b₁.written ++ pathed config (filesOf f (.ok (output, description))) },
            none) := by
      intro b₁ ht
      exact writeAll_eq (by rwa [ht]) (by rwa [ht])
    simp only [hread, h, hfiles]
    rw [hwrite]
    · exact ⟨_, rfl, rfl, rfl, rfl⟩
    · rfl

/-- A shader is generated, with its files written, or reported as failed. -/
theorem takes_shader (ho : Opened config out b.tree) (hf : IsShader f) (hs : Served config b f) :
    Writable out b.tree (filesOf f (result config b.tree f)) ∧
      ∃ b', shader config b f = (b', none) ∧ Takes config out f (result config b.tree f) b b' := by
  unfold Served at hs
  cases hr : result config b.tree f with
  | ok texts =>
    obtain ⟨output, description⟩ := texts
    rw [hr] at hs
    have hw := writable_of_writeAll ho hf hs
    obtain ⟨b', ha, ht, hwritten, hreport⟩ := attempt_of_ok ho hr hw
    refine ⟨hw, { b'.logged [⟨.info, s!"transpiled {f}"⟩] with
      report := { b'.report with generated := b'.report.generated ++ [f] } }, ?_,
      ht, hwritten, ?_, ?_⟩
    · rw [shader, ha]
    · rw [hreport]
      rfl
    · rw [hreport]
      exact (List.append_nil _).symm
  | error fault =>
    obtain ⟨b', ha, ht, hwritten, hreport⟩ := attempt_of_error hr
    rw [hr] at hs
    refine ⟨fun _ h => absurd h List.not_mem_nil,
      { b'.logged [⟨.error, s!"failed to transpile {f}: {fault.text}"⟩] with
        report := { b'.report with failed := b'.report.failed ++ [⟨f, fault⟩] } }, ?_,
      ht, hwritten.trans (List.append_nil _).symm, ?_, ?_⟩
    · unfold shader
      rw [ha]
      cases fault with
      | stopped stop =>
        obtain ⟨r, rfl⟩ := hs
        rfl
      | _ => rfl
    · rw [hreport]
      exact (List.append_nil _).symm
    · rw [hreport, List.map_append]
      rfl

/-! ## All shaders -/

/-- What a shader comes to at its turn, when those in front of it among the given ones have left
their files. -/
def outcome (config : BuildConfig) (out : List String) :
    List String → FileTree → String → Except ShaderFault (String × String)
  | [], t, f => result config t f
  | g :: rest, t, f =>
    if f = g then result config t f
    else outcome config out rest (t.withFiles out (filesOf g (result config t g))) f

/-- The files that shaders leave in the output directory. -/
def filesOfAll (config : BuildConfig) (out : List String) (names : List String) (t : FileTree) :
    List (String × String) :=
  names.flatMap fun f => filesOf f (outcome config out names t f)

/-- Working on shaders in order goes as it should, and so does writing the inspection at the end. -/
def ServedAll (config : BuildConfig) (b : Build) : List String → Prop
  | [] => ∃ b', b.write config.metadataPath b.metadata.toJson.pretty = .ok b'
  | f :: rest => Served config b f ∧ ServedAll config (shader config b f).1 rest

variable {names : List String}

theorem outcome_cons_of_ne {g : String} (h : f ≠ g) :
    outcome config out (g :: names) t f =
      outcome config out names (t.withFiles out (filesOf g (result config t g))) f :=
  if_neg h

theorem outcome_cons_self : outcome config out (f :: names) t f = result config t f := if_pos rfl

theorem filesOfAll_cons (h : (f :: names).Nodup) :
    filesOfAll config out (f :: names) t =
      filesOf f (result config t f) ++
        filesOfAll config out names (t.withFiles out (filesOf f (result config t f))) := by
  rw [filesOfAll, List.flatMap_cons, outcome_cons_self, filesOfAll]
  refine congrArg _ (List.flatMap_congr fun g hg => ?_)
  rw [outcome_cons_of_ne (ne_of_mem_of_not_mem hg (List.nodup_cons.1 h).1)]

/-- What a shader comes to in terms of the shaders in front of it. -/
theorem outcome_eq_result {earlier later : List String}
    (h : (earlier ++ f :: later).Nodup) :
    outcome config out (earlier ++ f :: later) t f =
      result config (t.withFiles out (filesOfAll config out earlier t)) f := by
  induction earlier generalizing t with
  | nil => exact outcome_cons_self
  | cons g rest ih =>
    obtain ⟨hg, hrest⟩ := List.nodup_cons.1 h
    have hne : f ≠ g := fun he => hg (he ▸ List.mem_append_cons_self)
    have hnodup : (g :: rest).Nodup := h.sublist (List.sublist_append_left ..)
    rw [List.cons_append, outcome_cons_of_ne hne, ih hrest, filesOfAll_cons hnodup,
      FileTree.withFiles_append]

theorem outcome_append_of_mem {earlier : List String} (h : f ∈ earlier) (later : List String) :
    outcome config out (earlier ++ later) t f = outcome config out earlier t f := by
  induction earlier generalizing t with
  | nil => cases h
  | cons g rest ih =>
    by_cases hf : f = g
    · subst hf
      exact outcome_cons_self.trans outcome_cons_self.symm
    · rw [List.cons_append, outcome_cons_of_ne hf, outcome_cons_of_ne hf]
      exact ih ((List.mem_cons.1 h).resolve_left hf)

theorem mem_filesOfAll_append {earlier : List String} (later : List String) {p : String × String}
    (h : p ∈ filesOfAll config out earlier t) :
    p ∈ filesOfAll config out (earlier ++ later) t := by
  obtain ⟨f, hf, hp⟩ := List.mem_flatMap.1 h
  refine List.mem_flatMap.2 ⟨f, List.mem_append_left _ hf, ?_⟩
  rwa [outcome_append_of_mem hf]

/-- What working on all shaders does to a build. -/
structure TakesAll (config : BuildConfig) (out : List String) (names : List String)
    (b b' : Build) : Prop where
  writable : Writable out b.tree (filesOfAll config out names b.tree)
  tree : b'.tree = b.tree.withFiles out (filesOfAll config out names b.tree)
  written : b'.written = b.written ++ pathed config (filesOfAll config out names b.tree)
  generated : b'.report.generated = b.report.generated ++
    names.filter fun f => (outcome config out names b.tree f).isOk
  failed : b'.report.failed.map FailedShader.file = b.report.failed.map FailedShader.file ++
    names.filter fun f => !(outcome config out names b.tree f).isOk

theorem Takes.takesAll {b₁ b₂ : Build} (hn : (f :: names).Nodup)
    (hw : Writable out b.tree (filesOf f (result config b.tree f)))
    (h : Takes config out f (result config b.tree f) b b₁)
    (hrest : TakesAll config out names b₁ b₂) :
    TakesAll config out (f :: names) b b₂ := by
  have hother : ∀ g ∈ names,
      outcome config out (f :: names) b.tree g = outcome config out names b₁.tree g := by
    intro g hg
    rw [outcome_cons_of_ne (ne_of_mem_of_not_mem hg (List.nodup_cons.1 hn).1), h.tree]
  have hfiles : filesOfAll config out (f :: names) b.tree =
      filesOf f (result config b.tree f) ++ filesOfAll config out names b₁.tree := by
    rw [filesOfAll_cons hn, h.tree]
  have hfilter : ∀ p : Except ShaderFault (String × String) → Bool,
      (f :: names).filter (fun g => p (outcome config out (f :: names) b.tree g)) =
        ([f].filter fun _ => p (result config b.tree f)) ++
          names.filter fun g => p (outcome config out names b₁.tree g) := by
    intro p
    rw [← List.singleton_append, List.filter_append]
    refine congrArg₂ _ (List.filter_congr fun g hg => ?_) (List.filter_congr fun g hg => ?_)
    · rw [List.mem_singleton.1 hg, List.singleton_append, outcome_cons_self]
    · rw [← hother g hg, List.singleton_append]
  constructor
  · rw [hfiles]
    intro g hg
    rcases List.mem_append.1 hg with hg | hg
    · exact hw g hg
    · refine (hrest.writable g hg).imp_right fun hd => ?_
      rwa [h.tree, hw.extends.isDirectoryAt_eq] at hd
  · rw [hrest.tree, hfiles, FileTree.withFiles_append, ← h.tree]
  · rw [hrest.written, h.written, hfiles, pathed, pathed, pathed, List.map_append,
      List.append_assoc]
  · rw [hrest.generated, h.generated, hfilter, List.append_assoc]
  · rw [hrest.failed, h.failed, hfilter (! ·.isOk), List.append_assoc]

/-- All shaders are worked on, each with the output directory as the one before it has left it. -/
theorem takesAll_shaders (ho : Opened config out b.tree) (hf : ∀ f ∈ names, IsShader f)
    (hn : names.Nodup) (hs : ServedAll config b names) :
    ∃ b', shaders config b names = (b', none) ∧ TakesAll config out names b b' ∧
      ∃ last, b'.write config.metadataPath b'.metadata.toJson.pretty = .ok last := by
  induction names generalizing b with
  | nil => exact ⟨b, rfl, ⟨nofun, rfl, by simp [filesOfAll, pathed], by simp, by simp⟩, hs⟩
  | cons f rest ih =>
    obtain ⟨hfirst, hrest⟩ := List.forall_mem_cons.1 hf
    obtain ⟨hserved, hs⟩ := hs
    obtain ⟨hw, b₁, hb₁, htakes⟩ := takes_shader ho hfirst hserved
    rw [hb₁] at hs
    have ho₁ : Opened config out b₁.tree := htakes.tree ▸ ho.withFiles hw
    obtain ⟨b₂, hb₂, htakesAll, hlast⟩ := ih ho₁ hrest (List.nodup_cons.1 hn).2 hs
    refine ⟨b₂, ?_, htakes.takesAll hn hw htakesAll, hlast⟩
    rw [shaders, hb₁]
    exact hb₂

/-! ## The shaders of a directory -/

theorem nodup_of_sorted (h : names.Pairwise (· < ·)) : names.Nodup := by
  refine h.imp fun {f g} hlt (he : f = g) => ?_
  exact String.lt_irrefl g (he ▸ hlt)

/-- The shaders in a directory are listed in order, each once. -/
theorem shaderNames_eq {directory : String} (ht : t.Proper)
    (h : shaderNames t directory = .ok names) :
    names.Pairwise (· < ·) ∧ (∀ f ∈ names, IsShader f) ∧
      ∃ place, t.placeOf directory = .ok place ∧ t.isDirectoryAt place = true ∧
        ∀ f, f ∈ names ↔ Path.extension? f = some shaderExtension ∧
          (t.get? (place ++ [f])).isSome = true := by
  cases hl : t.list directory with
  | error e => simp [shaderNames, hl, bind, Except.bind] at h
  | ok entries =>
    simp only [shaderNames, hl, bind, Except.bind, pure, Except.pure, Except.ok.injEq] at h
    obtain ⟨place, hp, hd, hnodup, hentries, hnames⟩ := ht.list_eq hl
    have hmem : ∀ f, f ∈ names ↔ f ∈ entries ∧ Path.extension? f = some shaderExtension := by
      intro f
      rw [← h, List.mem_mergeSort, List.mem_filter, beq_iff_eq]
    have hsorted : names.Pairwise (· ≤ ·) := by
      rw [← h]
      refine (List.pairwise_mergeSort ?_ ?_ _).imp of_decide_eq_true
      · intro a b c hab hbc
        exact decide_eq_true (String.le_trans (of_decide_eq_true hab) (of_decide_eq_true hbc))
      · intro a b
        simpa using String.le_total a b
    have hdistinct : names.Nodup := by
      rw [← h]
      exact (List.mergeSort_perm ..).nodup_iff.2 (hnodup.filter _)
    refine ⟨?_, fun f hf => ?_, place, hp, hd, fun f => ?_⟩
    · exact (hsorted.and hdistinct).imp fun ⟨hle, hne⟩ =>
        (Std.le_iff_lt_or_eq.1 hle).resolve_right hne
    · obtain ⟨he, hx⟩ := (hmem f).1 hf
      exact ⟨hnames f he, hx⟩
    · rw [hmem, and_comm, hentries]

end Build

end BindlessHlsl
