import BindlessHlsl.Proofs.BuildRuns

/-!
The shaders of a build do not get into each other's way. What a shader comes to depends on the files
of the output directory only if it looks for an included file there (`Build.Avoids`), and what it
has come to is there at the end, whatever the other shaders are. One name is taken twice: the
inspection of all shaders goes where the description of `metadata.hlsl` went.
-/

namespace BindlessHlsl

open FileTree (IsName)
open Relation (ReflTransGen)

namespace Build

variable {config : BuildConfig} {out names : List String} {t t' tree start : FileTree} {b : Build}
  {f : String}

/-! ## Files that do not get into each other's way -/

/-- No path under which a shader looks for an included file leads into the output directory. Names
alone never do. -/
def Avoids (config : BuildConfig) (t : FileTree) (out : List String) (f : String) : Prop :=
  ∀ source, t.read (config.sourcePath f) = .ok source →
    ∀ text, ReflTransGen (config.includes t).Links source text →
      ∀ path ∈ (Outline.ofText text).inclusions,
        IsName (Includes.relative path) ∨ ∀ d ∈ [config.sourceDir, config.contentDir],
          t.directoryOf (Path.join d (Includes.relative path)) ≠ .ok out

theorem avoids_of_names
    (h : ∀ text ∈ t.texts, ∀ path ∈ (Outline.ofText text).inclusions,
      IsName (Includes.relative path)) : Avoids config t out f := by
  intro source hread text hreach path hm
  refine .inl (h text ?_ path hm)
  rcases ReflTransGen.cases_tail hreach with rfl | ⟨outer, -, path, place, -, hfound⟩
  · exact FileTree.mem_texts_of_read hread
  · exact Includes.listed_ofDirectories t _ path text hfound

/-- The output directory is there and is none of those that are read. -/
structure Apart (config : BuildConfig) (out : List String) (t : FileTree) : Prop
    extends Opened config out t where
  source : ∃ place, t.placeOf config.sourceDir = .ok place ∧ t.isDirectoryAt place = true
  source_ne : t.placeOf config.sourceDir ≠ .ok out
  content_ne : t.placeOf config.contentDir ≠ .ok out

/-- Files in the output directory make no difference to a shader that avoids it. -/
theorem result_eq_of_extends (h : Apart config out t) (he : t.Extends out t') (hf : IsShader f)
    (ha : Avoids config t out f) : result config t' f = result config t f := by
  have hread : t'.read (config.sourcePath f) = t.read (config.sourcePath f) := by
    obtain ⟨place, hp, hd⟩ := h.source
    exact he.read_join_eq hf.toIsName hp hd fun heq => h.source_ne (heq ▸ hp)
  rw [result, result, hread]
  split
  next => rfl
  next source hr =>
    have hagree : (config.includes t).AgreeFrom (config.includes t') source := by
      intro text hreach path hm
      refine Includes.findInTree_congr fun d hdir => he.node?_eq h.proper ?_
      rcases ha source hr text hreach path hm with hname | havoids
      · rw [Ne, FileTree.directoryOf_join hname.no_separator h.directory]
        rcases List.mem_pair.1 hdir with rfl | rfl
        · exact h.source_ne
        · exact h.content_ne
      · exact havoids d hdir
    rw [products, products, Shader.ofSource_congr hagree]

theorem mem_filesOf {r : Except ShaderFault (String × String)} {p : String × String}
    (h : p ∈ filesOf f r) : r.isOk = true ∧ (p.1 = f ∨ p.1 = descriptionName f) := by
  cases r with
  | error fault => cases h
  | ok texts =>
    refine ⟨rfl, ?_⟩
    rcases List.mem_pair.1 h with rfl | rfl
    · exact .inl rfl
    · exact .inr rfl

/-- No two files of shaders have one name. -/
theorem nodup_filesOfAll (hf : ∀ f ∈ names, IsShader f) (hn : names.Nodup) :
    ((filesOfAll config out names t).map Prod.fst).Nodup := by
  rw [filesOfAll, List.map_flatMap, List.nodup_flatMap]
  refine ⟨fun f hm => ?_, hn.imp_of_mem fun {f g} hm hm' hne => ?_⟩
  · cases outcome config out names t f with
    | error fault => exact List.nodup_nil
    | ok texts =>
      have : f ≠ descriptionName f := (hf f hm).ne_descriptionName (hf f hm)
      simpa [filesOf] using this
  · intro name hname hname'
    obtain ⟨p, hp, rfl⟩ := List.mem_map.1 hname
    obtain ⟨q, hq, he⟩ := List.mem_map.1 hname'
    rcases (mem_filesOf hp).2 with h | h <;> rcases (mem_filesOf hq).2 with h' | h'
    · exact hne (by rw [← h, ← he, h'])
    · exact (hf f hm).ne_descriptionName (hf g hm') (by rw [← h, ← he, h'])
    · exact (hf g hm').ne_descriptionName (hf f hm) (by rw [← h', he, h])
    · exact hne ((hf f hm).eq_of_descriptionName (hf g hm') (by rw [← h, ← he, h']))

/-! ## The end of a build -/

/-- A build that ends with the files of its shaders and the inspection in the output directory. -/
structure Ends (config : BuildConfig) (out : List String) (names : List String) (start : FileTree)
    (b : Build) : Prop where
  opened : Opened config out start
  writable : Writable out start
    (filesOfAll config out names start ++ [("metadata.json", b.metadata.toJson.pretty)])
  tree : b.tree = start.withFiles out
    (filesOfAll config out names start ++ [("metadata.json", b.metadata.toJson.pretty)])
  written : b.written = pathed config
    (filesOfAll config out names start ++ [("metadata.json", b.metadata.toJson.pretty)])
  generated : b.report.generated =
    names.filter fun f => (outcome config out names start f).isOk
  failed : b.report.failed.map FailedShader.file =
    names.filter fun f => !(outcome config out names start f).isOk

theorem isName_metadata : IsName "metadata.json" := by decide

theorem exists_opened (ht : tree.Proper) (hm : tree.makeDirectories config.outputDir = .ok start) :
    ∃ out, Opened config out start := by
  obtain ⟨hproper, -, out, hplace, hd⟩ := ht.makeDirectories hm
  exact ⟨out, hproper, hplace, hd⟩

theorem exists_ends (ht : tree.Proper) (hn : shaderNames tree config.sourceDir = .ok names)
    (hm : tree.makeDirectories config.outputDir = .ok start)
    (hs : ServedAll config { tree := start } names) :
    ∃ out b, run config tree = (b, none) ∧ Ends config out names start b := by
  obtain ⟨hsorted, hf, -⟩ := shaderNames_eq ht hn
  obtain ⟨out, ho⟩ := exists_opened ht hm
  have hdistinct := nodup_of_sorted hsorted
  obtain ⟨b, hb, htakes, last, hlast⟩ :
      ∃ b, shaders config { tree := start } names = (b, none) ∧ _ :=
    takesAll_shaders ho hf hdistinct hs
  have ho' : Opened config out b.tree := htakes.tree ▸ ho.withFiles htakes.writable
  obtain ⟨hw, heq⟩ := eq_of_write ho' (fun _ => isName_metadata) hlast
  refine ⟨out, last, ?_, ?_⟩
  · simp only [run, hn, hm, hb]
    delta finish
    rw [hlast]
  rw [heq]
  refine ⟨ho, fun f hmem => ?_, ?_, ?_, htakes.generated, htakes.failed⟩
  · rcases List.mem_append.1 hmem with hmem | hmem
    · exact htakes.writable f hmem
    · refine (hw f hmem).imp_right fun hfree => ?_
      rwa [htakes.tree, htakes.writable.extends.isDirectoryAt_eq] at hfree
  · rw [FileTree.withFiles_append, htakes.tree]
  · rw [htakes.written, pathed, pathed, pathed, List.map_append]
    rfl

namespace Ends

variable (h : Ends config out names start b)

include h

theorem opened_tree : Opened config out b.tree := h.tree ▸ h.opened.withFiles h.writable

theorem unchanged {place : List String}
    (hfiles : ∀ f ∈ b.report.generated, place ≠ out ++ [f] ∧ place ≠ out ++ [descriptionName f])
    (hmetadata : place ≠ out ++ ["metadata.json"]) : b.tree.get? place = start.get? place := by
  rw [h.tree]
  refine FileTree.get?_withFiles_of_ne fun p hp => ?_
  rcases List.mem_append.1 hp with hp | hp
  · obtain ⟨f, hf, hp⟩ := List.mem_flatMap.1 hp
    obtain ⟨hok, hname⟩ := mem_filesOf hp
    obtain ⟨hne, hne'⟩ := hfiles f (h.generated ▸ List.mem_filter.2 ⟨hf, hok⟩)
    rcases hname with hname | hname <;> rwa [hname]
  · rwa [List.mem_singleton.1 hp]

theorem read_metadata : b.tree.read config.metadataPath = .ok b.metadata.toJson.pretty := by
  refine FileTree.read_join isName_metadata h.opened_tree.place h.opened_tree.directory ?_
  rw [h.tree, FileTree.withFiles_append]
  exact FileTree.get?_withFiles_of_mem (by simp) List.mem_cons_self

/-- The files of shaders are there at the end, but for one that has the name of the inspection. -/
theorem read_file {p : String × String} (hf : ∀ f ∈ names, IsShader f) (hn : names.Nodup)
    (hp : p ∈ filesOfAll config out names start) (hne : p.1 ≠ "metadata.json") :
    b.tree.read (config.outputPath p.1) = .ok p.2 := by
  have hname := (h.writable p (List.mem_append_left _ hp)).1
  refine FileTree.read_join hname h.opened_tree.place h.opened_tree.directory ?_
  rw [h.tree, FileTree.withFiles_append, FileTree.get?_withFiles_of_ne]
  · exact FileTree.get?_withFiles_of_mem (nodup_filesOfAll hf hn) hp
  · intro q hq
    rw [List.mem_singleton.1 hq]
    exact FileTree.append_singleton_ne out hne

/-- A failed shader has left nothing. -/
theorem unchanged_of_failed {f : String} (hs : ∀ f ∈ names, IsShader f)
    (hf : f ∈ b.report.failed.map FailedShader.file) :
    b.tree.get? (out ++ [f]) = start.get? (out ++ [f]) ∧
      (f ≠ "metadata.hlsl" →
        b.tree.get? (out ++ [descriptionName f]) = start.get? (out ++ [descriptionName f])) := by
  rw [h.failed] at hf
  obtain ⟨hf, hfault⟩ := List.mem_filter.1 hf
  have hinj : ∀ {name name' : String}, name ≠ name' → out ++ [name] ≠ out ++ [name'] :=
    FileTree.append_singleton_ne out
  have hother : ∀ g ∈ b.report.generated, IsShader g ∧ f ≠ g := by
    intro g hg
    rw [h.generated] at hg
    obtain ⟨hg, hok⟩ := List.mem_filter.1 hg
    refine ⟨hs g hg, ?_⟩
    rintro rfl
    simp [hok] at hfault
  refine ⟨h.unchanged (fun g hg => ?_) (hinj ?_), fun hne => h.unchanged (fun g hg => ?_) (hinj ?_)⟩
  · obtain ⟨hg, hne⟩ := hother g hg
    exact ⟨hinj hne, hinj ((hs f hf).ne_descriptionName hg)⟩
  · exact (hs f hf).ne_metadata
  · obtain ⟨hg, hne⟩ := hother g hg
    refine ⟨hinj (hg.ne_descriptionName (hs f hf)).symm, hinj fun he => hne ?_⟩
    exact (hs f hf).eq_of_descriptionName hg he
  · exact fun he => hne ((hs f hf).eq_of_metadata he)

/-- A generated shader has left its text and its description, which only the inspection can take the
place of. -/
theorem read_of_generated {f output description : String} (hs : ∀ f ∈ names, IsShader f)
    (hn : names.Nodup) (hf : f ∈ names)
    (ho : outcome config out names start f = .ok (output, description)) :
    b.tree.read (config.outputPath f) = .ok output ∧
      b.tree.read (config.descriptionPath f) =
        .ok (if f = "metadata.hlsl" then b.metadata.toJson.pretty else description) := by
  have hfiles : ∀ p ∈ [(f, output), (descriptionName f, description)],
      p ∈ filesOfAll config out names start :=
    fun p hp => List.mem_flatMap.2 ⟨f, hf, ho ▸ hp⟩
  constructor
  · have hp := hfiles (f, output) List.mem_cons_self
    exact h.read_file (p := (f, output)) hs hn hp (hs f hf).ne_metadata
  · rw [descriptionPath_eq]
    split
    next he =>
      rw [he, descriptionName_metadata]
      exact h.read_metadata
    next hne =>
      have hp := hfiles (descriptionName f, description) (by simp)
      exact h.read_file (p := (descriptionName f, description)) hs hn hp
        fun he => hne ((hs f hf).eq_of_metadata he)

end Ends

/-- Making the output directory leaves it apart from those that are read if it is another one. -/
theorem apart_start (ht : tree.Proper) (hn : shaderNames tree config.sourceDir = .ok names)
    (hm : tree.makeDirectories config.outputDir = .ok start) (ho : Opened config out start)
    (hsource : start.placeOf config.sourceDir ≠ start.placeOf config.outputDir)
    (hcontent : start.placeOf config.contentDir ≠ start.placeOf config.outputDir) :
    Apart config out start := by
  obtain ⟨-, -, place, hp, hd, -⟩ := shaderNames_eq ht hn
  obtain ⟨-, hwithin, -⟩ := ht.makeDirectories hm
  rw [ho.place] at hsource hcontent
  refine ⟨ho, ⟨place, hwithin.placeOf hp, ?_⟩, hsource, hcontent⟩
  exact FileTree.isDirectoryAt_iff.2 (hwithin.get? (FileTree.isDirectoryAt_iff.1 hd))

/-- A shader that avoids the output directory is served if no directory stands where its files go
and it is not given up. -/
theorem served_of_extends (h : Apart config out start)
    (hfree : ∀ name, start.isDirectoryAt (out ++ [name]) = false) (hf : IsShader f)
    (hname : descriptionName f ≠ "..") (ha : Avoids config start out f)
    (hr : ∀ fault, result config start f = .error fault → Owned fault)
    (ho : Opened config out b.tree) (he : start.Extends out b.tree) : Served config b f := by
  unfold Served
  rw [result_eq_of_extends h he hf ha]
  split
  next output description _ =>
    have hw : Writable out b.tree (filesOf f (.ok (output, description))) := by
      refine List.forall_mem_cons.2 ⟨⟨hf.toIsName, ?_⟩, fun p hp => ?_⟩
      · exact (he.isDirectoryAt_eq _).trans (hfree f)
      · rw [List.mem_singleton.1 hp]
        exact ⟨hf.isName_descriptionName hname, (he.isDirectoryAt_eq _).trans (hfree _)⟩
    rw [descriptionPath_eq]
    exact congrArg Prod.snd (writeAll_eq ho hw)
  next fault hfault => exact hr fault hfault

/-- By induction on the shaders: the output directory may hold the files of some already. -/
theorem servedAll_of_extends (h : Apart config out start)
    (hfree : ∀ name, start.isDirectoryAt (out ++ [name]) = false)
    (hf : ∀ f ∈ names, IsShader f ∧ descriptionName f ≠ ".." ∧ Avoids config start out f ∧
      ∀ fault, result config start f = .error fault → Owned fault)
    (ho : Opened config out b.tree) (he : start.Extends out b.tree) : ServedAll config b names := by
  induction names generalizing b with
  | nil =>
    refine ⟨_, (write_outputPath _ ho isName_metadata).trans (if_neg ?_)⟩
    simp [he.isDirectoryAt_eq, hfree]
  | cons f rest ih =>
    obtain ⟨⟨hshader, hname, havoids, hr⟩, hrest⟩ := List.forall_mem_cons.1 hf
    have hserved := served_of_extends h hfree hshader hname havoids hr ho he
    obtain ⟨hw, b₁, hb₁, htakes⟩ := takes_shader ho hshader hserved
    refine ⟨hserved, ?_⟩
    rw [hb₁]
    exact ih hrest (htakes.tree ▸ ho.withFiles hw) (he.trans (htakes.tree ▸ hw.extends))

/-- A build that includes files by plain names is served if no directory stands in the output
directory and no shader is given up. -/
theorem servedAll_start (ht : tree.Proper) (hn : shaderNames tree config.sourceDir = .ok names)
    (hm : tree.makeDirectories config.outputDir = .ok start)
    (hsource : start.placeOf config.sourceDir ≠ start.placeOf config.outputDir)
    (hcontent : start.placeOf config.contentDir ≠ start.placeOf config.outputDir)
    (hout : start.placeOf config.outputDir = .ok out)
    (hfree : ∀ name, start.isDirectoryAt (out ++ [name]) = false)
    (hnames : ∀ text ∈ start.texts, ∀ path ∈ (Outline.ofText text).inclusions,
      IsName (Includes.relative path))
    (hr : ∀ f ∈ names, descriptionName f ≠ ".." ∧
      ∀ fault, result config start f = .error fault → Owned fault) :
    ServedAll config { tree := start } names := by
  obtain ⟨-, hshaders, -⟩ := shaderNames_eq ht hn
  obtain ⟨out', ho⟩ := exists_opened ht hm
  obtain rfl : out = out' := Except.ok.inj (hout.symm.trans ho.place)
  have hapart := apart_start ht hn hm ho hsource hcontent
  refine servedAll_of_extends hapart hfree (fun f hf => ?_) ho (.refl out start)
  obtain ⟨hname, hfault⟩ := hr f hf
  exact ⟨hshaders f hf, hname, avoids_of_names hnames, hfault⟩

/-! ## What a shader comes to -/

/-- The source of a shader among the files of a tree gives a shader that has all that a pipeline
needs, with this text and with a description that reads like this. -/
def Generates (config : BuildConfig) (t : FileTree) (f output description : String) : Prop :=
  ∃ source shader described, t.read (config.sourcePath f) = .ok source ∧
    Shader.ofSource (config.includes t) f source = .ok shader ∧
    shader.vertexEntry.isSome ∧ shader.pixelEntry.isSome ∧ shader.path.isSome ∧
    PipelineDescription.ofShader f shader = .ok described ∧
    output = shader.output ∧ description = described.text

theorem pipelineFault?_eq_none {shader : Shader} : shader.pipelineFault? = none ↔
    shader.vertexEntry.isSome ∧ shader.pixelEntry.isSome ∧ shader.path.isSome := by
  have hmissing : shader.missingInputs = [] ↔
      shader.vertexEntry.isSome ∧ shader.pixelEntry.isSome ∧ shader.path.isSome := by
    simp [Shader.missingInputs, Option.isSome_iff_ne_none]
  rw [← hmissing, Shader.pipelineFault?, ← List.isEmpty_iff]
  split <;> simp_all

theorem products_eq_ok {includes : Includes} {file source output description : String} :
    products includes file source = .ok (output, description) ↔
      ∃ shader described, Shader.ofSource includes file source = .ok shader ∧
        shader.pipelineFault? = none ∧ PipelineDescription.ofShader file shader = .ok described ∧
        output = shader.output ∧ description = described.text := by
  unfold products
  cases hs : Shader.ofSource includes file source with
  | error => simp [Except.mapError, bind, Except.bind]
  | ok shader =>
    cases hf : shader.pipelineFault? with
    | some message =>
      simp [Except.mapError, bind, Except.bind, hf, throw, throwThe, MonadExceptOf.throw]
    | none =>
      cases hd : PipelineDescription.ofShader file shader with
      | error => simp [Except.mapError, bind, Except.bind, hf, hd]
      | ok described =>
        simp [Except.mapError, bind, Except.bind, hf, hd, pure, Except.pure, eq_comm]

theorem result_eq_ok {output description : String} :
    result config t f = .ok (output, description) ↔ Generates config t f output description := by
  unfold result Generates
  cases hread : t.read (config.sourcePath f) with
  | error => simp
  | ok source => simp [products_eq_ok, pipelineFault?_eq_none, and_assoc]

theorem result_eq {source : String} (h : t.read (config.sourcePath f) = .ok source) :
    result config t f = products (config.includes t) f source := by
  rw [result, h]

theorem exists_rejected {includes : Includes} {file source : String}
    (h : (Declarations.ofRoot includes file source).toOption = none) :
    ∃ r, products includes file source = .error (.stopped (.rejected r)) := by
  cases hd : Declarations.ofRoot includes file source with
  | ok d => simp [hd, Except.toOption] at h
  | error r =>
    refine ⟨r, ?_⟩
    simp only [products, Shader.ofSource, hd, Except.mapError, bind, Except.bind]

/-- Without resources only the entry points and the path of a pipeline can be missing. -/
theorem exists_products {includes : Includes} {file source : String}
    {layout : Option ConstantsLayout} (hplan : Shader.planned includes file source = .ok layout)
    (h : ∃ d ∈ (Declarations.ofRoot includes file source).toOption, d.resources = [] ∧
      d.vertexEntry.isSome ∧ d.pixelEntry.isSome ∧ d.path.isSome) :
    ∃ texts, products includes file source = .ok texts := by
  obtain ⟨shader, hshader⟩ := Shader.exists_ofSource hplan
  obtain ⟨d, hd, hgenerate⟩ := Shader.ofSource_eq_ok hshader
  obtain ⟨_, hd', hr, hvertex, hpixel, hpath⟩ := h
  rw [hd] at hd'
  cases hd'
  obtain ⟨p, -, hresources, -, -, -, hs⟩ := Shader.generate_eq_ok hgenerate
  have hnone : shader.resources = [] := by
    rw [hs]
    rw [hr, Resource.table, Resource.sorted, List.mergeSort_nil] at hresources
    exact hresources
  have hfault : shader.pipelineFault? = none := by
    rw [pipelineFault?_eq_none, hs]
    exact ⟨hvertex, hpixel, hpath⟩
  have hconstants : PipelineDescription.constantsOf shader = [] := by
    rw [PipelineDescription.constantsOf, hnone]
    rfl
  simp only [products, hshader, hfault, PipelineDescription.ofShader, hconstants, Except.mapError,
    bind, Except.bind]
  exact ⟨_, rfl⟩

/-! ## Builds -/

/-- The shaders of a build do not get into each other's way. -/
structure Isolates (config : BuildConfig) (out : List String) (names : List String)
    (start : FileTree) (b : Build) : Prop where
  /-- A shader comes to the text and the description of what its source gives, or it fails. -/
  comes_to : ∀ t f output description,
    result config t f = .ok (output, description) ↔ Generates config t f output description
  /-- A shader is among the generated or the failed ones, both in order. -/
  generated : b.report.generated =
    names.filter fun f => (outcome config out names start f).isOk
  failed : b.report.failed.map FailedShader.file =
    names.filter fun f => !(outcome config out names start f).isOk
  /-- At its turn a shader sees the files of those in front of it. -/
  turn : ∀ earlier f later, names = earlier ++ f :: later →
    outcome config out names start f =
      result config (start.withFiles out (filesOfAll config out earlier start)) f
  /-- It comes to what it comes to on its own if it does not look at them. -/
  alone : ∀ f ∈ names, Avoids config start out f →
    outcome config out names start f = result config start f
  /-- What a shader has come to is there at the end, but for the description of one shader. -/
  read : ∀ f ∈ names, ∀ output description,
    outcome config out names start f = .ok (output, description) →
      b.tree.read (config.outputPath f) = .ok output ∧
        b.tree.read (config.descriptionPath f) =
          .ok (if f = "metadata.hlsl" then b.metadata.toJson.pretty else description)
  written : b.written = pathed config
    (filesOfAll config out names start ++ [("metadata.json", b.metadata.toJson.pretty)])
  /-- Nothing is there that is not the file of a generated shader or the inspection. -/
  unchanged : ∀ place, (∀ f ∈ b.report.generated,
    place ≠ out ++ [f] ∧ place ≠ out ++ [descriptionName f]) →
      place ≠ out ++ ["metadata.json"] → b.tree.get? place = start.get? place
  unchanged_of_failed : ∀ f ∈ b.report.failed.map FailedShader.file,
    b.tree.get? (out ++ [f]) = start.get? (out ++ [f]) ∧
      (f ≠ "metadata.hlsl" →
        b.tree.get? (out ++ [descriptionName f]) = start.get? (out ++ [descriptionName f]))

/-- For any directory of shaders, if the output directory is another one than those that are read
and the file system serves the build. -/
theorem isolates_run {config : BuildConfig} {tree start : FileTree} {names : List String}
    (ht : tree.Proper) (hn : shaderNames tree config.sourceDir = .ok names)
    (hm : tree.makeDirectories config.outputDir = .ok start)
    (hs : ServedAll config { tree := start } names)
    (hsource : start.placeOf config.sourceDir ≠ start.placeOf config.outputDir)
    (hcontent : start.placeOf config.contentDir ≠ start.placeOf config.outputDir) :
    names.Pairwise (· < ·) ∧
      (∃ place, tree.placeOf config.sourceDir = .ok place ∧
        ∀ f, f ∈ names ↔ Path.extension? f = some shaderExtension ∧
          (tree.get? (place ++ [f])).isSome = true) ∧
      ∃ out b, start.placeOf config.outputDir = .ok out ∧ run config tree = (b, none) ∧
        Isolates config out names start b := by
  obtain ⟨hsorted, hshaders, place, hp, -, hmem⟩ := shaderNames_eq ht hn
  obtain ⟨out, b, hrun, hends⟩ := exists_ends ht hn hm hs
  have hdistinct := nodup_of_sorted hsorted
  have hapart := apart_start ht hn hm hends.opened hsource hcontent
  have hturn : ∀ earlier f later, names = earlier ++ f :: later →
      outcome config out names start f =
        result config (start.withFiles out (filesOfAll config out earlier start)) f := by
    rintro earlier f later rfl
    exact outcome_eq_result hdistinct
  refine ⟨hsorted, ⟨place, hp, hmem⟩, out, b, hapart.place, hrun, ?_⟩
  refine ⟨fun _ _ _ _ => result_eq_ok, hends.generated, hends.failed, hturn, fun f hf ha => ?_,
    fun f hf output description hr => hends.read_of_generated hshaders hdistinct hf hr,
    hends.written, fun place hfiles hmetadata => hends.unchanged hfiles hmetadata,
    fun f hf => hends.unchanged_of_failed hshaders hf⟩
  obtain ⟨earlier, later, hsplit⟩ := List.append_of_mem hf
  rw [hturn earlier f later hsplit]
  have hwritable : Writable out start (filesOfAll config out earlier start) := by
    intro p hp
    refine hends.writable p (List.mem_append_left _ ?_)
    rw [hsplit]
    exact mem_filesOfAll_append _ hp
  exact result_eq_of_extends hapart hwritable.extends (hshaders f hf) ha

/-- A directory with a shader that fails and one behind it that includes a file. -/
theorem exists_isolates :
    let source := "#include \"./lib.h\"\n#pragma path \"p\"\n" ++
      "[vertex] float4 V() : SV_Position \x7b return 0; \x7d\n" ++
      "[pixel] float4 P() : SV_Target \x7b return 1; \x7d\n"
    let config : BuildConfig := ⟨"source", "content", "out"⟩
    let tree : FileTree := { entries := [
      (["source"], .directory),
      (["source", "lit.hlsl"], .file (Utf8.encode source)),
      (["source", "lib.h"], .file (Utf8.encode "#define LIB\n")),
      (["source", "broken.hlsl"], .file (Utf8.encode "[vertex\n"))] }
    let start := tree.set ["out"] .directory
    let names := ["broken.hlsl", "lit.hlsl"]
    tree.Proper ∧ shaderNames tree config.sourceDir = .ok names ∧
      tree.makeDirectories config.outputDir = .ok start ∧
      ServedAll config { tree := start } names ∧
      start.placeOf config.sourceDir ≠ start.placeOf config.outputDir ∧
      start.placeOf config.contentDir ≠ start.placeOf config.outputDir ∧
      ∃ out b, run config tree = (b, none) ∧ Isolates config out names start b ∧
        b.report.generated = ["lit.hlsl"] := by
  intro source config tree start names
  have ht : tree.Proper := by decide +kernel
  have hn : shaderNames tree config.sourceDir = .ok names := by
    have hlist : tree.list config.sourceDir = .ok ["lit.hlsl", "lib.h", "broken.hlsl"] := by
      decide +kernel
    have hfilter : ["lit.hlsl", "lib.h", "broken.hlsl"].filter
        (fun name => Path.extension? name == some shaderExtension) =
        ["lit.hlsl", "broken.hlsl"] := by decide +kernel
    have hle : ¬"lit.hlsl" ≤ "broken.hlsl" := by decide +kernel
    simp [shaderNames, hlist, bind, Except.bind, hfilter, List.mergeSort, hle, pure, Except.pure,
      names]
  have hm : tree.makeDirectories config.outputDir = .ok start := by decide +kernel
  have hout : start.placeOf config.outputDir = .ok ["out"] := by decide +kernel
  have hsource : start.placeOf config.sourceDir ≠ start.placeOf config.outputDir := by
    decide +kernel
  have hcontent : start.placeOf config.contentDir ≠ start.placeOf config.outputDir := by
    decide +kernel
  have hnames : ∀ text ∈ start.texts, ∀ path ∈ (Outline.ofText text).inclusions,
      IsName (Includes.relative path) := by decide +kernel
  obtain ⟨r, hbroken⟩ :
      ∃ r, result config start "broken.hlsl" = .error (.stopped (.rejected r)) := by
    have hread : start.read (config.sourcePath "broken.hlsl") = .ok "[vertex\n" := by
      decide +kernel
    rw [result_eq hread]
    exact exists_rejected (by decide +kernel)
  obtain ⟨texts, hlit⟩ : ∃ texts, result config start "lit.hlsl" = .ok texts := by
    have hread : start.read (config.sourcePath "lit.hlsl") = .ok source := by decide +kernel
    have hplan : Shader.planned (config.includes start) "lit.hlsl" source = .ok none := by
      decide +kernel
    rw [result_eq hread]
    exact exists_products hplan (by decide +kernel)
  have hfree : ∀ name, start.isDirectoryAt (["out"] ++ [name]) = false := by
    intro name
    simp [start, tree, FileTree.isDirectoryAt, FileTree.get?, FileTree.set, FileTree.setEntry,
      List.lookup_cons]
  have hs : ServedAll config { tree := start } names := by
    refine servedAll_start ht hn hm hsource hcontent hout hfree hnames ?_
    rw [List.forall_mem_cons, List.forall_mem_singleton]
    refine ⟨⟨by decide +kernel, fun fault hf => ?_⟩, by decide +kernel, fun fault hf => ?_⟩
    · rw [hbroken] at hf
      cases hf
      exact ⟨r, rfl⟩
    · rw [hlit] at hf
      cases hf
  obtain ⟨-, -, out, b, -, hrun, hisolates⟩ := isolates_run ht hn hm hs hsource hcontent
  refine ⟨ht, hn, hm, hs, hsource, hcontent, out, b, hrun, hisolates, ?_⟩
  have halone := fun f hf => hisolates.alone f hf (avoids_of_names hnames)
  rw [hisolates.generated]
  simp [names, List.filter, halone, hbroken, hlit, Except.isOk, Except.toBool]

theorem text_ne_pretty (d : PipelineDescription) (i : Inspection) :
    d.text ≠ i.toJson.pretty := by
  intro h
  have hchar := congrArg (fun text : String => text.toList[5]?) h
  simp [PipelineDescription.text, PipelineDescription.toJson, Inspection.toJson, JsonValue.pretty,
    JsonValue.prettyChars, JsonValue.lineBreak, JsonValue.quote, JsonValue.escape] at hchar

/-- The inspection takes the place of the description of a shader that has its name. -/
theorem description_overwritten :
    let source := "#pragma path \"p\"\n" ++
      "[vertex] float4 V() : SV_Position \x7b return 0; \x7d\n" ++
      "[pixel] float4 P() : SV_Target \x7b return 1; \x7d\n"
    let config : BuildConfig := ⟨"source", "content", "out"⟩
    let tree : FileTree := { entries := [
      (["source"], .directory),
      (["source", "metadata.hlsl"], .file (Utf8.encode source))] }
    ∃ b, run config tree = (b, none) ∧ b.report.generated = ["metadata.hlsl"] ∧
      ∀ d : PipelineDescription,
        b.tree.read (config.descriptionPath "metadata.hlsl") ≠ .ok d.text := by
  intro source config tree
  let start := tree.set ["out"] .directory
  have ht : tree.Proper := by decide +kernel
  have hn : shaderNames tree config.sourceDir = .ok ["metadata.hlsl"] := by
    have hlist : tree.list config.sourceDir = .ok ["metadata.hlsl"] := by decide +kernel
    have hfilter : ["metadata.hlsl"].filter
        (fun name => Path.extension? name == some shaderExtension) = ["metadata.hlsl"] := by
      decide +kernel
    simp only [shaderNames, hlist, bind, Except.bind, hfilter, List.mergeSort_singleton]
    rfl
  have hm : tree.makeDirectories config.outputDir = .ok start := by decide +kernel
  have hout : start.placeOf config.outputDir = .ok ["out"] := by decide +kernel
  have hsource : start.placeOf config.sourceDir ≠ start.placeOf config.outputDir := by
    decide +kernel
  have hcontent : start.placeOf config.contentDir ≠ start.placeOf config.outputDir := by
    decide +kernel
  obtain ⟨texts, hresult⟩ : ∃ texts, result config start "metadata.hlsl" = .ok texts := by
    have hread : start.read (config.sourcePath "metadata.hlsl") = .ok source := by decide +kernel
    have hplan : Shader.planned (config.includes start) "metadata.hlsl" source = .ok none := by
      decide +kernel
    rw [result_eq hread]
    exact exists_products hplan (by decide +kernel)
  have hfree : ∀ name, start.isDirectoryAt (["out"] ++ [name]) = false := by
    intro name
    simp [start, tree, FileTree.isDirectoryAt, FileTree.get?, FileTree.set, FileTree.setEntry,
      List.lookup_cons]
  have hs : ServedAll config { tree := start } ["metadata.hlsl"] := by
    refine servedAll_start ht hn hm hsource hcontent hout hfree (by decide +kernel) ?_
    rw [List.forall_mem_singleton]
    refine ⟨by decide +kernel, fun fault hf => ?_⟩
    rw [hresult] at hf
    cases hf
  obtain ⟨out, b, hrun, hends⟩ := exists_ends ht hn hm hs
  refine ⟨b, hrun, ?_, fun d hread => ?_⟩
  · rw [hends.generated]
    simp [List.filter, outcome, hresult, Except.isOk, Except.toBool]
  · rw [descriptionPath_eq, descriptionName_metadata] at hread
    exact text_ne_pretty d b.metadata (Except.ok.inj (hread.symm.trans hends.read_metadata))

end Build

end BindlessHlsl
