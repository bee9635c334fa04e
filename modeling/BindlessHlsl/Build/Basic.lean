import BindlessHlsl.Inspection.Json
import BindlessHlsl.Pipeline.Json
import BindlessHlsl.SearchPath

/-!
Building a directory of shaders. Every shader is generated by itself; one that fails is reported and
does not stop the others. What the inspection of each shader gathers is written once at the end.
-/

namespace BindlessHlsl

/-- The directories of a build. -/
structure BuildConfig where
  /-- The shaders. -/
  sourceDir : String
  /-- Searched for included files after the directory of the shaders. -/
  contentDir : String
  /-- Where generated files go. -/
  outputDir : String
  deriving DecidableEq, Repr, Inhabited

namespace BuildConfig

/-- A directory that is set by a name, or else one below a base directory. -/
def directory (base : String) (environment : String → Option String) (name fallback : String) :
    String :=
  match (environment name).filter (· != "") with
  | some directory => directory
  | none => Path.join (Path.join base "shaders") fallback

/-- The directories that an environment sets. -/
def ofEnvironment (base : String) (environment : String → Option String) : BuildConfig where
  sourceDir := directory base environment "SHADERS_SOURCE_DIR" "source"
  contentDir := directory base environment "SHADERS_CONTENT_DIR" "content"
  outputDir := directory base environment "SHADERS_OUTPUT_DIR" "transpiled"

/-- Where a shader comes from. -/
def sourcePath (c : BuildConfig) (file : String) : String := Path.join c.sourceDir file

/-- Where a generated file goes. -/
def outputPath (c : BuildConfig) (file : String) : String := Path.join c.outputDir file

/-- Where the description of a shader goes. -/
def descriptionPath (c : BuildConfig) (file : String) : String :=
  c.outputPath ((Path.withExtension? file "json").getD file)

/-- Where the inspection goes. -/
def metadataPath (c : BuildConfig) : String := c.outputPath "metadata.json"

/-- The included files that the shaders of a build see. -/
def includes (c : BuildConfig) (tree : FileTree) : Includes :=
  .ofDirectories tree [c.sourceDir, c.contentDir]

end BuildConfig

/-- Why a shader fails. -/
inductive ShaderFault where
  | unreadable (path : String) (error : FileError)
  | stopped (stop : Stop)
  | incomplete (message : String)
  | unwritable (error : FileError)
  deriving DecidableEq, Repr

namespace ShaderFault

/-- The message of a fault, followed by those of its causes. -/
def messages : ShaderFault → List String
  | unreadable path error => [s!"failed to read {path}", error.message]
  | stopped (.rejected r) => [r.message]
  | stopped _ => []
  | incomplete message => [message]
  | unwritable error => [error.message]

/-- The messages of a fault in one text. -/
def text (f : ShaderFault) : String := ": ".intercalate f.messages

end ShaderFault

/-- A shader that failed. -/
structure FailedShader where
  file : String
  fault : ShaderFault
  deriving DecidableEq, Repr

/-- What became of the shaders of a build, in order. -/
structure BuildReport where
  generated : List String := []
  failed : List FailedShader := []
  deriving DecidableEq, Repr, Inhabited

/-- Why a build ends without a report. -/
inductive BuildFault where
  | unreadableSource (directory : String) (error : FileError)
  | noOutput (directory : String) (error : FileError)
  | unwritableMetadata (error : FileError)
  /-- A shader could not be worked on at all. -/
  | aborted (stop : Stop)
  deriving DecidableEq, Repr

/-- The message of a fault, followed by those of its causes. -/
def BuildFault.messages : BuildFault → List String
  | unreadableSource directory error => [s!"failed to read {directory}", error.message]
  | noOutput directory error => [s!"failed to create {directory}", error.message]
  | unwritableMetadata error => [error.message]
  | aborted _ => []

/-- A build under way. -/
structure Build where
  tree : FileTree
  /-- Files written so far, each with its path. -/
  written : List (String × String) := []
  metadata : Inspection := {}
  log : List LogEntry := []
  report : BuildReport := {}
  deriving DecidableEq, Repr, Inhabited

namespace Build

/-- The extension of shaders. -/
def shaderExtension : String := "hlsl"

/-- The shaders in a directory, in the order of their names. -/
def shaderNames (tree : FileTree) (directory : String) : Except FileError (List String) := do
  let names ← tree.list directory
  return (names.filter fun name => Path.extension? name == some shaderExtension).mergeSort
    fun a b => decide (a ≤ b)

/-- The generated text of a shader and the text of its description. -/
def products (includes : Includes) (file source : String) :
    Except ShaderFault (String × String) := do
  let shader ← (Shader.ofSource includes file source).mapError .stopped
  match shader.pipelineFault? with
  | some message => throw (.incomplete message)
  | none =>
    let description ← (PipelineDescription.ofShader file shader).mapError .stopped
    return (shader.output, description.text)

/-- The build after a file was written. -/
def write (b : Build) (path text : String) : Except FileError Build := do
  let tree ← b.tree.write path (Utf8.encode text)
  return { b with tree := tree, written := b.written ++ [(path, text)] }

/-- Writes files in order up to the first one that fails. -/
def writeAll (b : Build) : List (String × String) → Build × Option FileError
  | [] => (b, none)
  | (path, text) :: rest =>
    match b.write path text with
    | .ok b => b.writeAll rest
    | .error e => (b, some e)

/-- The build with more reports. -/
def logged (b : Build) (entries : List LogEntry) : Build := { b with log := b.log ++ entries }

/-- Works on one shader. Its inspection counts even if it fails later. -/
def attempt (config : BuildConfig) (b : Build) (file : String) : Build × Option ShaderFault :=
  let path := config.sourcePath file
  match b.tree.read path with
  | .error e => (b, some (.unreadable path e))
  | .ok source =>
    let includes := config.includes b.tree
    let inspected := { b with metadata := b.metadata.merge (.ofSource includes file source) }
    let b := inspected.logged
      (Inspection.report includes file source ++ Shader.report includes file source)
    match products includes file source with
    | .error fault => (b, some fault)
    | .ok (output, description) =>
      let (b, error) := b.writeAll
        [(config.outputPath file, output), (config.descriptionPath file, description)]
      (b, error.map .unwritable)

/-- Works on one shader and reports what became of it, unless it could not be worked on at all. -/
def shader (config : BuildConfig) (b : Build) (file : String) : Build × Option Stop :=
  match attempt config b file with
  | (b, none) =>
    let report := { b.report with generated := b.report.generated ++ [file] }
    ({ b.logged [⟨.info, s!"transpiled {file}"⟩] with report := report }, none)
  | (b, some (.stopped .overflow)) => (b, some .overflow)
  | (b, some (.stopped .insideCharacter)) => (b, some .insideCharacter)
  | (b, some fault) =>
    let report := { b.report with failed := b.report.failed ++ [⟨file, fault⟩] }
    ({ b.logged [⟨.error, s!"failed to transpile {file}: {fault.text}"⟩] with report := report },
      none)

/-- Works on shaders in order. -/
def shaders (config : BuildConfig) (b : Build) : List String → Build × Option Stop
  | [] => (b, none)
  | file :: rest =>
    match shader config b file with
    | (b, none) => shaders config b rest
    | (b, some stop) => (b, some stop)

/-- The end of a build: what is left, and why there is no report if there is none. -/
abbrev Outcome := Build × Option BuildFault

/-- Writes what the inspections gathered. -/
def finish (config : BuildConfig) (b : Build) : Outcome :=
  match b.write config.metadataPath b.metadata.toJson.pretty with
  | .ok b => (b, none)
  | .error e => (b, some (.unwritableMetadata e))

/-- Builds all shaders of a directory. -/
def run (config : BuildConfig) (tree : FileTree) : Outcome :=
  match shaderNames tree config.sourceDir with
  | .error e => ({ tree := tree }, some (.unreadableSource config.sourceDir e))
  | .ok names =>
    match tree.makeDirectories config.outputDir with
    | .error e => ({ tree := tree }, some (.noOutput config.outputDir e))
    | .ok tree =>
      match shaders config { tree := tree } names with
      | (b, none) => finish config b
      | (b, some stop) => (b, some (.aborted stop))

end Build

/-- What a program leaves behind besides files. -/
structure ExitReport where
  code : UInt32
  errorText : String
  deriving DecidableEq, Repr, Inhabited

namespace ExitReport

/-- A failure with a message and the messages of its causes. -/
def ofMessages : List String → ExitReport
  | [] => ⟨1, "Error: \n"⟩
  | [message] => ⟨1, s!"Error: {message}\n"⟩
  | message :: causes =>
    ⟨1, s!"Error: {message}\n\nCaused by:\n" ++ String.join (causes.map fun c => s!"    {c}\n")⟩

/-- The exit code of a build that was aborted. -/
def abortCode : UInt32 := 101

/-- How a build ends as a program. -/
def ofOutcome (outcome : Build.Outcome) : ExitReport :=
  match outcome.2 with
  | some (.aborted _) => ⟨abortCode, "Error: a size does not fit 32 bits\n"⟩
  | some fault => ofMessages fault.messages
  | none =>
    let failed := outcome.1.report.failed.map FailedShader.file
    let total := failed.length + outcome.1.report.generated.length
    if failed.isEmpty then ⟨0, ""⟩
    else
      let names := ", ".intercalate failed
      ofMessages [s!"failed to transpile {failed.length} of {total} shaders: {names}"]

end ExitReport

end BindlessHlsl
