import BindlessHlsl.Build.Basic

/-!
The command line. It takes the directories of a build from the environment, reads them into memory,
builds the shaders and writes what the build has written.
-/

namespace BindlessHlsl.CommandLine

/-- Reads what a path leads to into a tree, directories with all that is below them. What cannot be
read is left out. -/
partial def load (tree : FileTree) (path : String) : IO FileTree := do
  let place := (← IO.currentDir) / path
  if ← place.isDir then
    let mut tree := (tree.makeDirectories path).toOption.getD tree
    for entry in ← place.readDir do
      tree ← load tree (Path.join path entry.fileName)
    return tree
  else if ← place.pathExists then
    let bytes ← IO.FS.readBinFile place
    return (tree.put path bytes.data.toList).toOption.getD tree
  else return tree

/-- The tree of the current directory with the directories of a build. -/
def snapshot (config : BuildConfig) : IO FileTree := do
  let home := (FileTree.steps (← IO.currentDir).toString).filter fun name => !FileTree.isIdle name
  let mut tree := FileTree.atHome home
  for directory in [config.sourceDir, config.contentDir, config.outputDir] do
    tree ← load tree directory
  return tree

/-- Writes the files of a build. -/
def writeOut (config : BuildConfig) (b : Build) : IO Unit := do
  IO.FS.createDirAll config.outputDir
  for (path, text) in b.written do
    IO.FS.writeFile path text

/-- Builds the shaders that the environment points to. -/
def run : IO UInt32 := do
  let names := ["SHADERS_SOURCE_DIR", "SHADERS_CONTENT_DIR", "SHADERS_OUTPUT_DIR"]
  let values ← names.mapM fun name => do return (name, ← IO.getEnv name)
  let config := BuildConfig.ofEnvironment (← IO.currentDir).toString fun name =>
    (values.lookup name).join
  let outcome := Build.run config (← snapshot config)
  if !outcome.1.written.isEmpty then
    writeOut config outcome.1
  let exit := ExitReport.ofOutcome outcome
  IO.eprint exit.errorText
  return exit.code

end BindlessHlsl.CommandLine

/-- Builds the shaders that the environment points to. -/
def main : IO UInt32 := BindlessHlsl.CommandLine.run
