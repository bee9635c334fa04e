import BindlessHlsl.FileTree
import BindlessHlsl.Includes

/-!
Included files by search path: the first directory of a list that has a file under the path counts,
whether or not the file can be read.
-/

namespace BindlessHlsl.Includes

/-- The path of the first file that a list of directories has under a path. -/
def searched? (tree : FileTree) (directories : List String) (path : String) : Option String :=
  (directories.map fun d => Path.join d (relative path)).find? tree.isFile

/-- What is found under a path in a list of directories. -/
def findInTree (tree : FileTree) (directories : List String) (path : String) : Lookup :=
  match searched? tree directories path with
  | none => .missing
  | some place =>
    match tree.read place with
    | .ok text => .found text
    | .error e => .unreadable e.message

/-- The files of a list of directories as a source of included files. -/
def ofDirectories (tree : FileTree) (directories : List String) : Includes where
  find := findInTree tree directories
  place := searched? tree directories
  texts := tree.texts

theorem listed_ofDirectories (tree : FileTree) (directories : List String) :
    (ofDirectories tree directories).Listed := by
  intro path text h
  change findInTree tree directories path = .found text at h
  unfold findInTree at h
  split at h
  · cases h
  · split at h
    next hr =>
      cases h
      exact FileTree.mem_texts_of_read hr
    next => cases h

end BindlessHlsl.Includes
