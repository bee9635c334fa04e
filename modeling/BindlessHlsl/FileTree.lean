import BindlessHlsl.Path
import BindlessHlsl.Utf8

/-!
A file system in memory. Files and directories are found by walking along a written path; every name
on the way has to be a directory.
-/

namespace BindlessHlsl

/-- What stands at a place. -/
inductive FileNode where
  | file (bytes : List UInt8)
  | directory
  deriving DecidableEq, Repr

/-- Why an operation on files fails. -/
inductive FileError where
  | notFound
  | alreadyExists
  | notDirectory
  | isDirectory
  | invalidText
  deriving DecidableEq, Repr

/-- The message of an error. -/
def FileError.message : FileError → String
  | notFound => "No such file or directory (os error 2)"
  | alreadyExists => "File exists (os error 17)"
  | notDirectory => "Not a directory (os error 20)"
  | isDirectory => "Is a directory (os error 21)"
  | invalidText => "stream did not contain valid UTF-8"

/-- Files and directories by place, a place being the names from the top down. -/
structure FileTree where
  entries : List (List String × FileNode) := []
  /-- Where paths without leading separator start. -/
  home : List String := []
  deriving DecidableEq, Repr, Inhabited

namespace FileTree

/-- What stands at a place. The top is always a directory. -/
def get? (t : FileTree) (place : List String) : Option FileNode :=
  if place.isEmpty then some .directory else t.entries.lookup place

/-- Puts a node at a place among entries, instead of one that stands there. -/
def setEntry (place : List String) (node : FileNode) :
    List (List String × FileNode) → List (List String × FileNode)
  | [] => [(place, node)]
  | entry :: rest =>
    if place = entry.1 then (place, node) :: rest else entry :: setEntry place node rest

/-- The tree with a node at a place. -/
def set (t : FileTree) (place : List String) (node : FileNode) : FileTree :=
  { t with entries := setEntry place node t.entries }

/-- Whether a directory stands at a place. -/
def isDirectoryAt (t : FileTree) (place : List String) : Bool := t.get? place == some .directory

/-- The names along a path. -/
def steps (path : String) : List String := (Path.segments path.toList).map String.ofList

/-- Where a path starts. -/
def origin (t : FileTree) (path : String) : List String :=
  if path.toList.head? = some Path.separator then [] else t.home

/-- Whether a name leads nowhere else. -/
def isIdle (name : String) : Bool := Path.isIdle name.toList

/-- Walks from a place along names. -/
def walk (t : FileTree) (place : List String) : List String → Except FileError (List String)
  | [] => .ok place
  | name :: rest =>
    if t.isDirectoryAt place then
      if isIdle name then t.walk place rest
      else if name = ".." then t.walk place.dropLast rest
      else if (t.get? (place ++ [name])).isSome then t.walk (place ++ [name]) rest
      else .error .notFound
    else .error .notDirectory

/-- The place that a path leads to. -/
def locate (t : FileTree) (path : String) : Except FileError (List String) :=
  if path = "" then .error .notFound else t.walk (t.origin path) (steps path)

/-- What a path leads to. -/
def node? (t : FileTree) (path : String) : Option FileNode :=
  match t.locate path with
  | .ok place => t.get? place
  | .error _ => none

/-- Whether a path leads to a file. -/
def isFile (t : FileTree) (path : String) : Bool :=
  match t.node? path with
  | some (.file _) => true
  | _ => false

/-- The text of the file that a path leads to. -/
def read (t : FileTree) (path : String) : Except FileError String := do
  match t.get? (← t.locate path) with
  | some (.file bytes) =>
    match Utf8.decode? bytes with
    | some text => .ok text
    | none => .error .invalidText
  | some .directory => .error .isDirectory
  | none => .error .notFound

/-- The names in the directory that a path leads to. -/
def list (t : FileTree) (path : String) : Except FileError (List String) := do
  let place ← t.locate path
  if t.isDirectoryAt place then
    return t.entries.filterMap fun e =>
      if e.1.dropLast = place then e.1.getLast? else none
  else throw .notDirectory

/-- Writes a file, whose directory has to be there. -/
def write (t : FileTree) (path : String) (bytes : List UInt8) : Except FileError FileTree := do
  let names := steps path
  let name := names.getLastD ""
  let parent ← t.walk (t.origin path) names.dropLast
  if t.isDirectoryAt parent then
    if isIdle name || name == ".." || t.isDirectoryAt (parent ++ [name]) then throw .isDirectory
    else return t.set (parent ++ [name]) (.file bytes)
  else throw .notDirectory

/-- Makes the directories along names from a place on, where they are not there yet. -/
def makeAlong (t : FileTree) (place : List String) : List String → Except FileError FileTree
  | [] => .ok t
  | name :: rest =>
    if isIdle name then t.makeAlong place rest
    else if name = ".." then t.makeAlong place.dropLast rest
    else
      match t.get? (place ++ [name]) with
      | some .directory => t.makeAlong (place ++ [name]) rest
      | some (.file _) => .error (if rest.all isIdle then .alreadyExists else .notDirectory)
      | none => (t.set (place ++ [name]) .directory).makeAlong (place ++ [name]) rest

/-- Makes a directory and those that lead to it. -/
def makeDirectories (t : FileTree) (path : String) : Except FileError FileTree :=
  t.makeAlong (t.origin path) (steps path)

/-- The tree with nothing but the directories that lead to its home. -/
def atHome (home : List String) : FileTree :=
  let empty : FileTree := { home := home }
  (empty.makeAlong [] home).toOption.getD empty

/-- Writes a file and makes the directories that lead to it. -/
def put (t : FileTree) (path : String) (bytes : List UInt8) : Except FileError FileTree := do
  let t ← t.makeAlong (t.origin path) (steps path).dropLast
  t.write path bytes

/-- The nodes below a path, by the names that lead to them from there. -/
def below (t : FileTree) (path : String) : List (List String × FileNode) :=
  match t.locate path with
  | .error _ => []
  | .ok place => t.entries.filterMap fun e =>
    if place.isPrefixOf e.1 && place.length < e.1.length then some (e.1.drop place.length, e.2)
    else none

/-- Every text in the tree. -/
def texts (t : FileTree) : List String :=
  t.entries.filterMap fun e =>
    match e.2 with
    | .file bytes => Utf8.decode? bytes
    | .directory => none

theorem mem_of_lookup {entries : List (List String × FileNode)} {place : List String}
    {node : FileNode} (h : entries.lookup place = some node) : (place, node) ∈ entries := by
  induction entries with
  | nil => cases h
  | cons entry rest ih =>
    rw [List.lookup_cons] at h
    split at h
    next heq =>
      cases h
      simp [eq_of_beq heq]
    next => exact List.mem_cons_of_mem _ (ih h)

theorem mem_texts_of_get? {t : FileTree} {place : List String} {bytes : List UInt8}
    {text : String} (h : t.get? place = some (.file bytes)) (hd : Utf8.decode? bytes = some text) :
    text ∈ t.texts := by
  unfold get? at h
  split at h
  · cases h
  · exact List.mem_filterMap.2 ⟨(place, .file bytes), mem_of_lookup h, hd⟩

theorem mem_texts_of_read {t : FileTree} {path text : String} (h : t.read path = .ok text) :
    text ∈ t.texts := by
  unfold read at h
  cases hl : t.locate path with
  | error e => simp [hl, bind, Except.bind] at h
  | ok place =>
    simp only [hl, bind, Except.bind] at h
    split at h
    next bytes hg =>
      split at h
      next hd =>
        cases h
        exact mem_texts_of_get? hg hd
      next => cases h
    next => cases h
    next => cases h

end FileTree

end BindlessHlsl
