/-!
Paths as written text with `/` between names. Empty names and `.` say nothing, apart from a `.` in
front.
-/

namespace BindlessHlsl.Path

/-- Separates the names of a path. -/
def separator : Char := '/'

/-- Cuts a text at each separator. -/
def segments : List Char → List (List Char)
  | [] => [[]]
  | c :: rest =>
    if c = separator then [] :: segments rest
    else
      match segments rest with
      | [] => [[c]]
      | first :: others => (c :: first) :: others

/-- Whether a segment says nothing. -/
def isIdle (segment : List Char) : Bool := segment.isEmpty || segment == ['.']

/-- The text up to the end of its last name that says something. -/
def trimIdle (path : List Char) : List Char :=
  let idle := (segments path).reverse.takeWhile isIdle
  path.take (path.length - idle.foldr (fun s n => s.length + 1 + n) 0)

/-- The last name, if it is neither missing nor a reference to a directory. -/
def fileNameChars? (path : List Char) : Option (List Char) :=
  match (segments path).reverse.dropWhile isIdle with
  | [] => none
  | last :: _ => if last = ['.', '.'] then none else some last

/-- The name of the file that a path leads to. -/
def fileName? (path : String) : Option String := (fileNameChars? path.toList).map String.ofList

/-- The name under which a file is known whatever its directory: its file name, or else the path. -/
def key (path : String) : String := (fileName? path).getD path

/-- The position of the point in front of a file name's extension. A point in front of a name starts
none. -/
def extensionPoint? (name : List Char) : Option Nat :=
  let tail := name.reverse.takeWhile (· != '.')
  if tail.length = name.length || tail.length + 1 = name.length then none
  else some (name.length - tail.length - 1)

/-- The extension of a file name. -/
def extensionChars? (path : List Char) : Option (List Char) := do
  let name ← fileNameChars? path
  return name.drop ((← extensionPoint? name) + 1)

/-- The extension of the file that a path leads to. -/
def extension? (path : String) : Option String := (extensionChars? path.toList).map String.ofList

/-- The path up to the extension of its file name, with a new extension behind it. A path without
file name stays as it is. -/
def putExtension (path extension : List Char) : List Char :=
  match fileNameChars? path with
  | none => path
  | some name =>
    let body := trimIdle path
    let stem := body.take (body.length - name.length + (extensionPoint? name).getD name.length)
    if extension.isEmpty then stem else stem ++ '.' :: extension

/-- The path with another extension. As many characters as the old extension has are cut off first;
if what is left leads to no file, it is the answer. An extension cannot hold a separator. -/
def withExtension? (path extension : String) : Option String :=
  let chars := path.toList
  let old := (extensionChars? chars).getD []
  if extension.toList.contains separator then none
  else some (String.ofList
    (putExtension (chars.take (chars.length - old.length)) extension.toList))

/-- A path below a directory. A path that starts with a separator stands for itself. -/
def join (directory path : String) : String :=
  match path.toList with
  | '/' :: _ => path
  | _ =>
    if directory.toList.isEmpty || directory.toList.getLast? == some separator then
      directory ++ path
    else directory ++ "/" ++ path

end BindlessHlsl.Path
