import BindlessHlsl.Includes
import BindlessHlsl.Outline.Basic

/-!
The expansion of a shader: the items of its root file with those of every included file put in
place, depth first, each with the file it comes from and the depth at which that file was included.
The expansion stops at the first failure to read a file or to find one.

Which items an expansion holds depends on the texts alone. A chain of includes is cut at a fixed
depth, so a file that includes itself is always rejected.
-/

namespace BindlessHlsl

/-- An item of an expansion. -/
structure Entry where
  file : String
  /-- Number of files that include one another to reach this one; zero in the root file. -/
  depth : Nat
  item : Item
  deriving DecidableEq, Repr

/-- Whether the item belongs to the root file. -/
def Entry.inRoot (e : Entry) : Bool := e.depth == 0

/-- The items of a shader and its included files, and why the expansion stopped if it did. -/
structure Expansion where
  entries : List Entry
  rejection : Option Rejection
  deriving DecidableEq, Repr

namespace Expansion

/-- How deep files may be included. -/
def depthLimit : Nat := 32

/-- An expansion that stops at once. -/
def stopped (file : String) (place : Location) (cause : Cause) : Expansion :=
  ⟨[], some (Failure.inFile (.at place cause) file)⟩

/-- One expansion followed by another, unless the first one stopped. -/
def append (first second : Expansion) : Expansion :=
  match first.rejection with
  | some r => ⟨first.entries, some r⟩
  | none => ⟨first.entries ++ second.entries, second.rejection⟩

/-- What an item brings in besides itself, with the expansion of every included file given. -/
def expanded (enter : String → Location → Expansion) : Item → Expansion
  | .inclusion path place => enter path place
  | _ => ⟨[], none⟩

/-- Expands items of a file, with the expansion of every included file given. -/
def ofItems (enter : String → Location → Expansion) (file : String) (depth : Nat)
    (failure : Option Failure) : List Item → Expansion
  | [] => ⟨[], failure.map fun f => f.inFile file⟩
  | item :: rest =>
    append ⟨[⟨file, depth, item⟩], none⟩
      ((expanded enter item).append (ofItems enter file depth failure rest))

/-- Expands a file that may include files to a number of further levels. -/
def ofFile (includes : Includes) : (levels depth : Nat) → (file text : String) → Expansion
  | 0, depth, file, text =>
    let outline := Outline.ofText text
    let enter path place := stopped file place (.includeDepthExceeded path depthLimit)
    ofItems enter file depth outline.failure outline.items
  | levels + 1, depth, file, text =>
    let outline := Outline.ofText text
    let enter path place :=
      match includes.find path with
      | .found inner => ofFile includes levels (depth + 1) path inner
      | .missing => stopped file place (.includeNotFound path)
      | .unreadable message => stopped file place (.includeUnreadable path message)
    ofItems enter file depth outline.failure outline.items

/-- The expansion of a root file. -/
def ofRoot (includes : Includes) (file text : String) : Expansion :=
  ofFile includes depthLimit 0 file text

end Expansion

/-- What reaching an item reports. An included file is looked up unless it lies too deep. -/
def Entry.report (includes : Includes) (e : Entry) : List LogEntry :=
  match e.item with
  | .inclusion path place =>
    let warning : LogEntry := ⟨.warn, s!"{e.file}({place.text}): legacy #include \"{path}\", " ++
      "declarations are collected but the include is not rewritten"⟩
    warning :: if e.depth < Expansion.depthLimit then includes.report path else []
  | _ => []

end BindlessHlsl
