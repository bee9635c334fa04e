import BindlessHlsl.Proofs.Generation
import BindlessHlsl.Proofs.StructTexts

/-!
The ranges that are recorded while a root file is scanned. What is to be blanked, function bodies
and struct definitions go to three different lists, which later passes edit and move by. In the
order in which they were recorded (`Expansion.records`) they lie one behind the other in the text of
the root file and cut no character apart (`Declarations.apart_records`).
-/

namespace BindlessHlsl

open Utf8

/-! ## Records -/

/-- A range that an item of the root file leaves behind. -/
inductive RangeRecord where
  /-- To be overwritten with spaces. -/
  | blank (range : ByteRange)
  /-- The body of a function. -/
  | body (range : ByteRange)
  /-- The definition of a struct. -/
  | struct (range : ByteRange)
  deriving DecidableEq, Repr

namespace RangeRecord

def range : RangeRecord → ByteRange
  | blank range | body range | struct range => range

def blank? : RangeRecord → Option ByteRange
  | blank range => some range
  | _ => none

def body? : RangeRecord → Option ByteRange
  | body range => some range
  | _ => none

def struct? : RangeRecord → Option ByteRange
  | struct range => some range
  | _ => none

end RangeRecord

/-- What an item leaves behind. -/
def Item.record? : Item → Option RangeRecord
  | .function _ range => some (.body range)
  | .struct _ _ range => some (.struct range)
  | item => item.blanked?.map .blank

/-- What an entry leaves behind; items of included files leave nothing. -/
def Entry.record? (e : Entry) : Option RangeRecord := if e.inRoot then e.item.record? else none

/-- What the scan of a root file and of the files that it includes leaves behind, in order. -/
def Expansion.records (x : Expansion) : List RangeRecord := x.entries.filterMap Entry.record?

namespace Item

theorem range?_eq (item : Item) : item.range? = item.record?.map RangeRecord.range := by
  cases item <;> rfl

theorem blanked?_eq (item : Item) : item.blanked? = item.record?.bind RangeRecord.blank? := by
  cases item <;> rfl

theorem structRange?_eq (item : Item) :
    item.structRange? = item.record?.bind RangeRecord.struct? := by
  cases item <;> rfl

theorem body?_eq (item : Item) :
    item.body?.map Prod.snd = item.record?.bind RangeRecord.body? := by
  cases item <;> rfl

end Item

/-- The records of a complete expansion come from the items of the root file. -/
theorem Expansion.records_ofRoot {includes : Includes} {file source : String}
    (h : (ofRoot includes file source).rejection = none) :
    (ofRoot includes file source).records =
      (Outline.ofText source).items.filterMap Item.record? := by
  rw [← rootItems_ofRoot h, List.filterMap_map, List.filterMap_filter]
  rfl

/-! ## What is blanked -/

namespace Scan

variable {s next : Scan} {items : List Item} {item : Item} {range : ByteRange}

/-- What a step has blanked is all that it passed, which is at least one byte. -/
theorem Notices.blanked_pos (h : Notices s next items) (hp : s.cursor.Passes next.cursor)
    (hi : item ∈ items) (hr : item.blanked? = some range) : range.start < range.stop := by
  have hpassed : (s.cursor.rangeUntil next.cursor).start < (s.cursor.rangeUntil next.cursor).stop :=
    hp.pos_lt
  cases h with
  | nothing => cases hi
  | contentPath =>
    rcases List.mem_pair.1 hi with rfl | rfl
    · cases hr
    · cases hr
      exact hpassed
  | bracket =>
    rcases List.mem_append.1 hi with hi | hi
    · obtain ⟨group, _, _, rfl⟩ := mem_groupUses.1 hi
      cases hr
    · obtain rfl := List.mem_singleton.1 hi
      cases hr
      exact hpassed
  | bindGroup | resource | sampler =>
    obtain rfl := List.mem_singleton.1 hi
    cases hr
    exact hpassed
  | inclusion | struct =>
    obtain rfl := List.mem_singleton.1 hi
    cases hr
  | function =>
    rcases List.mem_pair.1 hi with rfl | rfl <;> cases hr

theorem Run.blanked_pos (h : s.Run items) (hi : item ∈ items) (hr : item.blanked? = some range) :
    range.start < range.stop := by
  induction h with
  | done => cases hi
  | step hp hn _ ih =>
    rcases List.mem_append.1 hi with hi | hi
    · exact hn.blanked_pos hp hi hr
    · exact ih hi

end Scan

/-- Ranges that hold something are all taken into a list of edits, in order. -/
theorem EditList.foldl_blank_edits {ranges : List ByteRange}
    (h : ∀ r ∈ ranges, r.start < r.stop) (list : EditList) :
    (ranges.foldl blank list).edits = list.edits ++ ranges.map .blank := by
  induction ranges generalizing list with
  | nil => simp
  | cons r rest ih =>
    obtain ⟨hr, hrest⟩ := List.forall_mem_cons.1 h
    have hne : r.isEmpty = false := by simpa [ByteRange.isEmpty] using hr
    rw [List.foldl_cons, ih hrest, blank, hne]
    simp

/-! ## All records of a root file -/

/-- Ranges of a text, each of which ends before the next one starts. -/
structure ByteRange.Apart (source : String) (ranges : List ByteRange) : Prop where
  advancing : ranges.Pairwise fun a b => a.stop ≤ b.start
  disjoint : ranges.Pairwise fun a b => ∀ offset, ¬(a.contains offset ∧ b.contains offset)
  lies : ∀ r ∈ ranges, r.Lies source 0

theorem ByteRange.not_contains_of_le {a b : ByteRange} (h : a.stop ≤ b.start) (offset : Nat) :
    ¬(a.contains offset ∧ b.contains offset) := by
  simp only [contains, Bool.and_eq_true, decide_eq_true_eq]
  omega

namespace Declarations

/-- The records of a root file and the three lists that they are kept in. -/
structure Keeps (source : String) (d : Declarations) (records : List RangeRecord) : Prop where
  blanks : (Shader.blankItems (Outline.ofText source).items).edits =
    (records.filterMap RangeRecord.blank?).map .blank
  bodies : d.functions.filterMap Function.body = records.filterMap RangeRecord.body?
  structs : d.structs.filterMap Struct.range = records.filterMap RangeRecord.struct?

variable {includes : Includes} {file source : String} {d : Declarations}

theorem blankItems_edits (h : ofRoot includes file source = .ok d) :
    (Shader.blankItems (Outline.ofText source).items).edits =
      ((Outline.ofText source).items.filterMap Item.blanked?).map .blank := by
  refine EditList.foldl_blank_edits (fun r hr => ?_) {}
  obtain ⟨item, hi, hb⟩ := List.mem_filterMap.1 hr
  exact (run_of_ofRoot h).blanked_pos hi hb

theorem keeps_records (h : ofRoot includes file source = .ok d) :
    Keeps source d (Expansion.ofRoot includes file source).records := by
  rw [Expansion.records_ofRoot (gathers_of_ofRoot h).1]
  refine ⟨?_, ?_, ?_⟩
  · rw [blankItems_edits h, List.filterMap_filterMap]
    exact congrArg (List.map Edit.blank <| List.filterMap · _) (funext Item.blanked?_eq)
  · have hbodies := congrArg (List.map Prod.snd) (bodies_eq h)
    simp only [List.map_filterMap, Option.map_map] at hbodies
    rw [List.filterMap_filterMap, ← funext Item.body?_eq, ← hbodies]
    simp [Function.comp_def]
  · rw [structRanges_eq h, List.filterMap_filterMap]
    exact congrArg (List.filterMap · _) (funext Item.structRange?_eq)

theorem apart_records (h : ofRoot includes file source = .ok d) :
    ByteRange.Apart source
      ((Expansion.ofRoot includes file source).records.map RangeRecord.range) := by
  have hmap : (Expansion.ofRoot includes file source).records.map RangeRecord.range =
      (Outline.ofText source).items.filterMap Item.range? := by
    rw [Expansion.records_ofRoot (gathers_of_ofRoot h).1, List.map_filterMap]
    exact congrArg (List.filterMap · _) (funext Item.range?_eq).symm
  obtain ⟨hadvancing, hlies⟩ := (run_of_ofRoot h).ranges (Cursor.within_ofText source)
  rw [hmap]
  exact ⟨hadvancing, hadvancing.imp ByteRange.not_contains_of_le, hlies⟩

/-- Whatever a scan that succeeds has recorded of its root file lies apart. -/
theorem ranges_ofRoot (h : ofRoot includes file source = .ok d) :
    Keeps source d (Expansion.ofRoot includes file source).records ∧
      ByteRange.Apart source
        ((Expansion.ofRoot includes file source).records.map RangeRecord.range) :=
  ⟨keeps_records h, apart_records h⟩

/-- An included file leaves no range behind, and a body may be empty. -/
theorem exists_ranges_apart :
    let files := [("a", "struct T \x7b float x; \x7d;\nvoid f() \x7b\x7d\n")]
    let source := "#include \"a\"\n" ++
      "/* é */ SamplerState s: defaultPoint \x7b \x7d; Texture2D t;\n" ++
      "struct S \x7b float x; \x7d;void g() \x7b\x7d\n"
    (Expansion.ofRoot (.ofFiles files) "f" source).records =
        [.blank ⟨22, 55⟩, .blank ⟨56, 68⟩, .struct ⟨69, 91⟩, .body ⟨101, 101⟩] ∧
      ∃ d, ofRoot (.ofFiles files) "f" source = .ok d ∧
        Keeps source d (Expansion.ofRoot (.ofFiles files) "f" source).records ∧
        ByteRange.Apart source
          ((Expansion.ofRoot (.ofFiles files) "f" source).records.map RangeRecord.range) := by
  intro files source
  have hrecords : (Expansion.ofRoot (.ofFiles files) "f" source).records =
      [.blank ⟨22, 55⟩, .blank ⟨56, 68⟩, .struct ⟨69, 91⟩, .body ⟨101, 101⟩] := by
    decide +kernel
  have hok : (ofRoot (.ofFiles files) "f" source).toOption.isSome := by decide +kernel
  cases h : ofRoot (.ofFiles files) "f" source with
  | error => simp [h, Except.toOption] at hok
  | ok d => exact ⟨hrecords, d, rfl, ranges_ofRoot h⟩

end Declarations

end BindlessHlsl
