import BindlessHlsl.Proofs.InspectionTraversal
import Mathlib.Data.List.Forall2

/-!
What an inspection records depends on its files only through what their notes lead to: the bind
groups and variants that they declare and the paths that they include, in order (`Note.effect?`).
Faults are reported and have no other consequence, and it does not matter in which line a directive
stands. So files may be exchanged for others with the same effects, and the records stay as they are
(`Inspection.ofSource_exchange`).
-/

namespace BindlessHlsl

namespace Note

/-- What a note leads to, wherever in a text its directive stands. -/
def effect? : Note → Option Note
  | .bindGroup name => some (.bindGroup name)
  | .variant v => some (.variant v)
  | .inclusion path _ => some (.inclusion path (.point ⟨1, 1⟩))
  | .fault .. => none

/-- What the notes of a text lead to. -/
def effects (text : String) : List Note := (ofText text).filterMap effect?

end Note

open Note (effect? effects)

theorem FileRecord.ofNotes_filterMap_effect? (notes : List Note) :
    ofNotes (notes.filterMap effect?) = ofNotes notes := by
  rw [ofNotes, ofNotes, List.filterMap_filterMap, List.filterMap_filterMap]
  congr 3 <;> funext note <;> cases note <;> rfl

theorem FileRecord.ofText_eq (text : String) : ofText text = ofNotes (effects text) :=
  (ofNotes_filterMap_effect? _).symm

theorem Inspection.keysIn_eq (text : String) :
    keysIn text = (effects text).filterMap fun
      | .inclusion path _ => some (Path.key path)
      | _ => none := by
  rw [keysIn, effects, List.filterMap_filterMap]
  congr 1
  funext note
  cases note <;> rfl

/-- The same files with other texts. -/
def Includes.exchange (includes : Includes) (change : String → String) : Includes where
  find path :=
    match includes.find path with
    | .found text => .found (change text)
    | .missing => .missing
    | .unreadable message => .unreadable message
  place := includes.place
  texts := includes.texts.map change

/-- Two files under way that have the same record and the same effects to come. -/
structure InspectionFrame.Alike (f g : InspectionFrame) : Prop where
  file : f.file = g.file
  record : f.record = g.record
  effects : f.notes.filterMap effect? = g.notes.filterMap effect?

theorem InspectionFrame.alike_ofText {text other : String} (file : String)
    (h : effects text = effects other) : Alike (ofText file text) (ofText file other) :=
  ⟨rfl, by rw [ofText, ofText, FileRecord.ofText_eq, FileRecord.ofText_eq, h], h⟩

namespace Inspection

open InspectionState (scanned?)

variable {includes : Includes} {keys : List String} {file : String} {record : FileRecord}
  {faults notes : List Note} {stack stack' : List InspectionFrame} {change : String → String}

/-- Notes without effect change nothing about which files are left with which records. -/
theorem scans_of_no_effect (h : ∀ note ∈ faults, effect? note = none) :
    (eventsFrom includes keys (⟨file, faults ++ notes, record⟩ :: stack)).filterMap scanned? =
      (eventsFrom includes keys (⟨file, notes, record⟩ :: stack)).filterMap scanned? := by
  induction faults with
  | nil => rfl
  | cons note faults ih =>
    obtain ⟨hnote, hfaults⟩ := List.forall_mem_cons.1 h
    cases note with
    | bindGroup | variant | inclusion => cases hnote
    | fault reason span =>
      rw [List.cons_append, eventsFrom, List.filterMap_cons_none rfl, ih hfaults]

/-- A file that is like one with a note of effect comes to a note of the same effect. -/
theorem exists_effect {note effect : Note} {g : InspectionFrame} (he : effect? note = some effect)
    (h : InspectionFrame.Alike ⟨file, note :: notes, record⟩ g) :
    ∃ note' notes', effect? note' = some effect ∧
      InspectionFrame.Alike ⟨file, notes, record⟩ ⟨file, notes', record⟩ ∧
      ∀ keys stack, (eventsFrom includes keys (g :: stack)).filterMap scanned? =
        (eventsFrom includes keys (⟨file, note' :: notes', record⟩ :: stack)).filterMap
          scanned? := by
  obtain ⟨file', all, record'⟩ := g
  obtain ⟨rfl, rfl, heffects⟩ := h
  rw [List.filterMap_cons_some he] at heffects
  obtain ⟨faults, note', notes', rfl, hfaults, hnote, hrest⟩ :=
    List.filterMap_eq_cons_iff.1 heffects.symm
  exact ⟨note', notes', hnote, ⟨rfl, rfl, hrest.symm⟩, fun keys stack => scans_of_no_effect hfaults⟩

/-- Files that are alike under way are left alike. -/
theorem scans_eventsFrom (hchange : ∀ text, effects (change text) = effects text)
    (h : List.Forall₂ InspectionFrame.Alike stack stack') :
    (eventsFrom includes keys stack).filterMap scanned? =
      (eventsFrom (includes.exchange change) keys stack').filterMap scanned? := by
  fun_induction eventsFrom includes keys stack generalizing stack' with
  | case1 =>
    cases h
    rw [eventsFrom]
  | case2 keys name record stack ih =>
    cases h with
    | @cons _ g _ below halike hbelow =>
      obtain ⟨file', notes', record'⟩ := g
      obtain ⟨rfl, rfl, he⟩ := halike
      have hnone := List.filterMap_eq_nil_iff.1 he.symm
      have hskip := @scans_of_no_effect (includes.exchange change) keys name record notes' [] below
        hnone
      rw [List.append_nil] at hskip
      rw [hskip, eventsFrom]
      exact congrArg (⟨name, [], record⟩ :: ·) (ih hbelow)
  | case3 keys name record stack reason span notes ih =>
    rw [List.filterMap_cons_none rfl]
    cases h with
    | cons halike hbelow => exact ih (.cons ⟨halike.file, halike.record, halike.effects⟩ hbelow)
  | case4 keys name path span notes record below hm _ ihfound ihabsent =>
    cases h with
    | cons halike hbelow =>
      obtain ⟨note', notes', hnote, hrest, hscans⟩ := exists_effect rfl halike
      cases note' with
      | bindGroup | variant | fault => cases hnote
      | inclusion path' span' =>
        obtain rfl : path' = path := by simpa [effect?] using hnote
        rw [hscans, eventsFrom, dif_pos hm, List.filterMap_cons_none rfl,
          List.filterMap_cons_none rfl]
        simp only [Includes.exchange]
        cases includes.find path' with
        | found text =>
          refine ihfound text (.cons (InspectionFrame.alike_ofText _ ?_) (.cons hrest hbelow))
          exact (hchange text).symm
        | missing | unreadable => exact ihabsent (.cons hrest hbelow)
  | case5 keys name path span notes record below hm ih =>
    cases h with
    | cons halike hbelow =>
      obtain ⟨note', notes', hnote, hrest, hscans⟩ := exists_effect rfl halike
      cases note' with
      | bindGroup | variant | fault => cases hnote
      | inclusion path' span' =>
        obtain rfl : path' = path := by simpa [effect?] using hnote
        rw [hscans, eventsFrom, dif_neg hm]
        exact ih (.cons hrest hbelow)
  | case6 keys name notes record below group ih | case7 keys name notes record below variant ih =>
    cases h with
    | cons halike hbelow =>
      obtain ⟨note', notes', hnote, hrest, hscans⟩ := exists_effect rfl halike
      cases note' with
      | inclusion | fault => cases hnote
      | bindGroup | variant =>
        rw [hscans, eventsFrom]
        exact ih (.cons hrest hbelow)

/-- Files may be exchanged for others with the same effects. -/
theorem ofSource_exchange (hchange : ∀ text, effects (change text) = effects text)
    (includes : Includes) (file source : String) :
    ofSource (includes.exchange change) file (change source) = ofSource includes file source := by
  have hkeys : keysOf (includes.exchange change) (change source) = keysOf includes source := by
    have hkeysIn : ∀ text, keysIn (change text) = keysIn text := fun text => by
      rw [keysIn_eq, keysIn_eq, hchange]
    rw [keysOf, keysOf, List.flatMap_cons, List.flatMap_cons, hkeysIn]
    simp only [Includes.exchange, List.flatMap_map, hkeysIn]
  have hscans : (events (includes.exchange change) file (change source)).filterMap scanned? =
      (events includes file source).filterMap scanned? := by
    rw [events, events]
    change List.filterMap _ (eventsFrom _ (without (keysOf _ _) _) _) = _
    rw [hkeys]
    refine (scans_eventsFrom hchange (.cons (InspectionFrame.alike_ofText _ ?_) .nil)).symm
    exact (hchange source).symm
  have hfiles : (ofSource includes file source).files = _ := files_ofSource
  rw [← hscans, ← files_ofSource] at hfiles
  exact congrArg Inspection.mk hfiles.symm

end Inspection

end BindlessHlsl
