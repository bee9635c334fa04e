import BindlessHlsl.UserConstants

/-!
The index table: resources ordered by bind group and then by name, with a slot for each one that is
not part of the user constants. The table shares the push constants with the user constants as long
as both fit.
-/

namespace BindlessHlsl

namespace Resource

/-- Resources are ordered by bind group, then by name. -/
def compare (a b : Resource) : Ordering :=
  (a.group.compare b.group).then (Ord.compare a.name b.name)

/-- Resources in table order. Those that compare equal keep their order. -/
def sorted (resources : List Resource) : List Resource :=
  resources.mergeSort fun a b => (a.compare b).isLE

/-- Gives out slots from a number on. User constants get none. -/
def withSlots : Nat → List Resource → List Resource
  | _, [] => []
  | n, r :: rest =>
    if r.isConstants then { r with index := none } :: withSlots n rest
    else { r with index := some n.toUInt32 } :: withSlots (n + 1) rest

/-- Resources in table order with their slots. -/
def table (resources : List Resource) : List Resource := withSlots 0 (sorted resources)

/-- The resources that take a slot. -/
def slotted (resources : List Resource) : List Resource := resources.filter fun r => !r.isConstants

end Resource

/-- Where the user constants live. -/
inductive LayoutKind where
  /-- In the push constants, in front of the index table. -/
  | combined
  /-- In a buffer of their own. -/
  | split
  deriving DecidableEq, Repr, Inhabited

instance : Tagged LayoutKind where
  tags := [(.combined, "combined"), (.split, "split")]

/-- How index table and user constants are laid out. -/
structure ConstantsLayout where
  kind : LayoutKind
  tableSize : UInt32
  constantsSize : UInt32
  deriving DecidableEq, Repr, Inhabited

namespace ConstantsLayout

/-- Bytes of one slot. -/
def slotSize : UInt32 := 4

/-- The layout for resources and a size of user constants. Without resources there is none. -/
def ofResources (resources : List Resource) (constantsSize : UInt32) :
    Except Stop (Option ConstantsLayout) := do
  let count ← Stop.fitting (Word.ofNat? (Resource.slotted resources).length)
  let tableSize ← Stop.fitting (Word.mul? count slotSize)
  if resources.isEmpty then return none
  else
    let total ← Stop.fitting (Word.add? tableSize constantsSize)
    let kind := if total ≤ UserConstants.budget then .combined else .split
    return some ⟨kind, tableSize, constantsSize⟩

/-- Whether a layout is there and combined. -/
def isCombined (layout : Option ConstantsLayout) : Bool :=
  (layout.map fun l => l.kind == .combined).getD false

end ConstantsLayout

end BindlessHlsl
