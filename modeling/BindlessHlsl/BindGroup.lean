/-!
Bind groups divide the resources of a shader. The default group needs no declaration and comes
before all others, which are ordered by name.
-/

namespace BindlessHlsl

/-- A bind group, known by its name. -/
structure BindGroup where
  name : String
  deriving DecidableEq, Repr, Inhabited

namespace BindGroup

/-- The group of a resource that names none. -/
def default : BindGroup := ⟨"__Default"⟩

/-- Whether this is the default group. -/
def isDefault (g : BindGroup) : Bool := g == default

/-- The default group comes first, the others follow by name. -/
def compare (a b : BindGroup) : Ordering :=
  match a.isDefault, b.isDefault with
  | true, true => .eq
  | true, false => .lt
  | false, true => .gt
  | false, false => Ord.compare a.name b.name

end BindGroup

/-- The declared bind groups in order. The default group is always among them. -/
structure BindGroups where
  groups : List BindGroup := [.default]
  deriving DecidableEq, Repr, Inhabited

namespace BindGroups

/-- Whether a group is declared. -/
def contains (s : BindGroups) (g : BindGroup) : Bool := s.groups.contains g

/-- Puts a group in front of the first one that comes after it. -/
def place (g : BindGroup) : List BindGroup → List BindGroup
  | [] => [g]
  | h :: t => if g.compare h == .lt then g :: h :: t else h :: place g t

/-- Declares a group, which must be new. -/
def insert? (s : BindGroups) (g : BindGroup) : Option BindGroups :=
  if s.contains g then none else some ⟨place g s.groups⟩

/-- The names of the groups in order. -/
def names (s : BindGroups) : List String := s.groups.map BindGroup.name

end BindGroups

end BindlessHlsl
