import BindlessHlsl.Expansion.Visitor

/-!
What a shader and its included files declare, gathered item by item. This is where items meet: a
bind group is declared once and before it is used, the content path is set once and in the root
file, struct names are distinct, and every attribute fits the declaration that took it.
-/

namespace BindlessHlsl

/-- A function. -/
structure Function where
  name : String
  /-- The range between its braces in the root file; none for a function of an included file. -/
  body : Option ByteRange
  deriving DecidableEq, Repr

/-- Everything declared so far. -/
structure Declarations where
  resources : List Resource := []
  functions : List Function := []
  structs : List Struct := []
  samplers : List Sampler := []
  inputLayout : List InputElement := []
  groups : BindGroups := {}
  path : Option String := none
  vertexEntry : Option String := none
  pixelEntry : Option String := none
  deriving DecidableEq, Repr, Inhabited

namespace Declarations

/-- Whether an attribute may stand in front of a declaration. There is one entry point of either
sort, and the input layout belongs to the vertex entry point. -/
def allows (d : Declarations) (kind : AttributeKind) (target : Target) (name : String) : Bool :=
  match kind, target with
  | .bindGroup, .resource _ => true
  | .constants, .resource kind => kind == .constantBuffer
  | .property, .resource kind => kind == .texture2D
  | .vertex, .function => d.vertexEntry.isNone
  | .pixel, .function => d.pixelEntry.isNone
  | .inputLayout, .function => d.vertexEntry == some name
  | _, _ => false

/-- Refuses an attribute that may not stand in front of a declaration. -/
def check (d : Declarations) (placed : PlacedAttribute) (target : Target) (name : String) :
    Reading Unit :=
  require (d.allows placed.value.kind target name)
    ⟨placed.span, .invalidAttribute placed.value.kind target⟩

/-- The bind group that attributes give a resource: the last one named. -/
def groupOf (attributes : List PlacedAttribute) : BindGroup :=
  attributes.foldl
    (fun group placed =>
      match placed.value with
      | .bindGroup g => g
      | _ => group)
    .default

/-- The marks that attributes leave on a resource. -/
def marksOf (attributes : List PlacedAttribute) : List ResourceMark :=
  attributes.filterMap fun placed =>
    match placed.value with
    | .constants => some .constants
    | .property p => some (.property p)
    | _ => none

/-- Declares a resource. -/
def addResource (d : Declarations) (kind : ResourceKind) (element : Option String) (name : String)
    (place : Location) (attributes : List PlacedAttribute) : Reading Declarations := do
  attributes.forM fun placed => d.check placed (.resource kind) name
  let resource : Resource := {
    kind := kind
    element := element
    name := name
    group := groupOf attributes
    index := none
    marks := marksOf attributes
    location := place }
  return { d with resources := d.resources ++ [resource] }

/-- Lets a function take an attribute. -/
def mark (d : Declarations) (name : String) (placed : PlacedAttribute) : Reading Declarations := do
  d.check placed .function name
  return match placed.value with
    | .vertex => { d with vertexEntry := some name }
    | .pixel => { d with pixelEntry := some name }
    | .inputLayout element => { d with inputLayout := d.inputLayout ++ [element] }
    | _ => d

/-- The struct with a name. -/
def struct? (d : Declarations) (name : String) : Option Struct :=
  d.structs.find? fun s => s.name == name

/-- The name of a struct. An anonymous one is numbered by the structs before it. -/
def structName (d : Declarations) (name : String) : String :=
  if name = "" then s!"Struct{d.structs.length}" else name

/-- Declares a struct. -/
def addStruct (d : Declarations) (definition : Struct.Definition) (place : Location)
    (range : Option ByteRange) : Reading Declarations :=
  let name := d.structName definition.name
  if (d.struct? name).isSome then .error (.at place (.duplicateStruct name))
  else .ok { d with structs := d.structs ++ [⟨name, definition.members, range⟩] }

/-- Declares a sampler. It gets the next register. -/
def addSampler (d : Declarations) (name : String) (settings : SamplerSettings) : Declarations :=
  { d with samplers := d.samplers ++ [⟨name, d.samplers.length.toUInt32, settings⟩] }

/-- Whether the content path may be set. -/
def checkPath (d : Declarations) (inRoot : Bool) (place : Location) : Reading Unit :=
  if inRoot then
    match d.path with
    | some path => .error (.at place (.pathAlreadySet path))
    | none => .ok ()
  else .error (.at place .pathOutsideRoot)

/-- A range counts in the root file only. -/
def rootRange (inRoot : Bool) (range : ByteRange) : Option ByteRange :=
  if inRoot then some range else none

/-- Takes in one item. -/
def addItem (d : Declarations) (inRoot : Bool) : Item → Reading Declarations
  | .pathDirective place => (d.checkPath inRoot place).map fun _ => d
  | .contentPath path _ => .ok { d with path := some path }
  | .bindGroup name place _ =>
    match d.groups.insert? ⟨name⟩ with
    | some groups => .ok { d with groups := groups }
    | none => .error (.at place (.duplicateBindGroup name))
  | .inclusion _ _ => .ok d
  | .groupUse group place =>
    if d.groups.contains group then .ok d
    else .error (.at place (.undeclaredBindGroup group.name))
  | .bracketed _ _ => .ok d
  | .resource kind element name place attributes _ =>
    d.addResource kind element name place attributes
  | .sampler name settings _ => .ok (d.addSampler name settings)
  | .struct definition place range => d.addStruct definition place (rootRange inRoot range)
  | .functionStart name attributes => attributes.foldlM (fun d placed => d.mark name placed) d
  | .function name body =>
    .ok { d with functions := d.functions ++ [⟨name, rootRange inRoot body⟩] }

/-- Takes in one item of an expansion. -/
def add (d : Declarations) (e : Entry) : Except Rejection Declarations :=
  (d.addItem e.inRoot e.item).mapError fun f => f.inFile e.file

/-- Gathers declarations. -/
def gatherer : Visitor Declarations Rejection := ⟨add, fun _ r => r⟩

/-- What the items of an expansion declare. -/
def ofExpansion (expansion : Expansion) : Except Rejection Declarations :=
  gatherer.through expansion {}

/-- What a root file and the files it includes declare, gathered up to the first rejection. -/
def ofRoot (includes : Includes) (file text : String) : Except Rejection Declarations :=
  gatherer.visitRoot includes file text {}

theorem ofRoot_eq (includes : Includes) (file text : String) :
    ofRoot includes file text = ofExpansion (.ofRoot includes file text) :=
  gatherer.visitRoot_eq ..

/-- Gathers declarations together with what reaching each item reports, the latest report first. If
an item is rejected, the reports up to it are left. -/
def reporter (includes : Includes) : Visitor (Declarations × List LogEntry) (List LogEntry) where
  step s e :=
    let log := (e.report includes).reverse ++ s.2
    match s.1.add e with
    | .ok d => .ok (d, log)
    | .error _ => .error log
  reject s _ := s.2

/-- What gathering reports: everything up to the item that is rejected. -/
def report (includes : Includes) (file text : String) : List LogEntry :=
  match (reporter includes).visitRoot includes file text ({}, []) with
  | .ok (_, log) => log.reverse
  | .error log => log.reverse

/-- The struct behind a constant buffer. -/
def elementStruct? (d : Declarations) (r : Resource) : Option Struct :=
  r.element.bind d.struct?

end Declarations

end BindlessHlsl
