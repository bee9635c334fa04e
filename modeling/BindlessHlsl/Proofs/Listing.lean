import BindlessHlsl.Proofs.RunMoments
import BindlessHlsl.Proofs.Spelling
import Mathlib.Data.List.Nodup

/-!
Texts that list bind groups and resources, one on a line (`Listing`). Each line is read back as what
it was written for, so that a listing is always accepted and declares what it lists
(`Listing.ofRoot_source`).
-/

namespace BindlessHlsl

open Ascii Utf8

/-! ## Lines -/

/-- A bind group that can be declared. -/
structure GroupLine where
  name : String
  quotable : Quotable name
  ne_default : name ≠ BindGroup.default.name

/-- A resource that can be declared. -/
structure ResourceLine where
  kind : ResourceKind
  element : Option String
  name : String
  group : Option GroupLine
  element_identifier : ∀ e ∈ element, IsIdentifier e
  name_identifier : IsIdentifier name

/-- The bind group of a line. -/
def GroupLine.group (g : GroupLine) : BindGroup := ⟨g.name⟩

/-- The directive that declares a bind group. -/
def GroupLine.directive (g : GroupLine) : String := "#pragma bindgroup \"" ++ g.name ++ "\""

/-- The attribute that refers to a bind group. -/
def GroupLine.reference (g : GroupLine) : String := "[bindgroup(Group=\"" ++ g.name ++ "\")]"

/-- The directive on a line of its own. -/
def GroupLine.text (g : GroupLine) : String := g.directive ++ "\n"

namespace ResourceLine

/-- The resource of a line, if the line stands at a place. -/
def resource (r : ResourceLine) (place : Location) : Resource where
  kind := r.kind
  element := r.element
  name := r.name
  group := (r.group.map GroupLine.group).getD .default
  index := none
  marks := []
  location := place

/-- The element type in angle brackets. -/
def elementText (r : ResourceLine) : String :=
  match r.element with
  | none => ""
  | some element => "<" ++ element ++ ">"

/-- The declaration of a resource. -/
def declaration (r : ResourceLine) : String :=
  Keyword.word r.kind ++ r.elementText ++ " " ++ r.name ++ ";"

/-- The declaration of a resource on a line of its own. -/
def text (r : ResourceLine) : String :=
  match r.group with
  | none => r.declaration ++ "\n"
  | some g => g.reference ++ " " ++ r.declaration ++ "\n"

end ResourceLine

namespace GroupLine

variable (g : GroupLine)

theorem encode_directive : encode g.directive =
    (hash :: encode "pragma") ++ ([space] ++ (encode "bindgroup" ++
      (space :: doubleQuote :: encode g.name ++ [doubleQuote]))) := by
  have hfront : encode "#pragma bindgroup \"" =
      (hash :: encode "pragma") ++ ([space] ++ (encode "bindgroup" ++ [space, doubleQuote])) := by
    decide +kernel
  have hback : encode "\"" = [doubleQuote] := by decide +kernel
  unfold directive
  rw [encode_append, encode_append, hfront, hback]
  simp

theorem encode_reference : encode g.reference =
    ([openBracket] ++ (encode "bindgroup" ++ ([openParen] ++ ((encode "Group" ++ ([equals] ++
      (doubleQuote :: encode g.name ++ [doubleQuote]))) ++ [closeParen])))) ++ [closeBracket] := by
  have hfront : encode "[bindgroup(Group=\"" =
      [openBracket] ++ (encode "bindgroup" ++ ([openParen] ++ (encode "Group" ++
        [equals, doubleQuote]))) := by
    decide +kernel
  have hback : encode "\")]" = [doubleQuote, closeParen, closeBracket] := by decide +kernel
  unfold reference
  rw [encode_append, encode_append, hfront, hback]
  simp

end GroupLine

/-! ## Reading an attribute -/

namespace Attribute

open Cursor

variable {c d : Cursor} {key value : String} {earlier : List Argument} {a : Argument}

theorem readArgument_eq (hk : IsIdentifier key) (hv : Quotable value)
    (h : c.Spells (encode key ++ ([equals] ++ (doubleQuote :: encode value ++ [doubleQuote]))) d)
    (hd : d.peek = some closeParen) :
    readArgument [] c = .ok (⟨key, value, c.location⟩, d) := by
  obtain ⟨c₁, hkey, h⟩ := spells_append.1 h
  obtain ⟨c₂, hequals, hvalue⟩ := spells_append.1 h
  have hskip₁ : c₁.skipBlank = c₁ := (clear_of_peek hequals.peek_eq rfl).skipWhile_eq
  have hskip₂ : c₂.skipBlank = c₂ := (clear_of_peek hvalue.peek_eq rfl).skipWhile_eq
  have hskip : d.skipBlank = d := (clear_of_peek hd rfl).skipWhile_eq
  have hidentifier := hkey.expectIdentifier_eq hk (clear_of_peek hequals.peek_eq rfl) .argumentName
  have hseparator : d.expectSeparator closeParen .argumentSeparator = .ok d := by
    rw [expectSeparator, eat?, if_neg (by rw [hd]; decide), if_pos hd]
  simp only [readArgument, Reading.bind_eq_ok]
  refine ⟨(key, c₁), hidentifier, (), rfl, c₂, ?_, (value, d), ?_, d, ?_, rfl⟩
  · rw [hskip₁, hequals.expectByte_eq]
  · rw [hskip₂, hvalue.expectValue_eq hv]
  · rw [hskip, hseparator]

theorem readArguments_of_close (h : c.skipBlank.eat? closeParen = some d) :
    readArguments earlier c = .ok (earlier, d) := by
  rw [readArguments, h]

theorem readArguments_of_argument (h : c.skipBlank.eat? closeParen = none)
    (ha : readArgument earlier c.skipBlank = .ok (a, d)) :
    readArguments earlier c = readArguments (earlier ++ [a]) d := by
  fun_cases readArguments earlier c with
  | case1 next he => simp [h] at he
  | case2 he failure hf => simp [ha] at hf
  | case3 he a' next ha' =>
    cases ha.symm.trans ha'
    rfl

/-- One argument in parentheses. -/
theorem readOptionalArguments_eq (hk : IsIdentifier key) (hv : Quotable value)
    (h : c.Spells ([openParen] ++ ((encode key ++ ([equals] ++
      (doubleQuote :: encode value ++ [doubleQuote]))) ++ [closeParen])) d) :
    ∃ place, readOptionalArguments c = .ok ([⟨key, value, place⟩], d) := by
  obtain ⟨c₁, hparen, h⟩ := spells_append.1 h
  obtain ⟨c₂, hargument, hclose⟩ := spells_append.1 h
  obtain ⟨_, hkey, -⟩ := spells_append.1 hargument
  have hadvance : c.advance 1 = c₁ := hparen.advance_eq.symm
  have hskip₁ : c₁.skipBlank = c₁ := (hkey.clear_blank hk).skipWhile_eq
  have hskip₂ : c₂.skipBlank = c₂ := (clear_of_peek hclose.peek_eq rfl).skipWhile_eq
  have hopen : c₁.skipBlank.eat? closeParen = none := by rw [hskip₁, hkey.eat?_eq_none hk rfl]
  have hread := readArgument_eq hk hv hargument hclose.peek_eq
  rw [← hskip₁] at hread
  refine ⟨c₁.skipBlank.location, ?_⟩
  rw [readOptionalArguments, if_pos hparen.peek_eq, hadvance, readArguments_of_argument hopen hread,
    readArguments_of_close (by rw [hskip₂, hclose.eat?_eq])]
  rfl

/-- The attribute that refers to a bind group, up to its closing bracket. -/
theorem read_bindGroup (g : GroupLine)
    (h : c.Spells ([openBracket] ++ (encode "bindgroup" ++ ([openParen] ++ ((encode "Group" ++
      ([equals] ++ (doubleQuote :: encode g.name ++ [doubleQuote]))) ++ [closeParen])))) d)
    (hd : d.peek = some closeBracket) : read c = .ok (.bindGroup g.group, d) := by
  obtain ⟨c₁, hbracket, h⟩ := spells_append.1 h
  obtain ⟨c₂, hkind, harguments⟩ := spells_append.1 h
  obtain ⟨_, hparen, -⟩ := spells_append.1 harguments
  have hbindgroup : IsIdentifier "bindgroup" := by decide +kernel
  have hadvance : c.advance 1 = c₁ := hbracket.advance_eq.symm
  have hskip₁ : c₁.skipInline = c₁ := (hkind.clear_blank hbindgroup).inline.skipWhile_eq
  have hskip₂ : c₂.skipInline = c₂ := (clear_of_peek hparen.peek_eq rfl).skipWhile_eq
  have hskip : d.skipInline = d := (clear_of_peek hd rfl).skipWhile_eq
  obtain ⟨place, hread⟩ :=
    readOptionalArguments_eq (by decide +kernel) g.quotable harguments
  simp only [read, Reading.bind_eq_ok]
  refine ⟨(.bindGroup, c₂), ?_, (_, d), by rw [hskip₂, hread], .bindGroup g.group, rfl, ?_⟩
  · rw [hadvance, hskip₁, readKind,
      hkind.identifier_eq hbindgroup (clear_of_peek hparen.peek_eq rfl)]
    rfl
  · rw [hskip]
    rfl

end Attribute

/-! ## Reading a resource -/

/-- The word for the kind of a resource ends where the line goes on. -/
theorem ResourceLine.clear_of_elementText (r : ResourceLine) {c d : Cursor}
    (h : c.Spells (encode (r.elementText ++ " " ++ r.name)) d) : c.Clear isIdentifierContinue := by
  rw [encode_append, encode_append, List.append_assoc, elementText] at h
  cases helement : r.element with
  | none =>
    rw [helement] at h
    exact Cursor.clear_of_peek h.peek_eq rfl
  | some element =>
    rw [helement] at h
    dsimp only at h
    rw [encode_append, encode_append, List.append_assoc] at h
    exact Cursor.clear_of_peek h.peek_eq rfl

namespace ResourceKind

theorem ofWord?_word (kind : ResourceKind) : Keyword.ofWord? (Keyword.word kind) = some kind := by
  cases kind <;> rfl

theorem isIdentifier_word (kind : ResourceKind) : IsIdentifier (Keyword.word kind) := by
  cases kind <;> decide +kernel

end ResourceKind

namespace Resource

open Cursor

variable {c d : Cursor}

theorem readElement_eq (r : ResourceLine)
    (h : c.Spells (encode r.elementText ++ [space]) d) (hd : d.Clear isInlineBlank)
    (hless : d.eat? less = none) : readElement c = .ok (r.element, d) := by
  unfold ResourceLine.elementText at h
  cases helement : r.element with
  | none =>
    rw [helement] at h
    have hskip : c.skipInline = d := h.skipInline_eq hd
    rw [readElement, hskip, hless]
  | some element =>
    rw [helement] at h
    have hsplit : encode ("<" ++ element ++ ">") ++ [space] =
        [less] ++ (encode element ++ ([greater] ++ [space])) := by
      simp only [encode_append, List.append_assoc]
      rfl
    dsimp only at h
    rw [hsplit] at h
    obtain ⟨c₁, hopen, h⟩ := spells_append.1 h
    obtain ⟨c₂, hword, h⟩ := spells_append.1 h
    obtain ⟨c₃, hclose, hspace⟩ := spells_append.1 h
    have hidentifier : IsIdentifier element := r.element_identifier element helement
    have hskip : c.skipInline = c := (clear_of_peek hopen.peek_eq rfl).skipWhile_eq
    have hskip₁ : c₁.skipInline = c₁ := (hword.clear_blank hidentifier).inline.skipWhile_eq
    have hskip₂ : c₂.skipInline = c₂ := (clear_of_peek hclose.peek_eq rfl).skipWhile_eq
    rw [readElement, hskip, hopen.eat?_eq]
    simp only [Reading.bind_eq_ok]
    refine ⟨(element, c₂), ?_, c₃, ?_, ?_⟩
    · rw [hskip₁, hword.expectIdentifier_eq hidentifier (clear_of_peek hclose.peek_eq rfl)]
    · rw [hskip₂, hclose.expectByte_eq]
    · rw [hspace.skipInline_eq hd]
      rfl

theorem read_eq (r : ResourceLine) (h : c.Spells (encode (r.elementText ++ " " ++ r.name)) d)
    (hd : d.Clear isIdentifierContinue) : read c = .ok (r.element, r.name, d) := by
  rw [encode_append, encode_append] at h
  obtain ⟨c₁, helement, hname⟩ := spells_append.1 h
  have hidentifier := r.name_identifier
  simp only [read, Reading.bind_eq_ok]
  refine ⟨(r.element, c₁), ?_, (r.name, d), hname.expectIdentifier_eq hidentifier hd _, rfl⟩
  exact readElement_eq r helement (hname.clear_blank hidentifier).inline
    (hname.eat?_eq_none hidentifier rfl)

theorem skipDeclaration_of_spells {bytes : List UInt8} (h : c.Spells (bytes ++ [semicolon]) d)
    (hb : ∀ b ∈ bytes, b ≠ newline ∧ b ≠ semicolon) : skipDeclaration c = d := by
  obtain ⟨e, hbytes, hsemicolon⟩ := spells_append.1 h
  have hskip : c.skipWhile (fun b => b != newline && b != semicolon) = e :=
    hbytes.skipWhile_eq (fun b hm => by simpa using hb b hm)
      (clear_of_peek hsemicolon.peek_eq rfl)
  rw [skipDeclaration, hskip, hsemicolon.eat?_eq]
  rfl

theorem skipDeclaration_eq (h : c.Spells [semicolon] d) : skipDeclaration c = d :=
  @skipDeclaration_of_spells c d [] h (List.forall_mem_nil _)

end Resource

/-! ## Reading a line -/

namespace Scan

open Cursor

variable {s : Scan} {c d : Cursor}

theorem step_bindGroup (g : GroupLine) (h : s.cursor.Spells (encode g.directive) d)
    (hd : d.AtLineEnd) :
    s.step hash =
      ⟨[.bindGroup g.name s.cursor.location (s.cursor.rangeUntil d)], .ok (s.moved d true)⟩ := by
  rw [g.encode_directive] at h
  obtain ⟨c₁, hpragma, h⟩ := spells_append.1 h
  obtain ⟨c₂, hspace, h⟩ := spells_append.1 h
  obtain ⟨c₃, hgroup, hname⟩ := spells_append.1 h
  have hidentifier : IsIdentifier "bindgroup" := by decide +kernel
  have hdirective := directive_word hpragma (by decide +kernel)
    (clear_of_peek hspace.peek_eq rfl)
  have hword := hgroup.identifier_eq hidentifier (clear_of_peek hname.peek_eq rfl)
  rw [step, if_neg (not_atComment_of_spells hpragma (by decide)), if_neg (by decide), if_pos rfl,
    directive, hdirective]
  dsimp only
  rw [if_neg (by decide), if_pos rfl, pragma,
    hspace.skipInline_eq (hgroup.clear_blank hidentifier).inline, hword]
  dsimp only
  rw [if_neg (by decide), if_pos rfl, bindGroup, hname.expectQuoted_eq g.quotable]
  dsimp only
  rw [hd.skipLine_eq]

/-- The attribute that refers to a bind group waits for a resource. -/
theorem step_bracket (g : GroupLine) (h : s.cursor.Spells (encode g.reference) d)
    (hs : s.atDeclaration = true) :
    ∃ placed : PlacedAttribute, placed.value = .bindGroup g.group ∧
      s.step openBracket =
        ⟨[.groupUse g.group s.cursor.location, .bracketed placed (s.cursor.rangeUntil d)],
          .ok ⟨d, s.pending ++ [placed], true⟩⟩ := by
  rw [g.encode_reference] at h
  have hpeek : s.cursor.peek = some openBracket := h.peek_eq
  obtain ⟨c, hread, hclose⟩ := spells_append.1 h
  have hdefault : g.group.isDefault = false := by
    rw [BindGroup.isDefault, beq_eq_false_iff_ne]
    intro he
    exact g.ne_default (congrArg BindGroup.name he)
  refine ⟨⟨.bindGroup g.group, .between s.cursor.location d.location⟩, rfl, ?_⟩
  rw [step, if_neg (not_atComment_of_peek hpeek (by decide)), if_neg (by decide),
    if_neg (by decide), if_pos ⟨rfl, hs⟩, bracket]
  dsimp only
  rw [Attribute.read_bindGroup g hread hclose.peek_eq]
  dsimp only
  rw [hclose.expectByte_eq]
  simp [groupUses, awaited, hdefault]

/-- A word is read where an identifier starts. -/
theorem step_word {word : String} (h : s.cursor.Spells (encode word) c) (hw : IsIdentifier word) :
    ∃ b, s.cursor.peek = some b ∧ s.step b = s.word := by
  obtain ⟨b, hb, hstart⟩ := h.peek_identifier hw
  have hne : ∀ mark, isIdentifierStart mark = false → b ≠ mark := by
    rintro mark hmark rfl
    exact h.peek_ne hw hmark hb
  refine ⟨b, hb, ?_⟩
  rw [step, if_neg (not_atComment_of_peek hb (hne slash rfl)), if_neg (hne doubleQuote rfl),
    if_neg (hne hash rfl), if_neg fun h => hne openBracket rfl h.1, if_pos hstart]

theorem word_eq_resource {word : String} {kind : ResourceKind}
    (h : s.cursor.Spells (encode word) c) (hw : IsIdentifier word)
    (hc : c.Clear isIdentifierContinue) (hkind : Keyword.ofWord? word = some kind) :
    s.word = s.resource kind c := by
  rw [Scan.word, h.identifier_eq hw hc]
  dsimp only
  rw [hkind]

/-- A resource takes the attributes that wait for it. -/
theorem step_resource (r : ResourceLine) (h : s.cursor.Spells (encode r.declaration) d) :
    ∃ b, s.cursor.peek = some b ∧
      s.step b =
        ⟨[.resource r.kind r.element r.name s.cursor.location s.pending (s.cursor.rangeUntil d)],
          .ok (declared d)⟩ := by
  have hsplit : encode r.declaration =
      encode (Keyword.word r.kind) ++ (encode (r.elementText ++ " " ++ r.name) ++ [semicolon]) := by
    simp only [ResourceLine.declaration, encode_append, List.append_assoc]
    rfl
  rw [hsplit] at h
  obtain ⟨c₁, hkind, h⟩ := spells_append.1 h
  obtain ⟨c₂, hrest, hsemicolon⟩ := spells_append.1 h
  have hidentifier := r.kind.isIdentifier_word
  have hclear : c₁.Clear isIdentifierContinue := r.clear_of_elementText hrest
  obtain ⟨b, hb, hstep⟩ := step_word hkind hidentifier
  refine ⟨b, hb, ?_⟩
  rw [hstep, word_eq_resource hkind hidentifier hclear r.kind.ofWord?_word, resource,
    Resource.read_eq r hrest (clear_of_peek hsemicolon.peek_eq rfl)]
  dsimp only
  rw [Resource.skipDeclaration_eq hsemicolon]

end Scan

/-! ## Reading all lines -/

/-- A resource without its place. -/
def Resource.unlocated (r : Resource) : Resource := { r with location := ⟨0, 0⟩ }

namespace BindGroups

/-- Declares bind groups one after the other. -/
def placeAll (s : BindGroups) (groups : List GroupLine) : BindGroups :=
  groups.foldl (fun s g => ⟨place g.group s.groups⟩) s

theorem mem_placeAll {s : BindGroups} {groups : List GroupLine} {g : BindGroup} :
    g ∈ (s.placeAll groups).groups ↔ g ∈ s.groups ∨ ∃ line ∈ groups, line.group = g := by
  induction groups generalizing s with
  | nil => simp [placeAll]
  | cons first rest ih =>
    have hcons : s.placeAll (first :: rest) = placeAll ⟨place first.group s.groups⟩ rest := rfl
    simp only [hcons, ih, mem_place, List.mem_cons, exists_eq_or_imp, eq_comm (a := g)]
    rw [or_assoc, or_left_comm]

end BindGroups

namespace Moment

open Cursor Declarations Relation

variable {includes : Includes} {file text : String} {c c' : Cursor} {d : Declarations}

/-- A moment between two lines of a root file. -/
def between (file text : String) (c : Cursor) (d : Declarations) : Moment :=
  ⟨[⟨file, text, .declared c⟩], d⟩

theorem follows_blank {scan : Scan} {below : List Frame} {b : UInt8}
    (h : scan.cursor.Spells [b] c) (hb : isBlank b = true) :
    Follows includes ⟨⟨file, text, scan⟩ :: below, d⟩
      ⟨⟨file, text, scan.moved c scan.atDeclaration⟩ :: below, d⟩ :=
  .notice h.peek_eq (Scan.step_blank h hb) (by simp [Item.InclusionFree]) rfl

theorem reads_groupLine (g : GroupLine) (h : c.Spells (encode g.text) c')
    (hg : g.group ∉ d.groups.groups) :
    ReflTransGen (Follows includes) (between file text c d)
      (between file text c' { d with groups := ⟨BindGroups.place g.group d.groups.groups⟩ }) := by
  rw [GroupLine.text, encode_append] at h
  obtain ⟨c₁, hline, hnewline⟩ := spells_append.1 h
  have hend : c₁.AtLineEnd := by
    intro b hb
    exact Option.some.inj (hb.symm.trans hnewline.peek_eq)
  have hinsert : d.groups.insert? g.group =
      some ⟨BindGroups.place g.group d.groups.groups⟩ := by
    rw [BindGroups.insert?, BindGroups.contains, if_neg (mt List.contains_iff_mem.1 hg)]
  have hpeek : c.peek = some hash := by
    rw [g.encode_directive] at hline
    exact hline.peek_eq
  refine .head (.notice hpeek (Scan.step_bindGroup (s := .declared c) g hline hend)
    (by simp [Item.InclusionFree]) ?_) (.single (follows_blank hnewline rfl))
  have hgroup : (⟨g.name⟩ : BindGroup) = g.group := rfl
  simp only [Frame.take, List.foldlM_cons, List.foldlM_nil, add, addItem, hgroup, hinsert]
  rfl

/-- A resource is taken in with the attributes that wait for it, up to the end of its line. -/
theorem reads_declaration {s : Scan} (r : ResourceLine)
    (h : s.cursor.Spells (encode (r.declaration ++ "\n")) c')
    (hcheck : s.pending.forM (fun placed => d.check placed (.resource r.kind) r.name) = .ok ())
    (hgroup : groupOf s.pending = (r.resource s.cursor.location).group)
    (hmarks : marksOf s.pending = []) :
    ReflTransGen (Follows includes) ⟨[⟨file, text, s⟩], d⟩
      (between file text c'
        { d with resources := d.resources ++ [r.resource s.cursor.location] }) := by
  rw [encode_append] at h
  obtain ⟨c₁, hdeclaration, hnewline⟩ := spells_append.1 h
  obtain ⟨b, hpeek, hstep⟩ := Scan.step_resource r hdeclaration
  refine .head (.notice hpeek hstep (by simp [Item.InclusionFree]) ?_)
    (.single (follows_blank hnewline rfl))
  simp only [Frame.take, List.foldlM_cons, List.foldlM_nil, add, addItem, addResource, hcheck,
    hgroup, hmarks]
  rfl

theorem reads_resourceLine (r : ResourceLine) (h : c.Spells (encode r.text) c')
    (hr : ∀ g ∈ r.group, g.group ∈ d.groups.groups) :
    ∃ place, ReflTransGen (Follows includes) (between file text c d)
      (between file text c' { d with resources := d.resources ++ [r.resource place] }) := by
  unfold ResourceLine.text at h
  cases hgroup : r.group with
  | none =>
    rw [hgroup] at h
    refine ⟨c.location, reads_declaration (s := .declared c) r h rfl ?_ rfl⟩
    rw [ResourceLine.resource, hgroup]
    rfl
  | some g =>
    rw [hgroup] at h
    dsimp only at h
    rw [String.append_assoc, encode_append, encode_append] at h
    obtain ⟨c₂, h, hdeclaration⟩ := spells_append.1 h
    obtain ⟨c₁, hreference, hspace⟩ := spells_append.1 h
    have hpeek : c.peek = some openBracket := by
      rw [g.encode_reference] at hreference
      exact hreference.peek_eq
    have huse : d.groups.contains g.group = true := List.contains_iff_mem.2 (hr g hgroup)
    obtain ⟨placed, hplaced, hstep⟩ := Scan.step_bracket (s := .declared c) g hreference rfl
    have hnotice : Follows includes (between file text c d)
        ⟨[⟨file, text, ⟨c₁, [placed], true⟩⟩], d⟩ := by
      refine .notice hpeek hstep (by simp [Item.InclusionFree]) ?_
      simp only [Frame.take, List.foldlM_cons, List.foldlM_nil, add, addItem, huse]
      rfl
    refine ⟨c₂.location, .head hnotice (.head (follows_blank hspace rfl)
      (reads_declaration (s := ⟨c₂, [placed], true⟩) r hdeclaration ?_ ?_ ?_))⟩
    · simp [check, allows, hplaced, Attribute.kind, require]
    · simp [groupOf, hplaced, ResourceLine.resource, hgroup]
    · simp [marksOf, hplaced]

theorem reads_groupLines (includes : Includes) (file text : String) {groups : List GroupLine}
    (h : c.Spells (encode (String.join (groups.map GroupLine.text))) c')
    (hnames : (groups.map GroupLine.group).Nodup)
    (hnew : ∀ g ∈ groups, g.group ∉ d.groups.groups) :
    ReflTransGen (Follows includes) (between file text c d)
      (between file text c' { d with groups := d.groups.placeAll groups }) := by
  induction groups generalizing c d with
  | nil =>
    obtain rfl : c' = c := h.advance_eq
    exact .refl
  | cons g rest ih =>
    rw [List.map_cons, String.join_cons, encode_append] at h
    obtain ⟨c₁, hfirst, hrest⟩ := spells_append.1 h
    rw [List.map_cons, List.nodup_cons] at hnames
    obtain ⟨hg, hnew⟩ := List.forall_mem_cons.1 hnew
    refine (reads_groupLine g hfirst hg).trans (ih hrest hnames.2 fun g' hg' => ?_)
    rw [BindGroups.mem_place]
    rintro (heq | hmem)
    · exact hnames.1 (heq ▸ List.mem_map_of_mem hg')
    · exact hnew g' hg' hmem

theorem reads_resourceLines (includes : Includes) (file text : String) {lines : List ResourceLine}
    (h : c.Spells (encode (String.join (lines.map ResourceLine.text))) c')
    (hgroups : ∀ r ∈ lines, ∀ g ∈ r.group, g.group ∈ d.groups.groups) :
    ∃ resources : List Resource,
      resources.map Resource.unlocated = lines.map (fun r => r.resource ⟨0, 0⟩) ∧
      ReflTransGen (Follows includes) (between file text c d)
        (between file text c' { d with resources := d.resources ++ resources }) := by
  induction lines generalizing c d with
  | nil =>
    obtain rfl : c' = c := h.advance_eq
    refine ⟨[], rfl, ?_⟩
    rw [List.append_nil]
  | cons r rest ih =>
    rw [List.map_cons, String.join_cons, encode_append] at h
    obtain ⟨c₁, hfirst, hrest⟩ := spells_append.1 h
    obtain ⟨hr, hgroups⟩ := List.forall_mem_cons.1 hgroups
    obtain ⟨place, hread⟩ := reads_resourceLine r hfirst hr
    obtain ⟨resources, hmap, hreads⟩ :=
      ih (d := { d with resources := d.resources ++ [r.resource place] }) hrest hgroups
    refine ⟨r.resource place :: resources, ?_, hread.trans ?_⟩
    · rw [List.map_cons, List.map_cons, hmap]
      rfl
    · rw [List.append_cons d.resources _ resources]
      exact hreads

end Moment

/-! ## Listings -/

/-- Bind groups and resources that can be declared one after the other. -/
structure Listing where
  groups : List GroupLine
  resources : List ResourceLine
  groups_nodup : (groups.map GroupLine.name).Nodup
  names_nodup : (resources.map ResourceLine.name).Nodup
  group_mem : ∀ r ∈ resources, ∀ g ∈ r.group, g ∈ groups
  few : resources.length < 2 ^ 30

namespace Listing

open Declarations

/-- The text with a line for each bind group and then a line for each resource. -/
def source (l : Listing) : String :=
  String.join (l.groups.map GroupLine.text) ++ String.join (l.resources.map ResourceLine.text)

theorem nodup_group (l : Listing) : (l.groups.map GroupLine.group).Nodup := by
  apply List.Nodup.of_map BindGroup.name
  rw [List.map_map]
  exact l.groups_nodup

theorem group_not_mem (l : Listing) : ∀ g ∈ l.groups, g.group ∉ BindGroups.groups {} := by
  intro g _ hg
  exact g.ne_default (congrArg BindGroup.name (List.mem_singleton.1 hg))

/-- A listing declares what it lists. -/
theorem ofRoot_source (l : Listing) (includes : Includes) (file : String) :
    ∃ resources : List Resource,
      resources.map Resource.unlocated = l.resources.map (fun r => r.resource ⟨0, 0⟩) ∧
      ofRoot includes file l.source =
        .ok { groups := BindGroups.placeAll {} l.groups, resources := resources } := by
  have hrest : (Cursor.ofText l.source).rest =
      encode (String.join (l.groups.map GroupLine.text)) ++
        encode (String.join (l.resources.map ResourceLine.text)) := encode_append ..
  obtain ⟨c₁, hgroups, hrest⟩ := Cursor.exists_spells _ hrest
  obtain ⟨c₂, hresources, hend⟩ := Cursor.exists_spells _ (hrest.trans (List.append_nil _).symm)
  have hdeclared : ∀ r ∈ l.resources, ∀ g ∈ r.group,
      g.group ∈ (BindGroups.placeAll {} l.groups).groups := by
    intro r hr g hg
    exact BindGroups.mem_placeAll.2 (.inr ⟨g, l.group_mem r hr g hg, rfl⟩)
  obtain ⟨resources, hmap, hreads⟩ := Moment.reads_resourceLines includes file l.source
    (d := { groups := BindGroups.placeAll {} l.groups }) hresources hdeclared
  refine ⟨resources, hmap, Moment.ofRoot_eq_ok_iff.2 ?_⟩
  have hstart := Moment.reads_groupLines includes file l.source (d := {}) hgroups l.nodup_group
    l.group_not_mem
  exact (hstart.trans hreads).tail (.leave (by rw [Cursor.peek, Scan.declared, hend]; rfl) rfl)

end Listing

end BindlessHlsl
