import BindlessHlsl.Proofs.ConstantsStructs
import BindlessHlsl.Proofs.OrdinaryText

/-!
How function prototypes are read (`Shader.ReadsPrototype`). A prototype is no definition, so that
the types and names in it are looked at one by one like any other word. It is left as it is exactly
if none of them is taken for the start of a resource declaration. Otherwise the first one that is
decides: a resource is declared and the rest of the line is overwritten, or the file is rejected.
-/

namespace BindlessHlsl

open Ascii Utf8

/-! ## Prototypes -/

/-- A type and a name. Only a kind of resource has an element type. -/
structure TypedName where
  type : String
  element : Option String
  name : String
  type_identifier : IsIdentifier type
  element_identifier : ∀ e ∈ element, IsIdentifier e
  element_kind : element.isSome → (Keyword.ofWord? type : Option ResourceKind).isSome
  name_identifier : IsIdentifier name

namespace TypedName

/-- The kind of resource that the type is, if it is one. -/
def typeKind? (t : TypedName) : Option ResourceKind := Keyword.ofWord? t.type

/-- The kind of resource that the name spells, if it does. -/
def nameKind? (t : TypedName) : Option ResourceKind := Keyword.ofWord? t.name

/-- Nothing of it is taken for a declaration. A name behind `struct` is not looked at. -/
def Passive (t : TypedName) : Prop :=
  t.typeKind? = none ∧ (t.type = "struct" ∨ t.nameKind? = none)

instance : DecidablePred Passive := fun _ => instDecidableAnd

/-- The element type in angle brackets. -/
def elementText (t : TypedName) : String :=
  match t.element with
  | none => ""
  | some element => "<" ++ element ++ ">"

def text (t : TypedName) : String := t.type ++ t.elementText ++ " " ++ t.name

/-- The resource that the pair declares if its type is a kind of resource. -/
def line (t : TypedName) (kind : ResourceKind) : ResourceLine :=
  ⟨kind, t.element, t.name, none, t.element_identifier, t.name_identifier⟩

theorem encode_text_of_kind (t : TypedName) (kind : ResourceKind) :
    encode t.text =
      encode t.type ++ encode ((t.line kind).elementText ++ " " ++ (t.line kind).name) := by
  rw [← encode_append, ← String.append_assoc, ← String.append_assoc]
  rfl

theorem encode_text {t : TypedName} (h : t.typeKind? = none) :
    encode t.text = (encode t.type ++ [space]) ++ encode t.name := by
  have helement : t.element = none := by
    refine Option.not_isSome_iff_eq_none.1 fun hsome => ?_
    have hkind : t.typeKind?.isSome := t.element_kind hsome
    rw [h] at hkind
    cases hkind
  have hempty : t.elementText = "" := by rw [elementText, helement]
  rw [text, hempty, String.append_empty, encode_append, encode_append]
  rfl

end TypedName

/-- A function prototype: return type and name, and the parameters. -/
structure Prototype where
  head : TypedName
  parameters : List TypedName
  head_element : head.element = none

namespace Prototype

/-- The prototype on a line of its own. -/
def source (p : Prototype) : String :=
  p.head.text ++ "(" ++ ", ".intercalate (p.parameters.map TypedName.text) ++ ");\n"

/-- The types and names of a prototype in order. -/
def pairs (p : Prototype) : List TypedName := p.head :: p.parameters

/-- What comes in front of a pair, from the pairs in front of it. -/
def textBefore : List TypedName → String
  | [] => ""
  | head :: rest => head.text ++ "(" ++ String.join (rest.map fun t => t.text ++ ", ")

/-- What comes between a pair and the semicolon, from the pairs on either side of it. -/
def textAfter : List TypedName → List TypedName → String
  | [], back => "(" ++ ", ".intercalate (back.map TypedName.text) ++ ")"
  | _ :: _, back => String.join (back.map fun t => ", " ++ t.text) ++ ")"

theorem intercalate_cons (t : TypedName) (back : List TypedName) :
    ", ".intercalate ((t :: back).map TypedName.text) =
      t.text ++ String.join (back.map fun t => ", " ++ t.text) := by
  induction back generalizing t with
  | nil => simp
  | cons u back ih =>
    rw [List.map_cons, List.map_cons, String.intercalate_cons_cons, ← List.map_cons, ih u,
      List.map_cons, String.join_cons]
    simp only [String.append_assoc]

theorem intercalate_append (front back : List TypedName) (t : TypedName) :
    ", ".intercalate ((front ++ t :: back).map TypedName.text) =
      String.join (front.map fun t => t.text ++ ", ") ++
        (t.text ++ String.join (back.map fun t => ", " ++ t.text)) := by
  induction front with
  | nil =>
    rw [List.nil_append, intercalate_cons, List.map_nil, String.join_nil, String.empty_append]
  | cons u front ih =>
    have hne : (front ++ t :: back).map TypedName.text ≠ [] := by simp
    rw [List.cons_append, List.map_cons, String.intercalate_cons_of_ne_nil hne, ih,
      List.map_cons, String.join_cons]
    simp only [String.append_assoc]

theorem source_eq {p : Prototype} {front back : List TypedName} {t : TypedName}
    (h : p.pairs = front ++ t :: back) :
    p.source = textBefore front ++ (t.text ++ (textAfter front back ++ ";\n")) := by
  have hend : ");\n" = ")" ++ ";\n" := rfl
  cases front with
  | nil =>
    obtain ⟨rfl, rfl⟩ := List.cons.inj h
    simp [source, textBefore, textAfter, hend, String.append_assoc]
  | cons head front =>
    obtain ⟨rfl, hparameters⟩ : p.head = head ∧ p.parameters = front ++ t :: back :=
      List.cons.inj h
    rw [source, hparameters, intercalate_append, hend]
    simp only [textBefore, textAfter, String.append_assoc]

/-- A byte of a parameter list. -/
def isInner (b : UInt8) : Bool :=
  isIdentifierContinue b || b == space || b == comma || b == less || b == greater

/-- The bytes of a text are those of a parameter list. -/
def Inner (text : String) : Prop := ∀ b ∈ encode text, isInner b = true

instance : DecidablePred Inner := fun text =>
  inferInstanceAs (Decidable (∀ b ∈ encode text, isInner b = true))

theorem Inner.append {text more : String} (h : Inner text) (hm : Inner more) :
    Inner (text ++ more) := by
  intro b hb
  rw [encode_append] at hb
  rcases List.mem_append.1 hb with hb | hb
  · exact h b hb
  · exact hm b hb

theorem Inner.of_identifier {word : String} (h : IsIdentifier word) : Inner word := by
  intro b hb
  rw [isInner, h.forall_mem b hb]
  rfl

theorem Inner.text (t : TypedName) : Inner t.text := by
  have helement : Inner t.elementText := by
    unfold TypedName.elementText
    cases he : t.element with
    | none => exact nofun
    | some element =>
      exact .append (.append (by decide +kernel) (.of_identifier (t.element_identifier element he)))
        (by decide +kernel)
  exact .append (.append (.append (.of_identifier t.type_identifier) helement)
    (by decide +kernel)) (.of_identifier t.name_identifier)

theorem Inner.join {texts : List String} (h : ∀ text ∈ texts, Inner text) :
    Inner (String.join texts) := by
  induction texts with
  | nil => exact nofun
  | cons text rest ih =>
    obtain ⟨htext, hrest⟩ := List.forall_mem_cons.1 h
    rw [String.join_cons]
    exact htext.append (ih hrest)

theorem Inner.behind (back : List TypedName) :
    Inner (String.join (back.map fun t => ", " ++ t.text)) := by
  refine .join fun text ht => ?_
  obtain ⟨t, -, rfl⟩ := List.mem_map.1 ht
  exact .append (by decide +kernel) (.text t)

theorem Inner.intercalate (back : List TypedName) :
    Inner (", ".intercalate (back.map TypedName.text)) := by
  cases back with
  | nil => exact nofun
  | cons t back =>
    rw [intercalate_cons]
    exact .append (.text t) (.behind back)

end Prototype

/-! ## Between the words -/

/-- A byte that stands behind the name of a pair. -/
def isJoint (b : UInt8) : Bool := b == openParen || b == comma || b == closeParen

theorem isJoint_iff {b : UInt8} :
    isJoint b = true ↔ b = openParen ∨ b = comma ∨ b = closeParen := by
  simp [isJoint, or_assoc]

namespace Cursor

/-- The cursor stands behind the name of a pair. -/
def AtJoint (c : Cursor) : Prop := ∃ b, c.peek = some b ∧ isJoint b = true

namespace AtJoint

variable {c : Cursor}

theorem clear {p : UInt8 → Bool} (h : c.AtJoint)
    (hp : p openParen = false ∧ p comma = false ∧ p closeParen = false) : c.Clear p := by
  obtain ⟨b, hpeek, hb⟩ := h
  refine clear_of_peek hpeek ?_
  rcases isJoint_iff.1 hb with rfl | rfl | rfl
  exacts [hp.1, hp.2.1, hp.2.2]

theorem clear_identifier (h : c.AtJoint) : c.Clear isIdentifierContinue :=
  h.clear ⟨rfl, rfl, rfl⟩

theorem skipInline_eq (h : c.AtJoint) : c.skipInline = c :=
  (h.clear ⟨rfl, rfl, rfl⟩).skipWhile_eq

theorem peek_ne (h : c.AtJoint) {mark : UInt8} (hm : isJoint mark = false) :
    c.peek ≠ some mark := by
  obtain ⟨b, hpeek, hb⟩ := h
  rw [hpeek]
  exact fun he => ne_of_class hb hm (Option.some.inj he)

theorem eat?_eq_none (h : c.AtJoint) {mark : UInt8} (hm : isJoint mark = false) :
    c.eat? mark = none :=
  if_neg (h.peek_ne hm)

theorem skipTrivia_eq (h : c.AtJoint) : c.skipTrivia = c := by
  obtain ⟨b, hpeek, hb⟩ := h
  refine skipTrivia_of_peek hpeek ?_ (ne_of_class hb rfl)
  rcases isJoint_iff.1 hb with rfl | rfl | rfl <;> rfl

theorem identifier_eq (h : c.AtJoint) : c.identifier = ("", c) := by
  obtain ⟨b, hpeek, hb⟩ := h
  refine identifier_of_peek hpeek ?_
  rcases isJoint_iff.1 hb with rfl | rfl | rfl <;> rfl

end AtJoint

end Cursor

namespace Function

open Cursor

variable {c d : Cursor}

/-- Parameters without comments, parentheses and statements are passed over. -/
theorem closeParameters_of_spells {bytes : List UInt8} (h : c.Spells bytes d)
    (hb : ∀ b ∈ bytes, Prototype.isInner b = true) (depth : Nat) :
    closeParameters depth c = closeParameters depth d := by
  induction bytes generalizing c with
  | nil =>
    obtain rfl : d = c := h.advance_eq
    rfl
  | cons b rest ih =>
    obtain ⟨e, hfirst, hrest⟩ := spells_cons.1 h
    obtain ⟨hb, hmore⟩ := List.forall_mem_cons.1 hb
    have hne : ∀ mark, Prototype.isInner mark = false → b ≠ mark := fun _ => ne_of_class hb
    rw [← ih hrest hmore, closeParameters,
      dif_neg (not_atComment_of_peek hfirst.peek_eq (hne slash rfl))]
    split
    next hnone => cases hnone.symm.trans hfirst.peek_eq
    next b' hpeek =>
      obtain rfl : b' = b := Option.some.inj (hpeek.symm.trans hfirst.peek_eq)
      rw [if_neg (hne openParen rfl), if_neg (hne closeParen rfl), if_neg, hfirst.advance_eq]
      · rfl
      · rintro (he | he | he)
        exacts [hne semicolon rfl he, hne openBrace rfl he, hne closeBrace rfl he]

theorem closeParameters_of_closeParen (h : c.Spells [closeParen] d) :
    closeParameters 1 c = some d := by
  rw [closeParameters, dif_neg (not_atComment_of_peek h.peek_eq (by decide))]
  split
  next hnone => cases hnone.symm.trans h.peek_eq
  next b hpeek =>
    obtain rfl : b = closeParen := Option.some.inj (hpeek.symm.trans h.peek_eq)
    rw [if_neg (by decide), if_pos rfl, if_pos (Nat.le_refl 1), h.advance_eq]
    rfl

/-- The name of a prototype is not that of a definition. -/
theorem bodyStart?_of_prototype {text : String} {bytes : List UInt8} (ht : Prototype.Inner text)
    (h : c.rest = encode ("(" ++ text ++ ")") ++ semicolon :: bytes) (name : Cursor) :
    bodyStart? name c = none := by
  have hsplit : encode ("(" ++ text ++ ")") = [openParen] ++ (encode text ++ [closeParen]) := by
    simp only [encode_append, List.append_assoc]
    rfl
  rw [hsplit] at h
  obtain ⟨c₃, hspells, hrest⟩ := exists_spells _ h
  obtain ⟨c₁, hopen, hspells⟩ := spells_append.1 hspells
  obtain ⟨c₂, htext, hclose⟩ := spells_append.1 hspells
  have hpeek : c₃.peek = some semicolon := by
    rw [peek, hrest]
    rfl
  have hclosed : closeParameters 1 c₁ = some c₃ := by
    rw [closeParameters_of_spells htext ht, closeParameters_of_closeParen hclose]
  have hsemantic : skipSemantic c₃.skipTrivia = c₃ := by
    rw [skipTrivia_of_peek hpeek rfl (by decide), skipSemantic, eat?, hpeek]
    rfl
  unfold bodyStart?
  split
  · rw [skipTrivia_of_peek hopen.peek_eq rfl (by decide), hopen.eat?_eq]
    simp only [Option.bind_eq_bind, Option.bind_some, hclosed, hsemantic, hpeek]
    exact if_neg (by decide)
  · rfl

end Function

section

open Cursor

variable {c d e : Cursor} {word : String}

/-- A name behind `struct` without a body is passed over along with it. -/
theorem Struct.read_of_name (hspace : e.Spells [space] c) (h : c.Spells (encode word) d)
    (hw : IsIdentifier word) (hd : d.AtJoint) : Struct.read e = .ok (none, d) := by
  rw [Struct.read, hspace.skipTrivia_blank rfl, h.skipTrivia_word hw,
    h.identifier_eq hw hd.clear_identifier]
  dsimp only
  rw [hd.skipTrivia_eq, hd.eat?_eq_none rfl]

theorem Struct.read_of_joint (hd : d.AtJoint) : Struct.read d = .ok (none, d) := by
  rw [Struct.read, hd.skipTrivia_eq, hd.identifier_eq]
  dsimp only
  rw [hd.skipTrivia_eq, hd.eat?_eq_none rfl]

theorem Sampler.readStart_of_joint (hd : d.AtJoint) : readStart d = .ok none := by
  obtain ⟨b, hpeek, hb⟩ := hd
  rw [readStart, hpeek]
  dsimp only
  rw [if_neg (ne_of_class hb rfl), if_neg (ne_of_class hb rfl)]

/-- A sampler that is a parameter is left alone. -/
theorem Sampler.read_of_name (hspace : e.Spells [space] c) (h : c.Spells (encode word) d)
    (hw : IsIdentifier word) (hd : d.AtJoint) : Sampler.read e = .ok none := by
  have hne : word ≠ "" := by
    rintro rfl
    exact hw.encode_ne_nil rfl
  rw [Sampler.read, hspace.skipInline_eq (h.clear_blank hw).inline,
    h.identifier_eq hw hd.clear_identifier]
  dsimp only
  rw [if_neg hne, hd.skipTrivia_eq, Sampler.readStart_of_joint hd]
  rfl

theorem Sampler.read_of_joint (hd : d.AtJoint) : Sampler.read d = .ok none := by
  rw [Sampler.read, hd.skipInline_eq, hd.identifier_eq]
  rfl

/-- A resource needs a name. -/
theorem Resource.read_of_joint (hd : d.AtJoint) :
    Resource.read d = .error (.at d.location (.expected .resourceName)) := by
  have ⟨b, hpeek, _⟩ := hd
  have helement : readElement d = .ok (none, d) := by
    rw [readElement, hd.skipInline_eq, hd.eat?_eq_none rfl]
  have hname : d.expectIdentifier .resourceName =
      .error (.at d.location (.expected .resourceName)) := by
    rw [expectIdentifier, hd.identifier_eq, if_pos rfl, failure_of_peek hpeek]
  simp only [Resource.read, helement, bind, Except.bind, hname]

end

/-! ## Reading a pair -/

namespace Scan

open Cursor

variable {s : Scan} {c : Cursor}

theorem word_eq_sampler (h : s.cursor.Spells (encode "SamplerState") c)
    (hc : c.Clear isIdentifierContinue) : s.word = s.sampler c := by
  rw [word, h.identifier_eq (by decide +kernel) hc]
  rfl

theorem word_eq_struct (h : s.cursor.Spells (encode "struct") c)
    (hc : c.Clear isIdentifierContinue) : s.word = s.struct c := by
  rw [word, h.identifier_eq (by decide +kernel) hc]
  rfl

end Scan

namespace Outline

open Cursor Scan

variable {s : Scan} {c d : Cursor} {word : String}

/-- The name of a pair is passed over unless it is a kind of resource. -/
theorem ofScan_name (h : s.cursor.Spells (encode word) d) (hw : IsIdentifier word)
    (hkind : (Keyword.ofWord? word : Option ResourceKind) = none) (hd : d.AtJoint)
    (hbody : Function.bodyStart? s.cursor d = none) : ofScan s = ofScan (s.moved d false) := by
  by_cases hsampler : word = "SamplerState"
  · refine ofScan_of_word h hw ?_
    rw [word_eq_sampler (hsampler ▸ h) hd.clear_identifier, sampler, Sampler.read_of_joint hd]
  by_cases hstruct : word = "struct"
  · refine ofScan_of_word h hw ?_
    rw [word_eq_struct (hstruct ▸ h) hd.clear_identifier, struct, Struct.read_of_joint hd]
  · exact ofScan_word h ⟨hw, hkind, hsampler, hstruct⟩ hd.clear_identifier hbody

/-- A type is passed over unless it is a kind of resource or `struct`. -/
theorem ofScan_type (pair : TypedName) (h : s.cursor.Spells (encode pair.type ++ [space]) c)
    (hname : c.Spells (encode pair.name) d) (hd : d.AtJoint) (hkind : pair.typeKind? = none)
    (hstruct : pair.type ≠ "struct") : ofScan s = ofScan (s.moved c false) := by
  by_cases hsampler : pair.type = "SamplerState"
  · obtain ⟨e, htype, hspace⟩ := spells_append.1 h
    have hword : s.word = ⟨[], .ok (s.moved e false)⟩ := by
      rw [word_eq_sampler (hsampler ▸ htype) (clear_of_peek hspace.peek_eq rfl), sampler,
        Sampler.read_of_name hspace hname pair.name_identifier hd]
    rw [ofScan_of_word htype pair.type_identifier hword]
    exact ofScan_blank hspace rfl
  · exact ofScan_word_space h ⟨pair.type_identifier, hkind, hsampler, hstruct⟩ hname
      pair.name_identifier

theorem ofScan_pair {pair : TypedName} (hpair : pair.Passive)
    (h : s.cursor.Spells (encode pair.text) d) (hd : d.AtJoint)
    (hbody : ∀ name, Function.bodyStart? name d = none) : ofScan s = ofScan (s.moved d false) := by
  rw [TypedName.encode_text hpair.1] at h
  obtain ⟨c, htype, hname⟩ := spells_append.1 h
  by_cases hstruct : pair.type = "struct"
  · obtain ⟨e, hword, hspace⟩ := spells_append.1 htype
    refine ofScan_of_word hword pair.type_identifier ?_
    rw [word_eq_struct (hstruct ▸ hword) (clear_of_peek hspace.peek_eq rfl), struct,
      Struct.read_of_name hspace hname pair.name_identifier hd]
  · rw [ofScan_type pair htype hname hd hpair.1 hstruct]
    exact ofScan_name (s := s.moved c false) hname pair.name_identifier
      (hpair.2.resolve_left hstruct) hd (hbody c)

/-- A name that is a kind of resource is taken for the start of a declaration without a name. -/
theorem ofScan_pair_rejected {pair : TypedName} {kind : ResourceKind}
    (h : s.cursor.Spells (encode pair.text) d) (hd : d.AtJoint) (htype : pair.typeKind? = none)
    (hstruct : pair.type ≠ "struct") (hkind : pair.nameKind? = some kind) :
    ofScan s = ⟨[], some (.at d.location (.expected .resourceName))⟩ := by
  rw [TypedName.encode_text htype] at h
  obtain ⟨c, hword, hname⟩ := spells_append.1 h
  rw [ofScan_type pair hword hname hd htype hstruct]
  obtain ⟨b, hb, hstep⟩ := step_word (s := s.moved c false) hname pair.name_identifier
  refine ofScan_of_error hb (hstep.trans ?_)
  rw [word_eq_resource hname pair.name_identifier hd.clear_identifier hkind, resource,
    Resource.read_of_joint hd]

/-- A type that is a kind of resource is taken for the start of a declaration, which goes on up to
the semicolon. -/
theorem ofScan_pair_resource {pair : TypedName} {kind : ResourceKind} {bytes : List UInt8}
    (h : s.cursor.Spells (encode pair.text) c) (hc : c.AtJoint)
    (hkind : pair.typeKind? = some kind) (hbytes : c.Spells (bytes ++ [semicolon]) d)
    (hb : ∀ b ∈ bytes, b ≠ newline ∧ b ≠ semicolon) :
    ofScan s = (ofScan (declared d)).after
      [.resource kind pair.element pair.name s.cursor.location s.pending
        (s.cursor.rangeUntil d)] := by
  rw [pair.encode_text_of_kind kind] at h
  obtain ⟨e, htype, hrest⟩ := spells_append.1 h
  obtain ⟨b, hpeek, hstep⟩ := step_word htype pair.type_identifier
  have hclear := (pair.line kind).clear_of_elementText hrest
  refine ofScan_of_ok hpeek (hstep.trans ?_)
  rw [word_eq_resource htype pair.type_identifier hclear hkind, resource,
    Resource.read_eq (pair.line kind) hrest hc.clear_identifier]
  dsimp only
  rw [Resource.skipDeclaration_of_spells hbytes hb]
  rfl

/-- Pairs are passed over with the commas behind them. -/
theorem ofScan_pairs {pairs : List TypedName} (hpairs : ∀ pair ∈ pairs, pair.Passive)
    (h : s.cursor.Spells (encode (String.join (pairs.map fun t => t.text ++ ", "))) d)
    (hs : s.atDeclaration = false) : ofScan s = ofScan (s.moved d false) := by
  induction pairs generalizing s with
  | nil =>
    obtain rfl : d = s.cursor := h.advance_eq
    rw [← hs]
    rfl
  | cons pair rest ih =>
    have hsplit : encode (String.join ((pair :: rest).map fun t => t.text ++ ", ")) =
        encode pair.text ++ ([comma] ++ ([space] ++
          encode (String.join (rest.map fun t => t.text ++ ", ")))) := by
      simp only [List.map_cons, String.join_cons, encode_append, List.append_assoc]
      rfl
    rw [hsplit] at h
    obtain ⟨c₁, hpair, h⟩ := spells_append.1 h
    obtain ⟨c₂, hcomma, h⟩ := spells_append.1 h
    obtain ⟨c₃, hspace, hrest⟩ := spells_append.1 h
    obtain ⟨hpassive, hmore⟩ := List.forall_mem_cons.1 hpairs
    have hjoint : c₁.AtJoint := ⟨comma, hcomma.peek_eq, rfl⟩
    have hbody : ∀ name, Function.bodyStart? name c₁ = none := fun name =>
      Function.bodyStart?_eq_none (by rw [hjoint.skipTrivia_eq, hcomma.peek_eq]; decide)
    calc ofScan s
      _ = ofScan (s.moved c₁ false) := ofScan_pair hpassive hpair hjoint hbody
      _ = ofScan (s.moved c₂ false) := ofScan_mark (s := s.moved c₁ false) hcomma rfl nofun
      _ = ofScan (s.moved c₃ false) := ofScan_blank (s := s.moved c₂ false) hspace rfl
      _ = ofScan (s.moved d false) := ih (s := s.moved c₃ false) hmore hrest rfl

/-- The rest of a text may consist of marks that no bracket is among. -/
theorem ofScan_marks {bytes : List UInt8} (h : s.cursor.rest = bytes)
    (hb : ∀ b ∈ bytes, isMark b = true ∧ b ≠ openBracket) :
    ofScan s = ⟨[], unresolved? s.pending⟩ := by
  induction bytes generalizing s with
  | nil => exact ofScan_of_end (by rw [peek, h]; rfl)
  | cons b rest ih =>
    obtain ⟨⟨hmark, hne⟩, hmore⟩ := List.forall_mem_cons.1 hb
    obtain ⟨c, hfirst, hrest⟩ := exists_spells [b] h
    rw [ofScan_mark hfirst hmark fun he => absurd he hne]
    exact ih (s := s.moved c _) hrest hmore

end Outline

/-! ## Reading a prototype -/

namespace Prototype

open Cursor

variable {p : Prototype} {front back : List TypedName} {d : Cursor}

theorem mem_after {b : UInt8} (h : b ∈ encode (textAfter front back)) :
    isInner b = true ∨ isJoint b = true := by
  have hopen : ∀ b ∈ encode "(", isJoint b = true := by decide +kernel
  have hclose : ∀ b ∈ encode ")", isJoint b = true := by decide +kernel
  cases front with
  | nil =>
    rw [textAfter, encode_append, encode_append, List.mem_append, List.mem_append] at h
    rcases h with (h | h) | h
    · exact .inr (hopen b h)
    · exact .inl (Inner.intercalate back b h)
    · exact .inr (hclose b h)
  | cons =>
    rw [textAfter, encode_append, List.mem_append] at h
    rcases h with h | h
    · exact .inl (Inner.behind back b h)
    · exact .inr (hclose b h)

theorem peek_after_nil {bytes : List UInt8} (h : d.rest = encode (textAfter [] back) ++ bytes) :
    d.peek = some openParen := by
  rw [peek, h, textAfter, encode_append, encode_append, List.append_assoc, List.append_assoc]
  rfl

theorem peek_after_cons {u : TypedName} {bytes : List UInt8}
    (h : d.rest = encode (textAfter (u :: front) back) ++ bytes) :
    d.peek = some comma ∨ d.peek = some closeParen := by
  rw [peek, h, textAfter]
  cases back with
  | nil => exact .inr rfl
  | cons t back =>
    rw [List.map_cons, String.join_cons, encode_append, encode_append, encode_append,
      List.append_assoc, List.append_assoc, List.append_assoc]
    exact .inl rfl

theorem atJoint_of_after {bytes : List UInt8}
    (h : d.rest = encode (textAfter front back) ++ bytes) : d.AtJoint := by
  cases front with
  | nil => exact ⟨openParen, peek_after_nil h, rfl⟩
  | cons =>
    rcases peek_after_cons h with hpeek | hpeek
    exacts [⟨comma, hpeek, rfl⟩, ⟨closeParen, hpeek, rfl⟩]

/-- No function is defined behind a pair of a prototype. -/
theorem bodyStart?_of_after {bytes : List UInt8}
    (h : d.rest = encode (textAfter front back) ++ semicolon :: bytes) (name : Cursor) :
    Function.bodyStart? name d = none := by
  cases front with
  | nil => exact Function.bodyStart?_of_prototype (Inner.intercalate back) h name
  | cons =>
    refine Function.bodyStart?_eq_none ?_
    rw [(atJoint_of_after h).skipTrivia_eq]
    rcases peek_after_cons h with hpeek | hpeek <;> rw [hpeek] <;> decide

end Prototype

namespace Outline

open Cursor Scan Prototype

variable {p : Prototype} {front back : List TypedName} {t : TypedName}

theorem rest_ofText_source (h : p.pairs = front ++ t :: back) :
    (Cursor.ofText p.source).rest = encode (textBefore front) ++ (encode t.text ++
      (encode (textAfter front back) ++ [semicolon, newline])) := by
  rw [Cursor.ofText, ofBytes, source_eq h, encode_append, encode_append, encode_append]
  rfl

/-- The scan gets to the first pair that is not passive. -/
theorem ofText_before (h : p.pairs = front ++ t :: back) (hfront : ∀ u ∈ front, u.Passive) :
    ∃ c d atDeclaration, (Cursor.ofText p.source).Spells (encode (textBefore front)) c ∧
      c.Spells (encode t.text) d ∧
      d.rest = encode (textAfter front back) ++ [semicolon, newline] ∧
      ofText p.source = ofScan ⟨c, [], atDeclaration⟩ := by
  obtain ⟨c, hbefore, hrest⟩ := exists_spells _ (rest_ofText_source h)
  obtain ⟨d, htext, hd⟩ := exists_spells _ hrest
  cases front with
  | nil =>
    obtain rfl : c = Cursor.ofText p.source := hbefore.advance_eq
    exact ⟨_, d, true, hbefore, htext, hd, rfl⟩
  | cons head front =>
    refine ⟨c, d, false, hbefore, htext, hd, ?_⟩
    have hsplit : encode (textBefore (head :: front)) = encode head.text ++ ([openParen] ++
        encode (String.join (front.map fun t => t.text ++ ", "))) := by
      rw [textBefore, encode_append, encode_append, List.append_assoc]
      rfl
    rw [hsplit] at hbefore
    obtain ⟨c₁, hhead, hbefore⟩ := spells_append.1 hbefore
    obtain ⟨c₂, hopen, hpairs⟩ := spells_append.1 hbefore
    obtain ⟨hpassive, hmore⟩ := List.forall_mem_cons.1 hfront
    -- Behind the name of the function comes the whole list, which is what the search for a body
    -- looks at.
    have hpairs' : p.pairs = [] ++ head :: (front ++ t :: back) := h
    have hrest₁ : c₁.rest =
        encode (textAfter [] (front ++ t :: back)) ++ [semicolon, newline] :=
      List.append_cancel_left (hhead.rest_eq.symm.trans (rest_ofText_source hpairs'))
    calc ofText p.source
      _ = ofScan ⟨c₁, [], false⟩ := ofScan_pair (s := .ofText p.source) hpassive hhead
        (atJoint_of_after hrest₁) (bodyStart?_of_after hrest₁)
      _ = ofScan ⟨c₂, [], false⟩ := ofScan_mark (s := ⟨c₁, [], false⟩) hopen rfl nofun
      _ = ofScan ⟨c, [], false⟩ := ofScan_pairs (s := ⟨c₂, [], false⟩) hmore hpairs rfl

theorem ofText_passive (h : ∀ t ∈ p.pairs, t.Passive) : ofText p.source = ⟨[], none⟩ := by
  obtain ⟨front, last, hsplit⟩ :=
    (List.eq_nil_or_concat p.pairs).resolve_left (List.cons_ne_nil _ _)
  rw [List.concat_eq_append] at hsplit
  rw [hsplit] at h
  obtain ⟨c, d, flag, -, hlast, hd, houtline⟩ :=
    ofText_before hsplit fun u hu => h u (List.mem_append_left _ hu)
  rw [houtline, ofScan_pair (s := ⟨c, [], flag⟩) (h last (by simp)) hlast (atJoint_of_after hd)
    (bodyStart?_of_after hd)]
  have hafter : textAfter front [] = "()" ∨ textAfter front [] = ")" := by
    cases front with
    | nil => exact .inl (by decide +kernel)
    | cons => exact .inr rfl
  refine ofScan_marks (s := ⟨d, [], false⟩) hd ?_
  rcases hafter with he | he <;> rw [he] <;> decide +kernel

/-- The failure where a name is a kind of resource. -/
theorem ofText_rejected {kind : ResourceKind} (h : p.pairs = front ++ t :: back)
    (hfront : ∀ u ∈ front, u.Passive) (htype : t.typeKind? = none) (hstruct : t.type ≠ "struct")
    (hname : t.nameKind? = some kind) :
    ofText p.source = ⟨[], some (.at
      (.ofOffset p.source (Utf8.length (textBefore front ++ t.text)))
      (.expected .resourceName))⟩ := by
  obtain ⟨c, d, flag, hbefore, hpair, hd, houtline⟩ := ofText_before h hfront
  have hplace := (spells_append.2 ⟨c, hbefore, hpair⟩).location_eq
  rw [← encode_append, length_encode] at hplace
  rw [houtline, ← hplace]
  exact ofScan_pair_rejected hpair (atJoint_of_after hd) htype hstruct hname

/-- The resource that a type declares where it is a kind of resource. -/
theorem ofText_resource {kind : ResourceKind} (h : p.pairs = front ++ t :: back)
    (hfront : ∀ u ∈ front, u.Passive) (htype : t.typeKind? = some kind) :
    ∃ range : ByteRange, range.Divides p.source.toList (textBefore front).toList
        (t.text ++ (textAfter front back ++ ";")).toList ['\n'] ∧
      ofText p.source = ⟨[.resource kind t.element t.name
        (.ofOffset p.source (Utf8.length (textBefore front))) [] range], none⟩ := by
  obtain ⟨c, d, flag, hbefore, hpair, hd, houtline⟩ := ofText_before h hfront
  have hrest : d.rest = (encode (textAfter front back) ++ [semicolon]) ++ [newline] := by
    rw [hd, List.append_assoc]
    rfl
  obtain ⟨e, hcut, he⟩ := exists_spells _ hrest
  have hbytes : ∀ b ∈ encode (textAfter front back), b ≠ newline ∧ b ≠ semicolon := by
    intro b hb
    rcases mem_after hb with hb | hb <;> exact ⟨ne_of_class hb rfl, ne_of_class hb rfl⟩
  have hend : ofScan (declared e) = ⟨[], none⟩ :=
    ofScan_marks (s := declared e) he (List.forall_mem_singleton.2 ⟨rfl, by decide⟩)
  have hstart : c.pos = charsLength (textBefore front).toList := by
    rw [hbefore.pos_eq, length_encode, length_eq_charsLength]
  have hstop : e.pos = charsLength (textBefore front).toList +
      charsLength (t.text ++ (textAfter front back ++ ";")).toList := by
    have hspells := spells_append.2 ⟨c, hbefore, spells_append.2 ⟨d, hpair, hcut⟩⟩
    rw [hspells.pos_eq]
    simp only [← length_eq_charsLength, ← length_encode, encode_append, List.length_append]
    rfl
  refine ⟨c.rangeUntil e, ⟨?_, hstart, hstop⟩, ?_⟩
  · have hnewline : ";\n" = ";" ++ "\n" := rfl
    rw [source_eq h, hnewline]
    simp only [String.toList_append, List.append_assoc]
    rfl
  · have hplace : c.location = .ofOffset p.source (Utf8.length (textBefore front)) := by
      rw [hbefore.location_eq, length_encode]
    rw [houtline, ofScan_pair_resource (s := ⟨c, [], flag⟩) hpair (atJoint_of_after hd) htype hcut
      hbytes, hend, ← hplace]
    rfl

end Outline

/-- A pair that is not passive declares a resource or has a name that cannot. -/
theorem TypedName.kind_of_not_passive {t : TypedName} (h : ¬t.Passive) :
    (∃ kind, t.typeKind? = some kind) ∨
      t.typeKind? = none ∧ t.type ≠ "struct" ∧ ∃ kind, t.nameKind? = some kind := by
  cases htype : t.typeKind? with
  | some kind => exact .inl ⟨kind, rfl⟩
  | none =>
    have hcases : ¬(t.type = "struct" ∨ t.nameKind? = none) := fun hp => h ⟨htype, hp⟩
    obtain ⟨hstruct, hname⟩ := not_or.1 hcases
    exact .inr ⟨rfl, hstruct, Option.ne_none_iff_exists'.1 hname⟩

theorem TypedName.exists_first_not_passive {pairs : List TypedName}
    (h : ¬∀ t ∈ pairs, t.Passive) :
    ∃ front t back, pairs = front ++ t :: back ∧ (∀ u ∈ front, u.Passive) ∧ ¬t.Passive := by
  have hsome : (pairs.find? fun t => !decide t.Passive).isSome := by
    rw [List.find?_isSome]
    simpa using h
  obtain ⟨t, ht⟩ := Option.isSome_iff_exists.1 hsome
  obtain ⟨hpassive, front, back, hsplit, hfront⟩ := List.find?_eq_some_iff_append.1 ht
  exact ⟨front, t, back, hsplit, fun u hu => by simpa using hfront u hu, by simpa using hpassive⟩

/-! ## Shaders of prototypes -/

namespace Shader

open EditList Prototype

variable {includes : Includes} {file source : String}

/-- A text of which one range is overwritten. -/
theorem woven_range {range : ByteRange} {chars front text back : List Char}
    (h : range.Divides chars front text back) :
    woven range.contains [] 0 chars = front ++ (text.flatMap overwritten ++ back) := by
  have hfront : woven range.contains [] 0 front = front := by
    refine woven_eq_self (fun place _ hlt => Bool.eq_false_iff.2 fun hc => ?_) fun _ _ _ => rfl
    rw [Nat.zero_add, ← h.start_eq] at hlt
    exact absurd (ByteRange.contains_iff.1 hc).1 (Nat.not_le.2 hlt)
  have htext : woven range.contains [] range.start text = text.flatMap overwritten :=
    woven_eq_flatMap (fun place hle hlt => ByteRange.contains_iff.2 ⟨hle, h.start_add ▸ hlt⟩)
      fun _ _ _ => rfl
  have hback : woven range.contains [] range.stop back = back := by
    refine woven_eq_self (fun place hle _ => Bool.eq_false_iff.2 fun hc => ?_) fun _ _ _ => rfl
    exact absurd (ByteRange.contains_iff.1 hc).2 (Nat.not_lt.2 hle)
  rw [woven_of_divides h, hfront, htext, hback]

/-- A text with one resource that has no attributes. -/
theorem exists_of_resource {kind : ResourceKind} {element : Option String} {name : String}
    {place : Location} {range : ByteRange} {front text back : List Char}
    (h : Outline.ofText source = ⟨[.resource kind element name place [] range], none⟩)
    (hdivides : range.Divides source.toList front text back) :
    ∃ shader preamble, ofSource includes file source = .ok shader ∧
      shader.toDeclarations =
        { resources := [⟨kind, element, name, .default, some 0, [], place⟩] } ∧
      shader.output = preamble ++ String.ofList (front ++ (text.flatMap overwritten ++ back)) := by
  let r : Resource := ⟨kind, element, name, .default, none, [], place⟩
  have hconstants : r.isConstants = false := Bool.and_false _
  have hd : Declarations.ofRoot includes file source = .ok { resources := [r] } := by
    rw [Declarations.ofRoot, Visitor.visitRoot, Expansion.depthLimit, Visitor.visitFile, h]
    rfl
  have hu : UserConstants.ofDeclarations file { resources := [r] } = .ok {} := by
    rw [UserConstants.ofDeclarations, List.filter_cons_of_neg (by rw [hconstants]; decide)]
    rfl
  have hslots : (Resource.slotted [r]).length ≤ 1 := List.length_filter_le ..
  obtain ⟨shader, hshader⟩ := exists_ofSource_of_constants hd hu
    (Nat.lt_of_le_of_lt (Nat.add_le_add_right (Nat.mul_le_mul_left 4 hslots) _) (by decide))
  obtain ⟨p, hc, hresources, -, -, ho, hfields⟩ :=
    generate_eq_ok (ofSource_eq_generate hd ▸ hshader)
  have htable : p.resources = [⟨kind, element, name, .default, some 0, [], place⟩] := by
    rw [hresources, Resource.table, Resource.sorted, List.mergeSort_singleton, Resource.withSlots,
      hconstants]
    rfl
  have hstructs : p.constants.structs = [] := by
    rw [Except.ok.inj (hc.symm.trans hu)]
  have hconsumed : consumed (Outline.ofText source).items p.constants.structs = range.contains := by
    rw [h, hstructs]
    funext offset
    simp [consumed, Item.blanked?]
  refine ⟨shader, p.text, hshader, ?_, ?_⟩
  · rw [hfields, htable]
    rfl
  · rw [output_eq hd ho, hconsumed, List.filterMap_nil, woven_range hdivides]

/-- A shader with the resource that a pair of a prototype declares. From that pair on the prototype
is overwritten. -/
structure DeclaresPair (p : Prototype) (front back : List TypedName) (t : TypedName)
    (kind : ResourceKind) (shader : Shader) : Prop where
  declarations : shader.toDeclarations = { resources := [⟨kind, t.element, t.name, .default, some 0,
    [], .ofOffset p.source (Utf8.length (textBefore front))⟩] }
  output : ∃ preamble, shader.output = preamble ++ String.ofList ((textBefore front).toList ++
    ((t.text ++ (textAfter front back ++ ";")).toList.flatMap overwritten ++ ['\n']))

/-- How a prototype is read. Of the pairs that are not passive the first one decides. -/
structure ReadsPrototype (includes : Includes) (file : String) (p : Prototype) : Prop where
  unchanged_iff : ofSource includes file p.source = .ok (unchanged p.source) ↔
    ∀ t ∈ p.pairs, t.Passive
  declared : ∀ front t back kind, p.pairs = front ++ t :: back → (∀ u ∈ front, u.Passive) →
    t.typeKind? = some kind →
    ∃ shader, ofSource includes file p.source = .ok shader ∧
      DeclaresPair p front back t kind shader
  rejected : ∀ front t back kind, p.pairs = front ++ t :: back → (∀ u ∈ front, u.Passive) →
    t.typeKind? = none → t.type ≠ "struct" → t.nameKind? = some kind →
    ofSource includes file p.source = .error (.rejected ⟨file,
      .point (.ofOffset p.source (Utf8.length (textBefore front ++ t.text))),
      .expected .resourceName⟩)

theorem exists_declaresPair (includes : Includes) (file : String) {p : Prototype}
    {front back : List TypedName} {t : TypedName} {kind : ResourceKind}
    (h : p.pairs = front ++ t :: back) (hfront : ∀ u ∈ front, u.Passive)
    (htype : t.typeKind? = some kind) :
    ∃ shader, ofSource includes file p.source = .ok shader ∧
      DeclaresPair p front back t kind shader := by
  obtain ⟨range, hdivides, houtline⟩ := Outline.ofText_resource h hfront htype
  obtain ⟨shader, preamble, hshader, hdeclarations, houtput⟩ :=
    exists_of_resource houtline hdivides
  exact ⟨shader, hshader, hdeclarations, preamble, houtput⟩

theorem readsPrototype_ofSource (includes : Includes) (file : String) (p : Prototype) :
    ReadsPrototype includes file p where
  unchanged_iff := by
    refine ⟨fun h => Decidable.byContradiction fun hn => ?_,
      fun h => ofSource_eq_unchanged (Outline.ofText_passive h)⟩
    obtain ⟨front, t, back, hsplit, hfront, ht⟩ := TypedName.exists_first_not_passive hn
    rcases TypedName.kind_of_not_passive ht with ⟨kind, htype⟩ | ⟨htype, hstruct, kind, hname⟩
    · obtain ⟨shader, hshader, hdeclares⟩ := exists_declaresPair includes file hsplit hfront htype
      obtain rfl := Except.ok.inj (hshader.symm.trans h)
      cases congrArg Declarations.resources hdeclares.declarations
    · rw [ofSource_eq_failure (Outline.ofText_rejected hsplit hfront htype hstruct hname)] at h
      cases h
  declared := fun _ _ _ _ h hfront htype => exists_declaresPair includes file h hfront htype
  rejected := fun _ _ _ _ h hfront htype hstruct hname =>
    ofSource_eq_failure (Outline.ofText_rejected h hfront htype hstruct hname)

/-- A prototype with a parameter that is taken for the declaration of a texture. -/
theorem parameter_declares_texture :
    ∃ p : Prototype, p.source = "void f(Texture2D t, float x);\n" ∧
      ∃ shader preamble, ofSource (.ofFiles []) "f.hlsl" p.source = .ok shader ∧
        shader.resources = [⟨.texture2D, none, "t", .default, some 0, [], ⟨1, 8⟩⟩] ∧
        shader.output = preamble ++ "void f(                      \n" := by
  let result : TypedName :=
    ⟨"void", none, "f", by decide +kernel, nofun, nofun, by decide +kernel⟩
  let texture : TypedName :=
    ⟨"Texture2D", none, "t", by decide +kernel, nofun, nofun, by decide +kernel⟩
  let number : TypedName :=
    ⟨"float", none, "x", by decide +kernel, nofun, nofun, by decide +kernel⟩
  let p : Prototype := ⟨result, [texture, number], rfl⟩
  have hresult : ∀ u ∈ [result], u.Passive := List.forall_mem_singleton.2 ⟨rfl, .inr rfl⟩
  obtain ⟨shader, hshader, hdeclarations, preamble, houtput⟩ := exists_declaresPair (.ofFiles [])
    "f.hlsl" (show p.pairs = [result] ++ texture :: [number] from rfl) hresult rfl
  refine ⟨p, by decide +kernel, shader, preamble, hshader, ?_, ?_⟩
  · rw [hdeclarations]
    decide +kernel
  · rw [houtput]
    exact congrArg (preamble ++ ·) (by decide +kernel)

end Shader

end BindlessHlsl
