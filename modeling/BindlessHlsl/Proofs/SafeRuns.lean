import BindlessHlsl.Proofs.CheckedScan
import BindlessHlsl.Proofs.ConstantsBudget
import BindlessHlsl.Proofs.LineStructure
import Mathlib.Logic.Relation

/-!
Runs come to an end and stay in bounds. Scanning a text moves a cursor that never leaves it
(`Scan.Safe`), an expansion never goes deeper than its limit, and edits fall between the characters
of the blanked text. As long as sizes are words, a shader is generated or rejected
(`Shader.safeRun_ofSource`).
-/

namespace BindlessHlsl

open Ascii Utf8

/-! ## Lexemes end in the text -/

namespace Lexeme

theorem blockCommentRest_le (bytes : List UInt8) : blockCommentRest bytes ≤ bytes.length := by
  fun_induction blockCommentRest bytes with
  | case1 => exact Nat.le_refl 0
  | case2 b rest h =>
    obtain ⟨more, rfl⟩ := List.head?_eq_some_iff.1 h.2
    simp
  | case3 b rest _ ih =>
    rw [List.length_cons]
    omega

theorem comment_le (bytes : List UInt8) : comment bytes ≤ bytes.length := by
  fun_cases comment bytes with
  | case1 b mark rest =>
    have := (List.takeWhile_prefix (fun b => b != newline) (l := rest)).length_le
    simp only [List.length_cons]
    omega
  | case2 b mark rest =>
    have := blockCommentRest_le rest
    simp only [List.length_cons]
    omega
  | case3 | case4 => exact Nat.zero_le _

theorem stringRest_le (bytes : List UInt8) : stringRest bytes ≤ bytes.length := by
  fun_induction stringRest bytes with
  | case1 => exact Nat.le_refl 0
  | _ => simp_all <;> omega

theorem stringLiteral_le (bytes : List UInt8) : stringLiteral bytes ≤ bytes.length := by
  fun_cases stringLiteral bytes with
  | case1 => exact Nat.le_refl 0
  | case2 rest =>
    have := stringRest_le rest
    rw [List.length_cons]
    omega
  | case3 => exact Nat.zero_le _

theorem lineRest_le (continued : Bool) (bytes : List UInt8) :
    lineRest continued bytes ≤ bytes.length := by
  fun_induction lineRest continued bytes with
  | case1 => exact Nat.le_refl 0
  | _ => simp_all <;> omega

theorem identifier_le (bytes : List UInt8) : identifier bytes ≤ bytes.length := by
  fun_cases identifier bytes with
  | case1 => exact Nat.le_refl 0
  | case2 b rest =>
    have := (List.takeWhile_prefix isIdentifierContinue (l := rest)).length_le
    rw [List.length_cons]
    omega
  | case3 => exact Nat.zero_le _

theorem trivia_le (bytes : List UInt8) : trivia bytes ≤ bytes.length := by
  fun_induction trivia bytes with
  | case1 => exact Nat.le_refl 0
  | case2 b rest _ ih =>
    rw [List.length_cons]
    omega
  | case3 => exact Nat.zero_le _
  | case4 b rest _ n hn ih =>
    have := comment_le (b :: rest)
    rw [hn] at this
    simp only [List.length_cons, List.length_drop] at this ih ⊢
    omega

end Lexeme

/-! ## Cursors stay in the text -/

namespace Cursor

variable {text : List UInt8} {c d : Cursor}

theorem Within.pos_add_rest (h : Within text c) : c.pos + c.rest.length = text.length := by
  rw [← h.bytes_eq, bytes, h.pos_eq, List.length_append, List.length_reverse]

/-- The column counts from the start of a line that lies in front of the cursor. -/
def Columned (c : Cursor) : Prop := 0 < c.column ∧ c.column ≤ c.pos + 1

theorem columned_bump (h : c.Columned) : c.bump.Columned := by
  obtain ⟨hpos, hle⟩ := h
  rw [bump]
  split
  · exact ⟨hpos, hle⟩
  · split
    · exact ⟨Nat.one_pos, Nat.le_add_left ..⟩
    · exact ⟨Nat.succ_pos _, Nat.succ_le_succ hle⟩

theorem Columned.reaches (h : c.Columned) : c.Reaches d → d.Columned := by
  rintro ⟨n, rfl⟩
  induction n generalizing c with
  | zero => exact h
  | succ n ih =>
    rw [advance]
    split
    · exact h
    · exact ih (columned_bump h)

/-- The offsets that a cursor gives rise to lie in its text. -/
structure InBounds (text : String) (c : Cursor) : Prop where
  within : Within (encode text) c
  pos_le : c.pos ≤ length text
  columned : c.Columned
  lexemes_le : ∀ lexeme ∈ [Lexeme.comment, Lexeme.trivia, Lexeme.stringLiteral, Lexeme.line,
    Lexeme.identifier], c.pos + lexeme c.rest ≤ length text

theorem inBounds_of_reaches {text : String} (h : (ofText text).Reaches c) : c.InBounds text := by
  have hwithin := (within_ofText text).reaches h
  have hrest : c.pos + c.rest.length = length text := hwithin.pos_add_rest
  refine ⟨hwithin, hwithin.pos_le, Columned.reaches ⟨Nat.one_pos, Nat.le_refl 1⟩ h, ?_⟩
  intro lexeme hlexeme
  have hle : lexeme c.rest ≤ c.rest.length := by
    simp only [List.mem_cons, List.not_mem_nil, or_false] at hlexeme
    rcases hlexeme with rfl | rfl | rfl | rfl | rfl
    · exact Lexeme.comment_le _
    · exact Lexeme.trivia_le _
    · exact Lexeme.stringLiteral_le _
    · exact Lexeme.lineRest_le _ _
    · exact Lexeme.identifier_le _
  omega

end Cursor

namespace Scan

/-- One scan goes on as another. -/
def GoesOn (s next : Scan) : Prop :=
  ∃ b items, s.cursor.peek = some b ∧ s.step b = ⟨items, .ok next⟩

theorem reaches_of_goesOn {s t : Scan} (h : Relation.ReflTransGen GoesOn s t) :
    s.cursor.Reaches t.cursor := by
  induction h with
  | refl => exact .refl _
  | @tail t next _ hstep ih =>
    obtain ⟨b, items, hp, hs⟩ := hstep
    exact ih.trans (step_progress hp next (by rw [hs])).reaches

/-- Scanning a text takes at most a step for each byte, counts nothing below zero and looks at no
byte outside of the text. -/
structure Safe (text : String) : Prop where
  outline : Outline.checked (length text) (ofText text) = some (Outline.ofText text)
  inBounds : ∀ s, Relation.ReflTransGen GoesOn (ofText text) s →
    ∀ c, s.cursor.Reaches c → c.InBounds text
  slices : ∀ s, Relation.ReflTransGen GoesOn (ofText text) s →
    ∀ c d, s.cursor.Reaches c → c.Reaches d → c.pos ≤ d.pos ∧ d.pos ≤ length text

theorem safe (text : String) : Safe text := by
  have hreaches : ∀ s, Relation.ReflTransGen GoesOn (ofText text) s →
      ∀ c, s.cursor.Reaches c → (Cursor.ofText text).Reaches c :=
    fun _ hs _ hc => (reaches_of_goesOn hs).trans hc
  refine ⟨Outline.checked_eq (Nat.le_refl _), ?_, ?_⟩
  · intro s hs c hc
    exact Cursor.inBounds_of_reaches (hreaches s hs c hc)
  · intro s hs c d hc hd
    exact ⟨hd.pos_le, (Cursor.inBounds_of_reaches ((hreaches s hs c hc).trans hd)).pos_le⟩

end Scan

/-! ## Expansions -/

namespace Expansion

theorem mem_append {x y : Expansion} {e : Entry} (h : e ∈ (x.append y).entries) :
    e ∈ x.entries ∨ e ∈ y.entries := by
  rw [append] at h
  split at h
  · exact .inl h
  · exact List.mem_append.1 h

theorem mem_ofItems {enter : String → Location → Expansion} {file : String} {depth : Nat}
    {failure : Option Failure} {items : List Item} {e : Entry}
    (h : e ∈ (ofItems enter file depth failure items).entries) :
    e.depth = depth ∨ ∃ path place, e ∈ (enter path place).entries := by
  induction items with
  | nil => cases h
  | cons item rest ih =>
    rcases mem_append h with h | h
    · obtain rfl := List.mem_singleton.1 h
      exact .inl rfl
    · rcases mem_append h with h | h
      · cases item with
        | inclusion path place => exact .inr ⟨path, place, h⟩
        | _ => cases h
      · exact ih h

/-- An expansion goes no deeper than it has levels. -/
theorem depth_le {includes : Includes} {levels depth : Nat} {file text : String} {e : Entry}
    (h : e ∈ (ofFile includes levels depth file text).entries) : e.depth ≤ depth + levels := by
  induction levels generalizing depth file text with
  | zero =>
    rcases mem_ofItems h with h | ⟨path, place, h⟩
    · exact Nat.le_of_eq h
    · cases h
  | succ levels ih =>
    rcases mem_ofItems h with h | ⟨path, place, h⟩
    · omega
    · split at h
      · have := ih h
        omega
      · cases h
      · cases h

end Expansion

/-! ## Sizes -/

namespace Declarations

/-- The running total of user constants, from a number of bytes on, is a word at each of them, up to
the first one whose struct lies outside of the root file or that comes after the budget is spent. -/
def RunningFits (bytes : Nat) (members : List (Resource × Struct)) : Prop :=
  ∀ front m back, members = front ++ m :: back → (∀ m' ∈ front ++ [m], m'.2.range.isSome) →
    bytes + bytesOf front ≤ 128 → bytes + bytesOf front + m.2.exactSize < Word.bound

namespace RunningFits

variable {bytes : Nat} {m : Resource × Struct} {members rest : List (Resource × Struct)}

theorem of_lt (h : bytes + bytesOf members < Word.bound) : RunningFits bytes members := by
  rintro front m back rfl _ _
  rw [bytesOf_append, bytesOf_cons] at h
  omega

theorem head (h : RunningFits bytes (m :: rest)) (hroot : m.2.range.isSome) (hle : bytes ≤ 128) :
    bytes + m.2.exactSize < Word.bound :=
  h [] m rest rfl (List.forall_mem_singleton.2 hroot) hle

theorem tail (h : RunningFits bytes (m :: rest)) (hroot : m.2.range.isSome) :
    RunningFits (bytes + m.2.exactSize) rest := by
  rintro front m' back rfl hroots
  have hnext := h (m :: front) m' back rfl (List.forall_mem_cons.2 ⟨hroot, hroots⟩)
  rwa [bytesOf_cons, ← Nat.add_assoc] at hnext

end RunningFits

/-- User constants within the budget and the index table have a word of bytes together. This is so
unless the slots are within 32 of the bound. -/
def TableFits (d : Declarations) : Prop :=
  0 < bytesOf (d.backed d.resources) → bytesOf (d.backed d.resources) ≤ 128 →
    4 * (d.resources.filter fun r => !r.isConstants).length + bytesOf (d.backed d.resources) <
      Word.bound

variable {d : Declarations}

theorem tableFits_of_length_lt (h : d.resources.length < 2 ^ 30 - 32) : d.TableFits := by
  intro _ hle
  have := List.length_filter_le (fun r : Resource => !r.isConstants) d.resources
  rw [Word.bound]
  omega

theorem TableFits.total_lt (h : d.TableFits) (hcount : d.resources.length < 2 ^ 30)
    (hle : bytesOf (d.backed d.resources) ≤ 128) :
    4 * (d.resources.filter fun r => !r.isConstants).length + bytesOf (d.backed d.resources) <
      Word.bound := by
  rcases Nat.eq_zero_or_pos (bytesOf (d.backed d.resources)) with hzero | hpos
  · have := List.length_filter_le (fun r : Resource => !r.isConstants) d.resources
    rw [hzero, Word.bound]
    omega
  · exact h hpos hle

end Declarations

namespace UserConstants

open Declarations

/-- Collecting user constants ends with a rejection or with their exact total. -/
theorem rejected_or_ok {u : UserConstants} {members : List (Resource × Struct)} (file : String)
    (hu : u.size.toNat ≤ 128) (hsize : ∀ m ∈ members, m.2.size? = Word.ofNat? m.2.exactSize)
    (hfit : RunningFits u.size.toNat members) :
    (∃ r, members.foldlM (fun u m => u.addField file m.1 m.2) u = .error (.rejected r)) ∨
      ∃ u', members.foldlM (fun u m => u.addField file m.1 m.2) u = .ok u' ∧
        u'.size.toNat ≤ 128 ∧ u'.size.toNat = u.size.toNat + bytesOf members := by
  induction members generalizing u with
  | nil => exact .inr ⟨u, rfl, hu, rfl⟩
  | cons m rest ih =>
    obtain ⟨hm, hrest⟩ := List.forall_mem_cons.1 hsize
    rw [List.foldlM_cons]
    by_cases hroot : m.2.range.isSome = true
    · by_cases hle : u.size.toNat + m.2.exactSize ≤ 128
      · obtain ⟨u₁, h₁, hs₁⟩ := exists_addField_eq_ok file ⟨hroot, hm⟩ hle
        have hfit₁ := hfit.tail hroot
        rw [← hs₁] at hle hfit₁
        rw [h₁, bytesOf_cons, ← Nat.add_assoc, ← hs₁]
        exact ih hle hrest hfit₁
      · rw [addField_eq_exceeding ⟨hroot, hm⟩ (Nat.not_le.1 hle) (hfit.head hroot hu)]
        exact .inl ⟨_, rfl⟩
    · rw [addField, if_pos (by simpa using hroot)]
      exact .inl ⟨_, rfl⟩

theorem rejected_or_ofDeclarations {includes : Includes} {file source : String} {d : Declarations}
    (hd : ofRoot includes file source = .ok d)
    (hfit : RunningFits 0 (d.backed d.resources)) :
    (∃ r, ofDeclarations file d = .error (.rejected r)) ∨
      ∃ u, ofDeclarations file d = .ok u ∧ bytesOf (d.backed d.resources) ≤ 128 ∧
        u.size.toNat = bytesOf (d.backed d.resources) := by
  have hcollect := rejected_or_ok (u := {}) file (Nat.zero_le 128)
    (fun m hm => size?_of_mem_backed hd hm) hfit
  rw [ofDeclarations_eq]
  refine hcollect.imp_right ?_
  rintro ⟨u, hu, hle, hsize⟩
  have hsize : u.size.toNat = bytesOf (d.backed d.resources) := hsize.trans (Nat.zero_add _)
  exact ⟨u, hu, hsize ▸ hle, hsize⟩

end UserConstants

/-! ## Runs -/

namespace Shader

open Declarations

/-- Generation comes to an end without a size that is no word, without a count below zero, and with
every offset in its text. -/
structure SafeRun (includes : Includes) (file source : String) : Prop where
  returns : (∃ shader, ofSource includes file source = .ok shader) ∨
    ∃ r, ofSource includes file source = .error (.rejected r)
  scans : ∀ text, Scan.Safe text
  depth_le : ∀ e ∈ (Expansion.ofRoot includes file source).entries,
    e.depth ≤ Expansion.depthLimit
  ranges : ∀ d, ofRoot includes file source = .ok d → ∀ item ∈ (Outline.ofText source).items,
    ∀ range, item.range? = some range → range.Lies source 0
  boundaries : ∀ d, ofRoot includes file source = .ok d → ∀ p : Preamble,
    ∀ i ∈ (p.edits source d.functions).insertions,
      IsBoundary ((p.edits source d.functions).blankChars 0 source.toList) i.1

variable {includes : Includes} {file source : String}

theorem returns_of_ofRoot {d : Declarations} (hd : ofRoot includes file source = .ok d)
    (hcount : d.resources.length < 2 ^ 30) (hfit : RunningFits 0 (d.backed d.resources))
    (htable : d.TableFits) :
    (∃ shader, ofSource includes file source = .ok shader) ∨
      ∃ r, ofSource includes file source = .error (.rejected r) := by
  rcases UserConstants.rejected_or_ofDeclarations hd hfit with ⟨r, hr⟩ | ⟨u, hu, hle, hsize⟩
  · exact .inr ⟨r, (ofSource_eq_generate hd).trans (generate_eq_error_of_constants hr)⟩
  · have htotal := htable.total_lt hcount hle
    rw [← hsize] at htotal
    exact .inl (exists_ofSource_of_constants hd hu htotal)

theorem safeRun_ofSource
    (hcount : ∀ d, ofRoot includes file source = .ok d → d.resources.length < 2 ^ 30)
    (hfit : ∀ d, ofRoot includes file source = .ok d → RunningFits 0 (d.backed d.resources))
    (htable : ∀ d, ofRoot includes file source = .ok d → d.TableFits) :
    SafeRun includes file source where
  returns := by
    cases hd : ofRoot includes file source with
    | ok d => exact returns_of_ofRoot hd (hcount d hd) (hfit d hd) (htable d hd)
    | error r =>
      refine .inr ⟨r, ?_⟩
      rw [ofSource, hd]
      rfl
  scans := Scan.safe
  depth_le e he := by
    have := Expansion.depth_le he
    rwa [Nat.zero_add] at this
  ranges d hd item hitem range hrange := lies_of_item hd hitem hrange
  boundaries d hd p i hi := EditList.isBoundary_blankChars (boundary_edits hd p hi)

theorem exists_safeRun :
    let includes := Includes.ofFiles [("i", "Texture2D b; // é\n")]
    let source := "#include \"i\"\nstruct S \x7b\n  matrix<float, 4, 4> m;\n" ++
      "  float f(int a) \x7b return (1); /* \x7d é */ \x7d\n  float x;\n\x7d;\n" ++
      "[constants] ConstantBuffer<S> c; // ü\nTexture2D t;\n" ++
      "float4 g(float2 uv) : COLOR \x7b return t.Load(uv); /* \x7d ñ */ \x7d\n"
    ∃ d, ofRoot includes "f" source = .ok d ∧ d.resources.length = 3 ∧
      bytesOf (d.backed d.resources) = 68 ∧ RunningFits 0 (d.backed d.resources) ∧ d.TableFits ∧
      SafeRun includes "f" source := by
  intro includes source
  obtain ⟨d, hd, hcount, hbytes⟩ : ∃ d ∈ (ofRoot includes "f" source).toOption,
      d.resources.length = 3 ∧ bytesOf (d.backed d.resources) = 68 := by
    decide +kernel
  have hd : ofRoot includes "f" source = .ok d := eq_ok_of_mem_toOption hd
  have hfit : RunningFits 0 (d.backed d.resources) := by
    apply RunningFits.of_lt
    rw [hbytes]
    decide
  have htable : d.TableFits := by
    apply tableFits_of_length_lt
    rw [hcount]
    decide
  have hunique : ∀ d', ofRoot includes "f" source = .ok d' → d' = d := fun d' hd' =>
    Except.ok.inj (hd'.symm.trans hd)
  refine ⟨d, hd, hcount, hbytes, hfit, htable, safeRun_ofSource ?_ ?_ ?_⟩
  · intro d' hd'
    rw [hunique d' hd', hcount]
    decide
  · exact fun d' hd' => hunique d' hd' ▸ hfit
  · exact fun d' hd' => hunique d' hd' ▸ htable

end Shader

end BindlessHlsl
