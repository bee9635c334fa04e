import BindlessHlsl.Outline.Basic
import BindlessHlsl.Proofs.CursorText
import BindlessHlsl.Proofs.MemberSizes

/-!
What one step of the scan can do (`Scan.Notices`), and what a whole scan does that comes to the end
of its text (`Scan.Run`). Everything that later modules need to know about the reading of a text is
said here once, case by case; they go through the cases and never open the readers again.
-/

namespace BindlessHlsl

open Ascii Utf8

/-! ## Where the readers stop -/

namespace Resource

theorem identifier_of_readElement {c d : Cursor} {element : String}
    (h : readElement c = .ok (some element, d)) : IsIdentifier element := by
  unfold readElement at h
  split at h
  · cases h
  · simp only [Reading.bind_eq_ok] at h
    obtain ⟨⟨word, c₁⟩, h₁, c₂, _, h⟩ := h
    cases h
    exact (Cursor.identifier_of_expectIdentifier h₁).1

theorem identifiers_of_read {c d : Cursor} {element : Option String} {name : String}
    (h : read c = .ok (element, name, d)) :
    IsIdentifier name ∧ ∀ e, element = some e → IsIdentifier e := by
  simp only [read, Reading.bind_eq_ok] at h
  obtain ⟨⟨element', c₁⟩, h₁, ⟨name', c₂⟩, h₂, h⟩ := h
  cases h
  refine ⟨(Cursor.identifier_of_expectIdentifier h₂).1, fun e he => ?_⟩
  subst he
  exact identifier_of_readElement h₁

theorem onBoundary_skipDeclaration (c : Cursor) : (skipDeclaration c).OnBoundary := by
  unfold skipDeclaration
  dsimp only
  cases he : (c.skipWhile fun b => b != newline && b != semicolon).eat? semicolon with
  | some next => exact Cursor.onBoundary_of_eat? he rfl
  | none =>
    refine .inr fun b hb => ?_
    have hn := List.head?_dropWhile_not (fun b => b != newline && b != semicolon) c.rest
    rw [Option.getD_none, Cursor.skipWhile, Cursor.rest_advance, Cursor.drop_length_takeWhile] at hb
    rw [hb] at hn
    simp only [Bool.and_eq_false_imp, bne_iff_ne, bne_eq_false_iff_eq] at hn
    by_cases hnl : b = newline
    · subst hnl; rfl
    · rw [hn hnl]; rfl

end Resource

namespace Sampler

theorem onBoundary_of_readBlock {s t : SamplerSettings} {c d : Cursor}
    (h : readBlock s c = .ok (t, d)) : d.OnBoundary := by
  fun_induction readBlock s c with
  | case1 => cases h
  | case2 s c hp =>
    cases h
    exact Cursor.onBoundary_advance_of_peek hp rfl
  | case3 => cases h
  | case4 s c _ _ _ t' next hs _ ih => exact ih h

theorem onBoundary_of_readPreset {c d : Cursor} {s : SamplerSettings}
    (h : readPreset c = .ok (some (s, d))) : d.OnBoundary := by
  unfold readPreset at h
  dsimp only at h
  split at h
  · cases h
  next =>
    split at h
    next preset hk =>
      cases h
      refine Cursor.onBoundary_identifier fun he => ?_
      rw [he] at hk
      cases hk
    next => cases h

theorem onBoundary_of_readStart {c d : Cursor} {s : SamplerSettings}
    (h : readStart c = .ok (some (s, d))) : d.OnBoundary := by
  unfold readStart at h
  split at h
  · cases h
  next b hp =>
    split at h
    · exact onBoundary_of_readPreset h
    · split at h
      next hb =>
        cases h
        exact Cursor.onBoundary_of_peek hp (by subst hb; rfl)
      next => cases h

theorem onBoundary_of_read {c d : Cursor} {name : String} {s : SamplerSettings}
    (h : read c = .ok (some (name, s, d))) : d.OnBoundary := by
  unfold read at h
  dsimp only at h
  split at h
  · cases h
  · simp only [Reading.bind_eq_ok] at h
    obtain ⟨start, hs, h⟩ := h
    split at h
    · cases h
    next start next =>
      simp only [Reading.bind_eq_ok] at h
      obtain ⟨⟨t, last⟩, hb, h⟩ := h
      cases h
      have hl : last.OnBoundary := by
        unfold readOptionalBlock at hb
        split at hb
        · exact onBoundary_of_readBlock hb
        · cases hb
          exact (onBoundary_of_readStart hs).skipTrivia
      unfold skipSemicolon
      cases he : last.skipInline.eat? semicolon with
      | none => exact hl.skipInline
      | some after => exact Cursor.onBoundary_of_eat? he rfl

end Sampler

namespace Struct

theorem onBoundary_of_readMembers {read members : List Member} {c d : Cursor}
    (h : readMembers read c = .ok (members, d)) : d.OnBoundary := by
  fun_induction readMembers read c with
  | case1 => cases h
  | case2 read c hp =>
    cases h
    exact Cursor.onBoundary_advance_of_peek hp rfl
  | case3 => cases h
  | case4 read c _ _ _ member next hm _ ih => exact ih h

theorem onBoundary_of_read {c d : Cursor} {definition : Definition}
    (h : read c = .ok (some definition, d)) : d.OnBoundary := by
  unfold read at h
  dsimp only at h
  split at h
  · cases h
  · simp only [Reading.bind_eq_ok] at h
    obtain ⟨⟨members, last⟩, hm, h⟩ := h
    cases h
    unfold skipSemicolon
    cases he : last.skipInline.eat? semicolon with
    | none => exact onBoundary_of_readMembers hm
    | some after => exact Cursor.onBoundary_of_eat? he rfl

end Struct

namespace Function

theorem peek_of_bodyStart? {name afterName c : Cursor} (h : bodyStart? name afterName = some c) :
    c.peek = some openBrace := by
  unfold bodyStart? at h
  split at h
  next =>
    simp only [Option.bind_eq_bind, Option.bind_eq_some_iff] at h
    obtain ⟨c₁, _, c₂, _, h⟩ := h
    split at h
    next hp =>
      cases h
      exact hp
    next => cases h
  next => cases h

theorem peek_of_closeBody {depth : Nat} {c d : Cursor} (h : closeBody depth c = some d) :
    d.peek = some closeBrace := by
  fun_induction closeBody depth c with
  | case1 => cases h
  | case5 =>
    cases h
    assumption
  | case2 | case3 | case4 | case6 | case7 =>
    rename_i ih
    exact ih h

end Function

/-! ## One step -/

namespace Scan

/-- Neither end of what a step passed cuts a character apart. -/
def Whole (s next : Scan) : Prop := s.cursor.OnBoundary ∧ next.cursor.OnBoundary

/-- What a step that does not fail notices, and with which pending attributes the scan goes on. -/
inductive Notices (s next : Scan) : List Item → Prop
  | nothing : next.pending = s.pending → Notices s next []
  | contentPath {path : String} : next.pending = s.pending → Whole s next →
    Notices s next [.pathDirective s.cursor.location,
      .contentPath path (s.cursor.rangeUntil next.cursor)]
  | bindGroup {name : String} : next.pending = s.pending → Whole s next →
    Notices s next [.bindGroup name s.cursor.location (s.cursor.rangeUntil next.cursor)]
  | inclusion {path : String} : next.pending = s.pending →
    Notices s next [.inclusion path s.cursor.location]
  | bracket {placed : PlacedAttribute} :
    next.pending = s.pending ++ awaited placed → Whole s next →
    Notices s next (groupUses placed.value s.cursor.location ++
      [.bracketed placed (s.cursor.rangeUntil next.cursor)])
  | resource {kind : ResourceKind} {element : Option String} {name : String} :
    next.pending = [] → IsIdentifier name → (∀ e, element = some e → IsIdentifier e) →
    Whole s next →
    Notices s next [.resource kind element name s.cursor.location s.pending
      (s.cursor.rangeUntil next.cursor)]
  | sampler {name : String} {settings : SamplerSettings} :
    next.pending = s.pending → Whole s next →
    Notices s next [.sampler name settings (s.cursor.rangeUntil next.cursor)]
  | struct {definition : Struct.Definition} : next.pending = s.pending → Whole s next →
    (∀ m ∈ definition.members, m.type.Shaped) →
    Notices s next [.struct definition s.cursor.location (s.cursor.rangeUntil next.cursor)]
  | function {name : String} {brace stop : Cursor} :
    next.pending = [] → s.cursor.Passes brace → brace.peek = some openBrace →
    (brace.advance 1).Reaches stop → stop.peek = some closeBrace →
    next.cursor = stop.advance 1 →
    Notices s next [.functionStart name s.pending,
      .function name ((brace.advance 1).rangeUntil stop)]

variable {s next : Scan} {items : List Item}

theorem notices_of_contentPath {c : Cursor} (hs : s.cursor.OnBoundary)
    (h : s.contentPath c = ⟨items, .ok next⟩) : Notices s next items := by
  unfold contentPath at h
  dsimp only at h
  split at h
  · cases h
  · cases h
    exact .contentPath rfl ⟨hs, Cursor.onBoundary_skipLine _⟩

theorem notices_of_bindGroup {c : Cursor} (hs : s.cursor.OnBoundary)
    (h : s.bindGroup c = ⟨items, .ok next⟩) : Notices s next items := by
  unfold bindGroup at h
  split at h
  · cases h
  · cases h
    exact .bindGroup rfl ⟨hs, Cursor.onBoundary_skipLine _⟩

theorem notices_of_inclusion {c : Cursor} (h : s.inclusion c = ⟨items, .ok next⟩) :
    Notices s next items := by
  unfold inclusion at h
  split at h
  · cases h
  · cases h
    exact .inclusion rfl

theorem notices_of_directive (hs : s.cursor.OnBoundary)
    (h : s.directive = ⟨items, .ok next⟩) : Notices s next items := by
  unfold directive at h
  dsimp only at h
  split at h
  · exact notices_of_inclusion h
  split at h
  · unfold pragma at h
    dsimp only at h
    split at h
    · exact notices_of_contentPath hs h
    split at h
    · exact notices_of_bindGroup hs h
    · cases h
      exact .nothing rfl
  · cases h
    exact .nothing rfl

theorem notices_of_bracket (hs : s.cursor.OnBoundary)
    (h : s.bracket = ⟨items, .ok next⟩) : Notices s next items := by
  unfold bracket at h
  dsimp only at h
  split at h
  · cases h
  next a after _ =>
    split at h
    · cases h
    next last he =>
      cases h
      exact @Notices.bracket s _ ⟨a, _⟩ rfl ⟨hs, Cursor.onBoundary_of_expectByte he rfl⟩

theorem notices_of_resource {kind : ResourceKind} {c : Cursor} (hs : s.cursor.OnBoundary)
    (h : s.resource kind c = ⟨items, .ok next⟩) : Notices s next items := by
  unfold resource at h
  split at h
  · cases h
  next element name after hr =>
    cases h
    obtain ⟨hn, he⟩ := Resource.identifiers_of_read hr
    exact .resource rfl hn he ⟨hs, Resource.onBoundary_skipDeclaration after⟩

theorem notices_of_sampler {c : Cursor} (hs : s.cursor.OnBoundary)
    (h : s.sampler c = ⟨items, .ok next⟩) : Notices s next items := by
  unfold sampler at h
  split at h
  · cases h
  · cases h
    exact .nothing rfl
  next hr =>
    cases h
    exact .sampler rfl ⟨hs, Sampler.onBoundary_of_read hr⟩

theorem notices_of_struct {c : Cursor} (hs : s.cursor.OnBoundary)
    (h : s.struct c = ⟨items, .ok next⟩) : Notices s next items := by
  unfold struct at h
  split at h
  · cases h
  · cases h
    exact .nothing rfl
  next hr =>
    cases h
    exact .struct rfl ⟨hs, Struct.onBoundary_of_read hr⟩ (Struct.shaped_of_read hr)

theorem notices_of_function {name : String} {brace : Cursor} (hb : s.cursor.Passes brace)
    (hp : brace.peek = some openBrace) (h : s.function name brace = ⟨items, .ok next⟩) :
    Notices s next items := by
  unfold function at h
  dsimp only at h
  split at h
  · cases h
  next stop hc =>
    cases h
    exact .function rfl hb hp (Function.reaches_of_closeBody hc) (Function.peek_of_closeBody hc) rfl

theorem notices_of_word {b : UInt8} (hp : s.cursor.peek = some b)
    (hb : isIdentifierStart b = true) (h : s.word = ⟨items, .ok next⟩) : Notices s next items := by
  have hw := Cursor.passes_identifier_of_start hp hb
  have hs := Cursor.onBoundary_of_peek hp
    (Cursor.isAscii_of_isIdentifierContinue (by simp [isIdentifierContinue, hb]))
  unfold word at h
  dsimp only at h
  split at h
  · exact notices_of_resource hs h
  split at h
  · exact notices_of_sampler hs h
  split at h
  · exact notices_of_struct hs h
  split at h
  next hf =>
    exact notices_of_function (hw.trans (Function.passes_of_bodyStart? hf).reaches)
      (Function.peek_of_bodyStart? hf) h
  next =>
    cases h
    exact .nothing rfl

theorem notices_of_step {b : UInt8} (hp : s.cursor.peek = some b)
    (h : s.step b = ⟨items, .ok next⟩) : Notices s next items := by
  unfold step at h
  split at h
  · cases h
    exact .nothing rfl
  split at h
  · cases h
    exact .nothing rfl
  split at h
  next hb => exact notices_of_directive (Cursor.onBoundary_of_peek hp (by subst hb; rfl)) h
  split at h
  next hb => exact notices_of_bracket (Cursor.onBoundary_of_peek hp (by rw [hb.1]; rfl)) h
  split at h
  next hb => exact notices_of_word hp hb h
  · cases h
    exact .nothing rfl

/-! ## Whole scans -/

/-- The scan notices items in order until nothing is left to read and no attribute is pending. -/
inductive Run : Scan → List Item → Prop
  | done {s : Scan} : s.cursor.rest = [] → s.pending = [] → Run s []
  | step {s next : Scan} {items more : List Item} : s.cursor.Passes next.cursor →
    Notices s next items → Run next more → Run s (items ++ more)

end Scan

/-- An outline without a failure is what a scan to the end of the text notices. -/
theorem Outline.run_of_ofScan {s : Scan} (h : (ofScan s).failure = none) :
    s.Run (ofScan s).items := by
  fun_induction ofScan s with
  | case1 s hp =>
    refine .done (by simpa [Cursor.peek] using hp) ?_
    cases hs : s.pending with
    | nil => rfl
    | cons first more => simp [hs, Scan.unresolved?] at h
  | case2 => simp at h
  | case3 s b hp next hs _ _ ih =>
    exact .step (Scan.step_progress hp next (by rw [hs])) (Scan.notices_of_step hp hs) (ih h)
  | case4 s b hp next items hs _ _ _ ih =>
    exact .step (Scan.step_progress hp next (by rw [hs])) (Scan.notices_of_step hp hs) (ih h)

theorem Outline.ofScan_of_ok {s next : Scan} {b : UInt8} {items : List Item}
    (hp : s.cursor.peek = some b) (hs : s.step b = ⟨items, .ok next⟩) :
    ofScan s = (ofScan next).after items := by
  fun_cases ofScan s with
  | case1 hp' => simp [hp] at hp'
  | case2 b' hp' => simp_all
  | case3 b' hp' next' hs' =>
    obtain rfl := Option.some.inj (hp.symm.trans hp')
    obtain ⟨rfl, hn⟩ := Step.mk.inj (hs.symm.trans hs')
    cases hn
    rfl
  | case4 b' hp' next' items' hs' =>
    obtain rfl := Option.some.inj (hp.symm.trans hp')
    obtain ⟨rfl, hn⟩ := Step.mk.inj (hs.symm.trans hs')
    cases hn
    rfl

theorem Outline.ofScan_of_error {s : Scan} {b : UInt8} {items : List Item} {failure : Failure}
    (hp : s.cursor.peek = some b) (hs : s.step b = ⟨items, .error failure⟩) :
    ofScan s = ⟨items, some failure⟩ := by
  fun_cases ofScan s with
  | case1 hp' => simp [hp] at hp'
  | case2 b' hp' items' failure' hs' =>
    obtain rfl := Option.some.inj (hp.symm.trans hp')
    obtain ⟨rfl, hn⟩ := Step.mk.inj (hs.symm.trans hs')
    cases hn
    rfl
  | case3 b' hp' => simp_all
  | case4 b' hp' => simp_all

theorem Outline.ofScan_of_end {s : Scan} (hp : s.cursor.peek = none) :
    ofScan s = ⟨[], Scan.unresolved? s.pending⟩ := by
  fun_cases ofScan s with
  | case1 => rfl
  | case2 b hp' | case3 b hp' | case4 b hp' => simp [hp] at hp'

end BindlessHlsl
