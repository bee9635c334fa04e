import BindlessHlsl.Expansion.Basic

/-!
Visits of an expansion. A visitor takes the entries in one by one and may stop at any of them. It
sees each entry as soon as it is reached: a visit that stops early reads no file beyond that point,
however large the whole expansion is.

The main statement, `Visitor.visitRoot_eq`, says that a visit does the same as going through the
entries of the finished expansion.
-/

namespace BindlessHlsl

/-- Something that is done with the entries of an expansion in order. -/
structure Visitor (σ ε : Type) where
  /-- Takes in an entry, or stops at it. -/
  step : σ → Entry → Except ε σ
  /-- Stops where the expansion does. -/
  reject : σ → Rejection → ε

namespace Visitor

variable {σ ε : Type} (v : Visitor σ ε)

/-- Goes through a finished expansion. -/
def through (x : Expansion) (s : σ) : Except ε σ :=
  match x.entries.foldlM v.step s with
  | .error e => .error e
  | .ok s =>
    match x.rejection with
    | some r => .error (v.reject s r)
    | none => .ok s

/-- Visits items of a file, with the visit of every included file given. -/
def visitItems (enter : String → Location → σ → Except ε σ) (file : String) (depth : Nat)
    (failure : Option Failure) : List Item → σ → Except ε σ
  | [], s =>
    match failure with
    | some f => .error (v.reject s (f.inFile file))
    | none => .ok s
  | item :: rest, s =>
    match v.step s ⟨file, depth, item⟩ with
    | .error e => .error e
    | .ok s =>
      match item with
      | .inclusion path place =>
        match enter path place s with
        | .error e => .error e
        | .ok s => visitItems enter file depth failure rest s
      | _ => visitItems enter file depth failure rest s

/-- Visits a file that may include files to a number of further levels. -/
def visitFile (includes : Includes) : (levels depth : Nat) → (file text : String) → σ → Except ε σ
  | 0, depth, file, text, s =>
    let outline := Outline.ofText text
    let enter path place :=
      v.through (.stopped file place (.includeDepthExceeded path Expansion.depthLimit))
    v.visitItems enter file depth outline.failure outline.items s
  | levels + 1, depth, file, text, s =>
    let outline := Outline.ofText text
    let enter path place :=
      match includes.find path with
      | .found inner => visitFile includes levels (depth + 1) path inner
      | .missing => v.through (.stopped file place (.includeNotFound path))
      | .unreadable message => v.through (.stopped file place (.includeUnreadable path message))
    v.visitItems enter file depth outline.failure outline.items s

/-- Visits a root file and what it includes. -/
def visitRoot (includes : Includes) (file text : String) (s : σ) : Except ε σ :=
  v.visitFile includes Expansion.depthLimit 0 file text s

theorem through_append (x y : Expansion) (s : σ) :
    v.through (x.append y) s = (v.through x s).bind (v.through y) := by
  unfold Expansion.append through
  cases x.rejection with
  | some r => cases x.entries.foldlM v.step s <;> rfl
  | none =>
    rw [List.foldlM_append]
    cases x.entries.foldlM v.step s <;> rfl

theorem through_entry (e : Entry) (s : σ) : v.through ⟨[e], none⟩ s = v.step s e := by
  rw [through, List.foldlM_cons]
  cases v.step s e <;> rfl

theorem visitItems_eq {enter : String → Location → σ → Except ε σ}
    {inner : String → Location → Expansion}
    (h : ∀ path place s, enter path place s = v.through (inner path place) s) (file : String)
    (depth : Nat) (failure : Option Failure) (list : List Item) (s : σ) :
    v.visitItems enter file depth failure list s =
      v.through (.ofItems inner file depth failure list) s := by
  induction list generalizing s with
  | nil => cases failure <;> rfl
  | cons item rest ih =>
    rw [Expansion.ofItems, through_append, through_entry, visitItems]
    cases v.step s ⟨file, depth, item⟩ with
    | error e => rfl
    | ok s =>
      cases item with
      | inclusion path place =>
        simp only [Expansion.expanded, Except.bind, through_append, ← h]
        cases enter path place s with
        | error e => rfl
        | ok s => exact ih s
      | _ => exact ih s

theorem visitFile_eq (includes : Includes) (levels depth : Nat) (file text : String) (s : σ) :
    v.visitFile includes levels depth file text s =
      v.through (.ofFile includes levels depth file text) s := by
  induction levels generalizing depth file text s with
  | zero => exact v.visitItems_eq (fun _ _ _ => rfl) ..
  | succ levels ih =>
    refine v.visitItems_eq (fun path place s => ?_) ..
    cases includes.find path with
    | found inner => exact ih ..
    | missing => rfl
    | unreadable message => rfl

/-- A visit takes in the entries of the expansion in order, up to where either of them stops. -/
theorem visitRoot_eq (includes : Includes) (file text : String) (s : σ) :
    v.visitRoot includes file text s = v.through (.ofRoot includes file text) s :=
  v.visitFile_eq ..

end Visitor

end BindlessHlsl
