import BindlessHlsl.Proofs.Gathering
import Mathlib.Logic.Relation

/-!
The run of a scan through a root file and the files that it includes, moment by moment. A moment
holds the files that are being scanned, the innermost first, and what was declared so far. One step
of the innermost scan leads to the next moment or to a rejection (`Moment.next?`); what either can
be is listed once (`Moment.Follows`, `Moment.Stops`). Gathering declarations has the outcome to
which the moments lead (`Moment.ofRoot_eq_ok_iff`, `Moment.ofRoot_eq_error_iff`), so that what holds
of every moment holds at any time while a shader is read.
-/

namespace BindlessHlsl

open Relation

/-! ## Items of one step -/

/-- None of the items includes a file. -/
def Item.InclusionFree (items : List Item) : Prop := ∀ path place, .inclusion path place ∉ items

namespace Scan

variable {s next : Scan} {items : List Item}

theorem inclusionFree_groupUses (a : Attribute) (place : Location) :
    Item.InclusionFree (groupUses a place) := by
  intro path place' h
  obtain ⟨group, _, _, hi⟩ := mem_groupUses.1 h
  cases hi

theorem Notices.inclusion_or_free (h : Notices s next items) :
    (∃ path, items = [.inclusion path s.cursor.location]) ∨ Item.InclusionFree items := by
  cases h with
  | inclusion => exact .inl ⟨_, rfl⟩
  | bracket =>
    refine .inr fun path place hm => ?_
    rcases List.mem_append.1 hm with hm | hm
    · exact inclusionFree_groupUses _ _ path place hm
    · simp at hm
  | _ => exact .inr fun path place hm => by simp at hm

theorem inclusionFree_of_directive {failure : Failure}
    (h : s.directive = ⟨items, .error failure⟩) : Item.InclusionFree items := by
  unfold directive at h
  dsimp only at h
  split at h
  · unfold inclusion at h
    split at h <;> cases h
    exact fun path place => List.not_mem_nil
  split at h
  · unfold pragma at h
    dsimp only at h
    split at h
    · unfold contentPath at h
      dsimp only at h
      split at h <;> cases h
      intro path place hm
      simp at hm
    split at h
    · unfold bindGroup at h
      split at h <;> cases h
      exact fun path place => List.not_mem_nil
    · cases h
  · cases h

theorem inclusionFree_of_bracket {failure : Failure} (h : s.bracket = ⟨items, .error failure⟩) :
    Item.InclusionFree items := by
  unfold bracket at h
  dsimp only at h
  split at h
  · cases h
    exact fun path place => List.not_mem_nil
  · split at h <;> cases h
    exact inclusionFree_groupUses _ _

theorem inclusionFree_of_word {failure : Failure} (h : s.word = ⟨items, .error failure⟩) :
    Item.InclusionFree items := by
  have hnil : Item.InclusionFree [] := fun path place => List.not_mem_nil
  unfold word at h
  dsimp only at h
  split at h
  · unfold resource at h
    split at h <;> cases h
    exact hnil
  split at h
  · unfold sampler at h
    split at h <;> cases h
    exact hnil
  split at h
  · unfold struct at h
    split at h <;> cases h
    exact hnil
  split at h
  · unfold function at h
    dsimp only at h
    split at h <;> cases h
    intro path place hm
    simp at hm
  · cases h

/-- A step that fails includes no file. -/
theorem inclusionFree_of_step {b : UInt8} {failure : Failure}
    (h : s.step b = ⟨items, .error failure⟩) : Item.InclusionFree items := by
  unfold step at h
  split at h
  · cases h
  split at h
  · cases h
  split at h
  · exact inclusionFree_of_directive h
  split at h
  · exact inclusionFree_of_bracket h
  split at h
  · exact inclusionFree_of_word h
  · cases h

end Scan

/-! ## Moments -/

/-- A file that is being scanned. -/
structure Frame where
  file : String
  text : String
  scan : Scan

/-- The files that are being scanned, the innermost first, and what was declared so far. -/
structure Moment where
  stack : List Frame
  declarations : Declarations

namespace Frame

def opened (file text : String) : Frame := ⟨file, text, .ofText text⟩

def moved (f : Frame) (scan : Scan) : Frame := { f with scan := scan }

/-- Takes in what a step in a file notices. -/
def take (f : Frame) (depth : Nat) (items : List Item) (d : Declarations) :
    Except Rejection Declarations :=
  items.foldlM (fun d item => d.add ⟨f.file, depth, item⟩) d

/-- The files that are being scanned after a step in the innermost one. -/
def entered (includes : Includes) (f : Frame) (below : List Frame) (items : List Item) :
    Except Rejection (List Frame) :=
  match items with
  | [.inclusion path place] =>
    let refused (cause : Cause) := .error ((Failure.at place cause).inFile f.file)
    if below.length < Expansion.depthLimit then
      match includes.find path with
      | .found text => .ok (opened path text :: f :: below)
      | .missing => refused (.includeNotFound path)
      | .unreadable message => refused (.includeUnreadable path message)
    else refused (.includeDepthExceeded path Expansion.depthLimit)
  | _ => .ok (f :: below)

/-- What follows while a file is being scanned that lies on top of others. -/
def next (includes : Includes) (f : Frame) (below : List Frame) (d : Declarations) :
    Except Rejection Moment :=
  match f.scan.cursor.peek with
  | none =>
    match Scan.unresolved? f.scan.pending with
    | some failure => .error (failure.inFile f.file)
    | none => .ok ⟨below, d⟩
  | some b => do
    let step := f.scan.step b
    let d ← f.take below.length step.items d
    let scan ← step.next.mapError fun failure => failure.inFile f.file
    let stack ← (f.moved scan).entered includes below step.items
    return ⟨stack, d⟩

end Frame

namespace Moment

/-- The moment at which a root file is opened. -/
def start (file text : String) : Moment := ⟨[.opened file text], {}⟩

/-- What follows a moment. Nothing does once all files are left. -/
def next? (includes : Includes) (m : Moment) : Option (Except Rejection Moment) :=
  match m.stack with
  | [] => none
  | f :: below => some (f.next includes below m.declarations)

/-- One moment leads to another: the innermost file ends, a step in it is taken in, or a step in it
includes a file. -/
inductive Follows (includes : Includes) : Moment → Moment → Prop
  | leave {f : Frame} {below : List Frame} {d : Declarations} :
    f.scan.cursor.peek = none → f.scan.pending = [] →
    Follows includes ⟨f :: below, d⟩ ⟨below, d⟩
  | notice {f : Frame} {below : List Frame} {d d' : Declarations} {b : UInt8} {items : List Item}
      {scan : Scan} :
    f.scan.cursor.peek = some b → f.scan.step b = ⟨items, .ok scan⟩ → Item.InclusionFree items →
    f.take below.length items d = .ok d' →
    Follows includes ⟨f :: below, d⟩ ⟨f.moved scan :: below, d'⟩
  | enter {f : Frame} {below : List Frame} {d : Declarations} {b : UInt8} {scan : Scan}
      {path text : String} {place : Location} :
    f.scan.cursor.peek = some b → f.scan.step b = ⟨[.inclusion path place], .ok scan⟩ →
    below.length < Expansion.depthLimit → includes.find path = .found text →
    Follows includes ⟨f :: below, d⟩ ⟨.opened path text :: f.moved scan :: below, d⟩

/-- Why a file is not included at some depth. -/
inductive Refuses (includes : Includes) (depth : Nat) (path : String) : Cause → Prop
  | tooDeep : Expansion.depthLimit ≤ depth →
    Refuses includes depth path (.includeDepthExceeded path Expansion.depthLimit)
  | missing : depth < Expansion.depthLimit → includes.find path = .missing →
    Refuses includes depth path (.includeNotFound path)
  | unreadable {message : String} : depth < Expansion.depthLimit →
    includes.find path = .unreadable message →
    Refuses includes depth path (.includeUnreadable path message)

/-- A moment leads to a rejection: attributes are left at the end of a file, an item cannot be taken
in, a file cannot be read any further, or a file is not included. -/
inductive Stops (includes : Includes) : Moment → Rejection → Prop
  | unresolved {f : Frame} {below : List Frame} {d : Declarations} {failure : Failure} :
    f.scan.cursor.peek = none → Scan.unresolved? f.scan.pending = some failure →
    Stops includes ⟨f :: below, d⟩ (failure.inFile f.file)
  | item {f : Frame} {below : List Frame} {d : Declarations} {b : UInt8} {items : List Item}
      {next : Reading Scan} {r : Rejection} :
    f.scan.cursor.peek = some b → f.scan.step b = ⟨items, next⟩ →
    f.take below.length items d = .error r → Stops includes ⟨f :: below, d⟩ r
  | reading {f : Frame} {below : List Frame} {d d' : Declarations} {b : UInt8} {items : List Item}
      {failure : Failure} :
    f.scan.cursor.peek = some b → f.scan.step b = ⟨items, .error failure⟩ →
    f.take below.length items d = .ok d' →
    Stops includes ⟨f :: below, d⟩ (failure.inFile f.file)
  | inclusion {f : Frame} {below : List Frame} {d : Declarations} {b : UInt8} {scan : Scan}
      {path : String} {place : Location} {cause : Cause} :
    f.scan.cursor.peek = some b → f.scan.step b = ⟨[.inclusion path place], .ok scan⟩ →
    Refuses includes below.length path cause →
    Stops includes ⟨f :: below, d⟩ ((Failure.at place cause).inFile f.file)

end Moment

/-! ## What a step can lead to -/

namespace Frame

open Moment

variable {includes : Includes} {f : Frame} {below : List Frame} {d : Declarations} {b : UInt8}
  {items : List Item}

theorem next_of_end (hp : f.scan.cursor.peek = none) :
    f.next includes below d =
      match Scan.unresolved? f.scan.pending with
      | some failure => .error (failure.inFile f.file)
      | none => .ok ⟨below, d⟩ := by
  rw [next, hp]

theorem next_of_step {next : Reading Scan} (hp : f.scan.cursor.peek = some b)
    (hs : f.scan.step b = ⟨items, next⟩) :
    f.next includes below d =
      (f.take below.length items d).bind fun d =>
        (next.mapError fun failure => failure.inFile f.file).bind fun scan =>
          ((f.moved scan).entered includes below items).map fun stack => ⟨stack, d⟩ := by
  rw [Frame.next, hp]
  simp only [hs]
  rfl

theorem entered_of_free (h : Item.InclusionFree items) :
    f.entered includes below items = .ok (f :: below) := by
  unfold entered
  split
  · exact absurd List.mem_cons_self (h _ _)
  · rfl

theorem entered_of_found {path text : String} {place : Location}
    (hlt : below.length < Expansion.depthLimit) (hf : includes.find path = .found text) :
    f.entered includes below [.inclusion path place] = .ok (opened path text :: f :: below) := by
  simp only [entered, if_pos hlt, hf]

theorem entered_of_refuses {path : String} {place : Location} {cause : Cause}
    (h : Refuses includes below.length path cause) :
    f.entered includes below [.inclusion path place] =
      .error ((Failure.at place cause).inFile f.file) := by
  cases h with
  | tooDeep hle => simp only [entered, if_neg (Nat.not_lt.2 hle)]
  | missing hlt hf => simp only [entered, if_pos hlt, hf]
  | unreadable hlt hf => simp only [entered, if_pos hlt, hf]

/-- A file is entered or refused. -/
theorem found_or_refuses (includes : Includes) (depth : Nat) (path : String) :
    (depth < Expansion.depthLimit ∧ ∃ text, includes.find path = .found text) ∨
      ∃ cause, Refuses includes depth path cause := by
  by_cases hlt : depth < Expansion.depthLimit
  · cases hf : includes.find path with
    | found text => exact .inl ⟨hlt, text, rfl⟩
    | missing => exact .inr ⟨_, .missing hlt hf⟩
    | unreadable message => exact .inr ⟨_, .unreadable hlt hf⟩
  · exact .inr ⟨_, .tooDeep (Nat.not_lt.1 hlt)⟩

end Frame

namespace Moment

variable {includes : Includes} {m m' : Moment} {r : Rejection}

theorem Follows.next?_eq (h : Follows includes m m') : m.next? includes = some (.ok m') := by
  cases h with
  | leave hp hn => simp only [next?, Frame.next_of_end hp, hn, Scan.unresolved?]
  | notice hp hs hfree ht =>
    simp only [next?, Frame.next_of_step hp hs, ht, Frame.entered_of_free hfree]
    rfl
  | enter hp hs hlt hf =>
    simp only [next?, Frame.next_of_step hp hs, Frame.take]
    simp only [Except.mapError, Except.bind, Frame.entered_of_found hlt hf]
    rfl

theorem Stops.next?_eq (h : Stops includes m r) : m.next? includes = some (.error r) := by
  cases h with
  | unresolved hp hu => simp only [next?, Frame.next_of_end hp, hu]
  | item hp hs ht =>
    simp only [next?, Frame.next_of_step hp hs, ht]
    rfl
  | reading hp hs ht =>
    simp only [next?, Frame.next_of_step hp hs, ht]
    rfl
  | inclusion hp hs hr =>
    simp only [next?, Frame.next_of_step hp hs, Frame.take]
    simp only [Except.mapError, Except.bind, Frame.entered_of_refuses hr]
    rfl

/-- What follows a moment at which a file is being scanned. -/
theorem follows_or_stops (f : Frame) (below : List Frame) (d : Declarations) :
    (∃ m, Follows includes ⟨f :: below, d⟩ m) ∨ ∃ r, Stops includes ⟨f :: below, d⟩ r := by
  cases hp : f.scan.cursor.peek with
  | none =>
    cases hn : f.scan.pending with
    | nil => exact .inl ⟨_, .leave hp hn⟩
    | cons first rest => exact .inr ⟨_, .unresolved hp (by rw [hn]; rfl)⟩
  | some b =>
    rcases hs : f.scan.step b with ⟨items, failure | scan⟩
    · cases ht : f.take below.length items d with
      | error r => exact .inr ⟨r, .item hp hs ht⟩
      | ok d' => exact .inr ⟨_, .reading hp hs ht⟩
    · rcases (Scan.notices_of_step hp hs).inclusion_or_free with ⟨path, rfl⟩ | hfree
      · rcases Frame.found_or_refuses includes below.length path with
          ⟨hlt, text, hf⟩ | ⟨cause, hr⟩
        · exact .inl ⟨_, .enter hp hs hlt hf⟩
        · exact .inr ⟨_, .inclusion hp hs hr⟩
      · cases ht : f.take below.length items d with
        | error r => exact .inr ⟨r, .item hp hs ht⟩
        | ok d' => exact .inl ⟨_, .notice hp hs hfree ht⟩

theorem next?_eq_ok_iff : m.next? includes = some (.ok m') ↔ Follows includes m m' := by
  refine ⟨fun h => ?_, Follows.next?_eq⟩
  obtain ⟨stack, d⟩ := m
  cases stack with
  | nil => cases h
  | cons f below =>
    rcases follows_or_stops f below d with ⟨m₁, h₁⟩ | ⟨r, hr⟩
    · rw [h₁.next?_eq] at h
      cases h
      exact h₁
    · rw [hr.next?_eq] at h
      cases h

theorem Follows.unique {a b : Moment} (ha : Follows includes m a) (hb : Follows includes m b) :
    a = b := by
  have h := ha.next?_eq.symm.trans hb.next?_eq
  cases h
  rfl

theorem Stops.unique {r' : Rejection} (h : Stops includes m r) (h' : Stops includes m r') :
    r = r' := by
  have h := h.next?_eq.symm.trans h'.next?_eq
  cases h
  rfl

theorem Stops.not_follows (h : Stops includes m r) : ¬Follows includes m m' := by
  intro h'
  have h := h.next?_eq.symm.trans h'.next?_eq
  cases h

/-! ## Runs -/

/-- The moments of a run from a root file on. -/
def Reachable (includes : Includes) (file text : String) (m : Moment) : Prop :=
  ReflTransGen (Follows includes) (start file text) m

/-- A moment leads to an outcome of the files on top of others: those are left with what was
declared, or a rejection comes first. -/
def Ends (includes : Includes) (below : List Frame) (m : Moment) :
    Except Rejection Declarations → Prop
  | .ok d => ReflTransGen (Follows includes) m ⟨below, d⟩
  | .error r => ∃ m', ReflTransGen (Follows includes) m m' ∧ Stops includes m' r

theorem Ends.head {below : List Frame} {outcome : Except Rejection Declarations}
    (h : Follows includes m m') (he : Ends includes below m' outcome) :
    Ends includes below m outcome := by
  cases outcome with
  | ok d => exact ReflTransGen.head h he
  | error r =>
    obtain ⟨m₁, hr, hs⟩ := he
    exact ⟨m₁, hr.head h, hs⟩

theorem Ends.bind {above below : List Frame} {outcome : Except Rejection Declarations}
    {rest : Declarations → Except Rejection Declarations} (h : Ends includes above m outcome)
    (hrest : ∀ d, Ends includes below ⟨above, d⟩ (rest d)) :
    Ends includes below m (outcome.bind rest) := by
  cases outcome with
  | error r => exact h
  | ok d =>
    have hd := hrest d
    change Ends includes below m (rest d)
    cases ho : rest d with
    | ok d' =>
      rw [ho] at hd
      exact ReflTransGen.trans h hd
    | error r =>
      rw [ho] at hd
      obtain ⟨m₁, hr, hs⟩ := hd
      exact ⟨m₁, ReflTransGen.trans h hr, hs⟩

theorem Ends.of_stops {below : List Frame} (h : Stops includes m r) :
    Ends includes below m (.error r) :=
  ⟨m, .refl, h⟩

end Moment

namespace Declarations

open Moment

/-- Visiting items that include no file takes them in first. -/
theorem visitItems_append {enter : String → Location → Declarations → Except Rejection Declarations}
    {f : Frame} {depth : Nat} {failure : Option Failure} {items : List Item}
    (hfree : Item.InclusionFree items) (rest : List Item) (d : Declarations) :
    gatherer.visitItems enter f.file depth failure (items ++ rest) d =
      (f.take depth items d).bind (gatherer.visitItems enter f.file depth failure rest) := by
  induction items generalizing d with
  | nil => rfl
  | cons item items ih =>
    have hrest : Item.InclusionFree items := fun path place hm =>
      hfree path place (List.mem_cons_of_mem _ hm)
    have hadd : gatherer.step = add := rfl
    rw [List.cons_append, Visitor.visitItems, Frame.take, List.foldlM_cons, hadd]
    cases d.add ⟨f.file, depth, item⟩ with
    | error r => rfl
    | ok d₁ =>
      cases item with
      | inclusion path place => exact absurd List.mem_cons_self (hfree path place)
      | _ => exact ih hrest d₁

theorem visitItems_inclusion
    {enter : String → Location → Declarations → Except Rejection Declarations} {file : String}
    {depth : Nat} {failure : Option Failure} (path : String) (place : Location)
    (rest : List Item) (d : Declarations) :
    gatherer.visitItems enter file depth failure (.inclusion path place :: rest) d =
      (enter path place d).bind (gatherer.visitItems enter file depth failure rest) := by
  have hadd : gatherer.step d ⟨file, depth, .inclusion path place⟩ = .ok d := rfl
  rw [Visitor.visitItems, hadd]
  dsimp only
  cases enter path place d <;> rfl

/-- What is left of a file leads to the outcome of visiting it, if entering a file does. -/
theorem ends_of_scan {includes : Includes} {below : List Frame} {file : String}
    {enter : String → Location → Declarations → Except Rejection Declarations}
    (hrefused : ∀ path place cause d, Refuses includes below.length path cause →
      enter path place d = .error ((Failure.at place cause).inFile file))
    (hfound : ∀ path place text f d, below.length < Expansion.depthLimit →
      includes.find path = .found text →
      Ends includes (f :: below) ⟨.opened path text :: f :: below, d⟩ (enter path place d))
    (text : String) (s : Scan) (d : Declarations) :
    Ends includes below ⟨⟨file, text, s⟩ :: below, d⟩
      (gatherer.visitItems enter file below.length (Outline.ofScan s).failure
        (Outline.ofScan s).items d) := by
  induction hn : s.cursor.rest.length using Nat.strongRecOn generalizing s d with
  | ind n ih =>
    subst hn
    cases hp : s.cursor.peek with
    | none =>
      rw [Outline.ofScan_of_end hp]
      cases hpending : s.pending with
      | nil => exact ReflTransGen.single (.leave hp hpending)
      | cons first rest => exact .of_stops (.unresolved hp (by simp [hpending, Scan.unresolved?]))
    | some b =>
      rcases hs : s.step b with ⟨items, failure | scan⟩
      · rw [Outline.ofScan_of_error hp hs]
        rw [← List.append_nil items, visitItems_append (f := ⟨file, text, s⟩)
          (Scan.inclusionFree_of_step hs)]
        cases ht : Frame.take ⟨file, text, s⟩ below.length items d with
        | error r => exact .of_stops (.item hp hs ht)
        | ok d' => exact .of_stops (.reading hp hs ht)
      · have hlt := (Scan.step_progress hp scan (by rw [hs])).rest_lt
        rw [Outline.ofScan_of_ok hp hs]
        rcases (Scan.notices_of_step hp hs).inclusion_or_free with ⟨path, rfl⟩ | hfree
        · change Ends _ _ _ (gatherer.visitItems enter file below.length _ (_ :: _) d)
          rw [visitItems_inclusion]
          rcases Frame.found_or_refuses includes below.length path with
            ⟨hdepth, text', hf⟩ | ⟨cause, hr⟩
          · exact .head (.enter hp hs hdepth hf) (.bind (hfound _ _ _ _ d hdepth hf) fun d' =>
              ih _ hlt scan d' rfl)
          · rw [hrefused _ _ _ d hr]
            exact .of_stops (.inclusion hp hs hr)
        · change Ends _ _ _ (gatherer.visitItems enter file below.length _ (items ++ _) d)
          rw [visitItems_append (f := ⟨file, text, s⟩) hfree]
          cases ht : Frame.take ⟨file, text, s⟩ below.length items d with
          | error r => exact .of_stops (.item hp hs ht)
          | ok d' => exact .head (.notice hp hs hfree ht) (ih _ hlt scan d' rfl)

/-- A file that is opened leads to the outcome of visiting it. -/
theorem ends_of_visitFile (includes : Includes) (levels : Nat) {below : List Frame}
    (hlevels : below.length + levels = Expansion.depthLimit) (file text : String)
    (d : Declarations) :
    Ends includes below ⟨.opened file text :: below, d⟩
      (gatherer.visitFile includes levels below.length file text d) := by
  induction levels generalizing below file text d with
  | zero =>
    refine ends_of_scan (fun path place cause d hr => ?_) (fun path place text f d hlt => ?_) ..
    · cases hr with
      | tooDeep => rfl
      | missing hlt | unreadable hlt => omega
    · omega
  | succ levels ih =>
    refine ends_of_scan (fun path place cause d hr => ?_) (fun path place text f d _ hf => ?_) ..
    · cases hr with
      | tooDeep => omega
      | missing _ hf | unreadable _ hf =>
        simp only [hf]
        rfl
    · simp only [hf]
      have hlength : (f :: below).length + levels = Expansion.depthLimit := by
        rw [List.length_cons]
        omega
      exact ih hlength path text d

end Declarations

namespace Moment

variable {includes : Includes} {file text : String}

theorem ends_ofRoot (includes : Includes) (file text : String) :
    Ends includes [] (start file text) (Declarations.ofRoot includes file text) :=
  Declarations.ends_of_visitFile includes Expansion.depthLimit (Nat.zero_add _) file text {}

/-- Of two moments of a run one leads to the other. -/
theorem Reachable.total {a b : Moment} (ha : Reachable includes file text a)
    (hb : Reachable includes file text b) :
    ReflTransGen (Follows includes) a b ∨ ReflTransGen (Follows includes) b a :=
  ReflTransGen.total_of_right_unique (fun _ _ _ => Follows.unique) ha hb

theorem eq_of_left {d : Declarations} {m : Moment}
    (h : ReflTransGen (Follows includes) ⟨[], d⟩ m) : m = ⟨[], d⟩ := by
  rcases ReflTransGen.cases_head h with h | ⟨_, h, _⟩
  · exact h.symm
  · cases h

theorem eq_of_stops {m m' : Moment} {r : Rejection} (hs : Stops includes m r)
    (h : ReflTransGen (Follows includes) m m') : m' = m := by
  rcases ReflTransGen.cases_head h with h | ⟨_, h, _⟩
  · exact h.symm
  · exact absurd h hs.not_follows

/-- Declarations are gathered exactly if all files are left. -/
theorem ofRoot_eq_ok_iff {d : Declarations} :
    Declarations.ofRoot includes file text = .ok d ↔ Reachable includes file text ⟨[], d⟩ := by
  have hends := ends_ofRoot includes file text
  constructor
  · intro h
    rwa [h] at hends
  · intro h
    cases ho : Declarations.ofRoot includes file text with
    | ok d' =>
      rw [ho] at hends
      rcases h.total hends with h | h
      · cases eq_of_left h
        rfl
      · cases eq_of_left h
        rfl
    | error r =>
      rw [ho] at hends
      obtain ⟨m, hm, hs⟩ := hends
      rcases h.total hm with h | h
      · cases eq_of_left h
        cases hs
      · cases eq_of_stops hs h
        cases hs

/-- Gathering is rejected exactly where a moment of the run is. -/
theorem ofRoot_eq_error_iff {r : Rejection} :
    Declarations.ofRoot includes file text = .error r ↔
      ∃ m, Reachable includes file text m ∧ Stops includes m r := by
  have hends := ends_ofRoot includes file text
  constructor
  · intro h
    rwa [h] at hends
  · rintro ⟨m, hm, hs⟩
    cases ho : Declarations.ofRoot includes file text with
    | ok d =>
      rw [ho] at hends
      rcases Reachable.total hm hends with h | h
      · cases eq_of_stops hs h
        cases hs
      · cases eq_of_left h
        cases hs
    | error r' =>
      rw [ho] at hends
      obtain ⟨m', hm', hs'⟩ := hends
      rcases Reachable.total hm hm' with h | h
      · cases eq_of_stops hs h
        rw [hs.unique hs']
      · cases eq_of_stops hs' h
        rw [hs.unique hs']

end Moment

end BindlessHlsl
