import BindlessHlsl.Proofs.Nesting
import BindlessHlsl.Proofs.ScanSteps

/-!
The scan of a text with its counts and offsets checked. Each reader that counts brackets or takes
text between two offsets has a checked twin, in which a count below zero and bytes outside of the
text have no outcome. The twins agree with the readers wherever a scan calls them
(`Scan.checkedStep_eq`), so a checked scan comes to the same outline, in at most one step for each
byte of the text (`Outline.checked_eq`).
-/

namespace BindlessHlsl

open Ascii

/-- Reading with its counts and offsets checked. There is no outcome where a count would fall below
zero or where bytes are asked for that the text does not have. -/
abbrev Checked (α : Type) := ExceptT Failure Option α

/-! ## Offsets -/

namespace Cursor

theorem pos_of_peek {c : Cursor} {b : UInt8} (h : c.peek = some b) :
    (c.advance 1).pos = c.pos + 1 := by
  have := List.length_pos_iff.2 (rest_ne_nil_of_peek h)
  rw [pos_advance]
  omega

theorem Reaches.pos_sub_le {c d : Cursor} : c.Reaches d → d.pos - c.pos ≤ c.rest.length := by
  rintro ⟨n, rfl⟩
  rw [pos_advance]
  omega

end Cursor

namespace Checked

variable {α β : Type}

/-- A reading that has nothing to check. -/
def ofReading (x : Reading α) : Checked α := ExceptT.mk (some x)

def fault : Checked α := ExceptT.mk none

/-- What holds of each part of a reading holds of the whole. -/
theorem bind_ofReading {x : Reading α} {g : α → Checked β} {f : α → Reading β}
    (h : ∀ a, x = .ok a → g a = ofReading (f a)) : (ofReading x >>= g) = ofReading (x >>= f) := by
  cases x with
  | error => rfl
  | ok a => exact h a rfl

theorem ok_bind (a : α) (g : α → Checked β) : (ofReading (.ok a) >>= g) = g a := rfl

/-- Past the byte that closes what opens here. -/
def close (n : Nesting) (what : Expectation) (c : Cursor) : Checked Cursor :=
  ExceptT.mk ((n.close 0 c).outcome Cursor.past (Cursor.unfound what))

def difference (m n : Nat) : Checked Nat := if n ≤ m then pure (m - n) else fault

/-- The text of the next bytes, all of which are there. -/
def upcoming (c : Cursor) (n : Nat) : Checked String :=
  if n ≤ c.rest.length then pure (c.upcoming n) else fault

def textUntil (c later : Cursor) : Checked String := do
  let n ← difference later.pos c.pos
  upcoming c n

theorem close_eq {n : Nesting} {what : Expectation} {reader : Nat → Cursor → Reading Cursor}
    {c : Cursor} (h : n.Follows reader Cursor.past (Cursor.unfound what)) (hs : n.skips c = none)
    (hp : c.peek = some n.opening) : close n what c = ofReading (reader 0 c) :=
  h.outcome_close_of_opening hs hp

/-- What a search from an opening byte passes lies between the two brackets. -/
theorem exists_of_close {n : Nesting} {what : Expectation} {c next : Cursor}
    (hs : n.skips c = none) (hp : c.peek = some n.opening)
    (h : close n what c = ofReading (.ok next)) :
    ∃ d, (c.advance 1).Reaches d ∧ next.pos = d.pos + 1 := by
  rw [close, Nesting.close_of_opening hs hp] at h
  cases hd : n.close 1 (c.advance 1) with
  | closed d =>
    rw [hd] at h
    cases h
    exact ⟨d, Nesting.reaches_of_close hd, Cursor.pos_of_peek (Nesting.peek_of_close hd)⟩
  | unclosed | underflow =>
    rw [hd] at h
    cases h

theorem difference_eq {m n : Nat} (h : n ≤ m) : difference m n = ofReading (.ok (m - n)) :=
  if_pos h

theorem upcoming_eq {c : Cursor} {n : Nat} (h : n ≤ c.rest.length) :
    upcoming c n = ofReading (.ok (c.upcoming n)) :=
  if_pos h

theorem textUntil_eq {c later : Cursor} (h : c.Reaches later) :
    textUntil c later = ofReading (.ok (c.textUntil later)) := by
  rw [textUntil, difference_eq h.pos_le]
  exact upcoming_eq h.pos_sub_le

end Checked

/-! ## Structs -/

namespace Struct

open Checked

def checkedGeneric (typeName : String) (c : Cursor) : Checked (MemberType × Cursor) := do
  let next ← close .angles .closingAngle c
  if typeName = "matrix" then
    let stop ← difference next.pos 1
    let n ← difference stop (c.pos + 1)
    let arguments ← upcoming (c.advance 1) n
    match matrixType? arguments with
    | some type => return (type, next)
    | none => throw (.at next.location (.invalidValue "matrix" ("<" ++ arguments ++ ">")))
  else return (.unknownStruct, next)

def checkedType (c : Cursor) : Checked (MemberType × Cursor) := do
  let (typeName, next) ← ofReading (readTypeName c)
  let next := next.skipTrivia
  if next.peek = some less then checkedGeneric typeName next
  else return ((MemberType.ofWord? typeName).getD .unknownStruct, next)

def checkedFunction (c : Cursor) : Checked Cursor := do
  let next ← close .parens .closingParen c
  let next := next.skipTrivia
  match next.eat? semicolon with
  | some next => return next
  | none =>
    if next.peek = some openBrace then close .braces .memberFunctionEnd next
    else throw (next.failure .memberFunctionBody)

def checkedData (start : Cursor) (type : MemberType) (name : String) (c : Cursor) :
    Checked (Member × Cursor) := do
  let (arrayLength, next) ← ofReading (readArrayLength name c)
  let stop ← ofReading (findSemicolon next)
  let text ← textUntil start stop
  let declaration := String.ofList (trimRight text.toList)
  return (⟨type, arrayLength, name, declaration⟩, stop.advance 1)

def checkedMember (c : Cursor) : Checked (Option Member × Cursor) := do
  let (type, next) ← checkedType c
  let (name, next) ← ofReading (next.skipTrivia.expectIdentifier .memberName)
  let next := next.skipTrivia
  if next.peek = some openParen then
    let next ← checkedFunction next
    return (none, next)
  else
    let (member, next) ← checkedData c type name next
    return (some member, next)

theorem checkedGeneric_eq (typeName : String) {c : Cursor} (hp : c.peek = some less) :
    checkedGeneric typeName c = ofReading (readGeneric typeName c) := by
  have hclose := close_eq follows_closeAngles rfl hp
  rw [checkedGeneric, hclose]
  apply bind_ofReading
  intro next hnext
  rw [hnext] at hclose
  -- The closing bracket lies behind the opening one, so that neither difference is cut off.
  obtain ⟨d, hd, hpos⟩ := exists_of_close rfl hp hclose
  have hopen := Cursor.pos_of_peek hp
  have hle := hd.pos_le
  have hrest := hd.pos_sub_le
  have hlength : next.pos - 1 - (c.pos + 1) = next.pos - c.pos - 2 := by omega
  by_cases hmatrix : typeName = "matrix"
  · rw [if_pos hmatrix, if_pos hmatrix, difference_eq (by omega), ok_bind,
      difference_eq (by omega), ok_bind, upcoming_eq (by omega), ok_bind, hlength]
    dsimp only
    cases matrixType? ((c.advance 1).upcoming (next.pos - c.pos - 2)) <;> rfl
  · rw [if_neg hmatrix, if_neg hmatrix]
    rfl

theorem checkedType_eq (c : Cursor) : checkedType c = ofReading (readType c) := by
  apply bind_ofReading
  intro (typeName, next) _
  by_cases hp : next.skipTrivia.peek = some less
  · simp only [if_pos hp]
    exact checkedGeneric_eq typeName hp
  · simp only [if_neg hp]
    rfl

theorem checkedFunction_eq {c : Cursor} (hp : c.peek = some openParen) :
    checkedFunction c = ofReading (skipFunction c) := by
  rw [checkedFunction, close_eq follows_closeParens rfl hp]
  apply bind_ofReading
  intro next _
  dsimp only
  cases next.skipTrivia.eat? semicolon with
  | some after => rfl
  | none =>
    by_cases hbody : next.skipTrivia.peek = some openBrace
    · simp only [if_pos hbody]
      apply close_eq follows_closeBraces
      · rw [Nesting.skips_braces, if_neg (Cursor.not_atComment_of_peek hbody (by decide))]
      · exact hbody
    · simp only [if_neg hbody]
      rfl

theorem checkedData_eq {start c : Cursor} (h : start.Reaches c) (type : MemberType)
    (name : String) :
    checkedData start type name c = ofReading (readData start type name c) := by
  apply bind_ofReading
  intro (arrayLength, next) hlength
  apply bind_ofReading
  intro stop hstop
  have hreaches := (h.trans (reaches_of_readArrayLength hlength)).trans
    (reaches_of_findSemicolon hstop)
  rw [textUntil_eq hreaches]
  rfl

theorem checkedMember_eq (c : Cursor) : checkedMember c = ofReading (readMember c) := by
  rw [checkedMember, checkedType_eq]
  apply bind_ofReading
  intro (type, afterType) htype
  apply bind_ofReading
  intro (name, afterName) hname
  have hreaches : c.Reaches afterName.skipTrivia :=
    (((passes_of_readType htype).reaches.trans afterType.reaches_skipTrivia).trans
      (Cursor.passes_of_expectIdentifier hname).reaches).trans afterName.reaches_skipTrivia
  by_cases hp : afterName.skipTrivia.peek = some openParen
  · simp only [if_pos hp, checkedFunction_eq hp]
    exact bind_ofReading fun _ _ => rfl
  · simp only [if_neg hp, checkedData_eq hreaches]
    exact bind_ofReading fun _ _ => rfl

def checkedMembers (read : List Member) (c : Cursor) : Checked (List Member × Cursor) :=
  match c.skipTrivia.peek with
  | none => throw (c.skipTrivia.failure .structEnd)
  | some b =>
    if b = closeBrace then return (read.reverse, c.skipTrivia.advance 1)
    else
      match h : checkedMember c.skipTrivia with
      | none => fault
      | some (.error failure) => throw failure
      | some (.ok (member, next)) =>
        have hm : readMember c.skipTrivia = .ok (member, next) :=
          Option.some.inj ((checkedMember_eq _).symm.trans h)
        have := (c.reaches_skipTrivia.passes (passes_of_readMember hm)).rest_lt
        checkedMembers (member.toList ++ read) next
termination_by c.rest.length

theorem checkedMembers_of_peek {read : List Member} {c : Cursor} {b : UInt8}
    (hp : c.skipTrivia.peek = some b) (hb : ¬b = closeBrace) :
    checkedMembers read c = checkedMember c.skipTrivia >>= fun (member, next) =>
      checkedMembers (member.toList ++ read) next := by
  rw [checkedMembers, hp]
  simp only [if_neg hb]
  split
  next h =>
    rw [h]
    rfl
  next h =>
    rw [h]
    rfl
  next h =>
    rw [h]
    rfl

theorem checkedMembers_eq (read : List Member) (c : Cursor) :
    checkedMembers read c = ofReading (readMembers read c) := by
  fun_induction readMembers read c with
  | case1 read c hp | case2 read c hp =>
    rw [checkedMembers, hp]
    rfl
  | case3 read c b hp hb failure hm =>
    rw [checkedMembers_of_peek hp hb, checkedMember_eq, hm]
    rfl
  | case4 read c b hp hb member next hm _ ih =>
    rw [checkedMembers_of_peek hp hb, checkedMember_eq, hm]
    exact ih

def checkedRead (c : Cursor) : Checked (Option Definition × Cursor) :=
  let (name, next) := c.skipTrivia.identifier
  match next.skipTrivia.eat? openBrace with
  | none => return (none, next.skipTrivia)
  | some next => do
    let (members, next) ← checkedMembers [] next
    return (some ⟨name, members⟩, skipSemicolon next)

theorem checkedRead_eq (c : Cursor) : checkedRead c = ofReading (read c) := by
  rw [checkedRead, read]
  dsimp only
  cases c.skipTrivia.identifier.2.skipTrivia.eat? openBrace with
  | none => rfl
  | some next =>
    simp only [checkedMembers_eq]
    exact bind_ofReading fun _ _ => rfl

end Struct

/-! ## Functions -/

def Function.checkedBodyStart (name afterName : Cursor) : Option (Option Cursor) :=
  if followsWord name then
    match afterName.skipTrivia.eat? openParen with
    | none => some none
    | some c => do
      let after ← (Nesting.parameters.close 1 c).outcome (fun c => some (c.advance 1)) fun _ => none
      return do
        let c ← after
        let c := skipSemantic c.skipTrivia
        if c.peek = some openBrace then some c else none
  else some none

theorem Function.checkedBodyStart_eq (name afterName : Cursor) :
    checkedBodyStart name afterName = some (bodyStart? name afterName) := by
  rw [checkedBodyStart, bodyStart?]
  by_cases hword : followsWord name = true
  · simp only [if_pos hword]
    cases afterName.skipTrivia.eat? openParen with
    | none => rfl
    | some c =>
      dsimp only
      rw [follows_closeParameters.outcome_close Nat.one_pos]
      rfl
  · simp only [if_neg hword]

/-! ## Steps -/

namespace Scan

def checkedStruct (s : Scan) (c : Cursor) : Option Step :=
  (Struct.checkedRead c).run.map fun
    | .error failure => ⟨[], .error failure⟩
    | .ok (none, next) => ⟨[], .ok (s.moved next false)⟩
    | .ok (some definition, next) =>
      ⟨[.struct definition s.cursor.location (s.cursor.rangeUntil next)], .ok (s.moved next true)⟩

def checkedFunction (s : Scan) (name : String) (c : Cursor) : Option Step :=
  let start := c.advance 1
  ((Nesting.body.close 1 start).outcome some fun _ => none).map fun
    | none =>
      ⟨[.functionStart name s.pending],
        .error (.at s.cursor.location (.unexpectedEnd .functionEnd))⟩
    | some stop =>
      ⟨[.functionStart name s.pending, .function name (start.rangeUntil stop)],
        .ok (declared (stop.advance 1))⟩

def checkedWord (s : Scan) : Option Step :=
  let (word, next) := s.cursor.identifier
  match Keyword.ofWord? word with
  | some kind => some (s.resource kind next)
  | none =>
    if word = "SamplerState" then some (s.sampler next)
    else if word = "struct" then s.checkedStruct next
    else
      (Function.checkedBodyStart s.cursor next).bind fun
        | some body => s.checkedFunction word body
        | none => some ⟨[], .ok (s.moved next false)⟩

/-- One step of the scan. Only at a word there is something to check. -/
def checkedStep (s : Scan) (b : UInt8) : Option Step :=
  if ¬s.cursor.atComment = true ∧ isIdentifierStart b = true then s.checkedWord
  else some (s.step b)

theorem checkedStruct_eq (s : Scan) (c : Cursor) : s.checkedStruct c = some (s.struct c) := by
  rw [checkedStruct, Struct.checkedRead_eq, struct]
  rcases Struct.read c with failure | ⟨definition | definition, next⟩ <;> rfl

theorem checkedFunction_eq (s : Scan) (name : String) (c : Cursor) :
    s.checkedFunction name c = some (s.function name c) := by
  rw [checkedFunction, Function.follows_closeBody.outcome_close Nat.one_pos, function]
  cases Function.closeBody 1 (c.advance 1) <;> rfl

theorem checkedWord_eq (s : Scan) : s.checkedWord = some s.word := by
  simp only [checkedWord, word, checkedStruct_eq, Function.checkedBodyStart_eq, checkedFunction_eq]
  cases (Keyword.ofWord? s.cursor.identifier.1 : Option ResourceKind) with
  | some kind => rfl
  | none =>
    dsimp only
    split
    · rfl
    · split
      · rfl
      · cases Function.bodyStart? s.cursor s.cursor.identifier.2 <;> rfl

theorem step_of_start {s : Scan} {b : UInt8} (hc : ¬s.cursor.atComment = true)
    (hb : isIdentifierStart b = true) : s.step b = s.word := by
  have hne : ∀ d, isIdentifierStart d = false → b ≠ d := by
    intro d hd h
    rw [h, hd] at hb
    cases hb
  rw [step, if_neg hc, if_neg (hne doubleQuote rfl), if_neg (hne hash rfl),
    if_neg fun h => hne openBracket rfl h.1, if_pos hb]

theorem checkedStep_eq (s : Scan) (b : UInt8) : s.checkedStep b = some (s.step b) := by
  by_cases h : ¬s.cursor.atComment = true ∧ isIdentifierStart b = true
  · rw [checkedStep, if_pos h, checkedWord_eq, step_of_start h.1 h.2]
  · rw [checkedStep, if_neg h]

end Scan

/-! ## Whole scans -/

namespace Outline

/-- The outline of what a scan has in front of it, found in a limited number of steps. -/
def checked (steps : Nat) (s : Scan) : Option Outline :=
  match s.cursor.peek, steps with
  | none, _ => some ⟨[], Scan.unresolved? s.pending⟩
  | some _, 0 => none
  | some b, steps + 1 => (s.checkedStep b).bind fun
    | ⟨items, .error failure⟩ => some ⟨items, some failure⟩
    | ⟨items, .ok next⟩ => (checked steps next).map fun o => o.after items

theorem checked_of_peek {steps : Nat} {s : Scan} {b : UInt8} (hp : s.cursor.peek = some b)
    (h : s.cursor.rest.length ≤ steps) :
    ∃ below, s.cursor.rest.length ≤ below + 1 ∧ checked steps s =
      match s.step b with
      | ⟨items, .error failure⟩ => some ⟨items, some failure⟩
      | ⟨items, .ok next⟩ => (checked below next).map fun o => o.after items := by
  have hpos := List.length_pos_iff.2 (Cursor.rest_ne_nil_of_peek hp)
  obtain ⟨below, rfl⟩ : ∃ below, steps = below + 1 := Nat.exists_eq_add_one.2 (by omega)
  refine ⟨below, h, ?_⟩
  rw [checked.eq_def]
  simp only [hp, Scan.checkedStep_eq, Option.bind_some]

/-- A scan takes at most as many steps as there are bytes in front of it. -/
theorem checked_eq {steps : Nat} {s : Scan} (h : s.cursor.rest.length ≤ steps) :
    checked steps s = some (ofScan s) := by
  fun_induction ofScan s generalizing steps with
  | case1 s hp => simp only [checked, hp]
  | case2 s b hp items failure hs =>
    obtain ⟨below, _, hchecked⟩ := checked_of_peek hp h
    rw [hchecked, hs]
  | case3 s b hp next hs hlt _ ih =>
    obtain ⟨below, hbelow, hchecked⟩ := checked_of_peek hp h
    rw [hchecked, hs]
    dsimp only
    rw [ih (by omega)]
    rfl
  | case4 s b hp next items hs hlt _ _ ih =>
    obtain ⟨below, hbelow, hchecked⟩ := checked_of_peek hp h
    rw [hchecked, hs]
    dsimp only
    rw [ih (by omega)]
    rfl

end Outline

end BindlessHlsl
