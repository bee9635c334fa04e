import BindlessHlsl.Cursor.Operation
import BindlessHlsl.Proofs.Blanks
import BindlessHlsl.Proofs.FailurePlaces
import BindlessHlsl.Proofs.StructTexts

/-!
What holds of a cursor in whatever way it is moved through a text (`Cursor.TracksText`). It goes
forward and stays in the text, it is at the line and column that its offset has in the text, and a
text that it reads is spelled by the bytes that it passes, quotes apart. The first two hold since
every operation comes to the place that `Cursor.advance` comes to, which looks at each byte on the
way. One move does not look: `Cursor.skipComment`, and with it `Cursor.skipTrivia`, jumps over the
mark that opens a block comment. There is no newline in that mark, so the line stays right
(`Cursor.jump_eq_advance`). The third one holds since a text that is read is either all ASCII or
stands between two ASCII bytes, so that it never cuts a character apart, also where the cursor
itself stands inside of one.
-/

namespace BindlessHlsl

open Ascii Utf8

/-! ## Lines -/

/-- The line of an offset begins at `start`: a newline stands in front of it unless it is the start
of the text, and there is none from there to the offset. -/
structure BeginsLine (text : List UInt8) (offset start : Nat) : Prop where
  le : start ≤ offset
  getElem?_before : ∀ place, start = place + 1 → text[place]? = some newline
  getElem?_ne : ∀ place, start ≤ place → place < offset → text[place]? ≠ some newline

theorem beginsLine_append {front line : List UInt8} (back : List UInt8)
    (hf : ∀ b, front.getLast? = some b → b = newline) (hl : newline ∉ line) :
    BeginsLine (front ++ (line ++ back)) (front.length + line.length) front.length where
  le := Nat.le_add_right ..
  getElem?_before place hplace := by
    have hlast : front.getLast? = front[place]? := by
      rw [List.getLast?_eq_getElem?, hplace, Nat.add_sub_cancel]
    obtain ⟨b, hb⟩ : ∃ b, front[place]? = some b := ⟨_, List.getElem?_eq_getElem (by omega)⟩
    rw [List.getElem?_append_left (by omega), hb, hf b (hlast.trans hb)]
  getElem?_ne place hle hlt hnewline := by
    rw [List.getElem?_append_right hle, List.getElem?_append_left (by omega)] at hnewline
    exact hl (List.mem_of_getElem? hnewline)

/-- A location measures an offset: its line counts the newlines in front of the offset, its column
the distance from the start of the line, both from one on. -/
structure Location.Measures (text : List UInt8) (offset : Nat) (place : Location) : Prop where
  line_eq : place.line = 1 + (text.take offset).count newline
  column_eq : ∃ start, BeginsLine text offset start ∧ place.column = 1 + (offset - start)

/-- Backwards from its end, the last line of a text goes up to the first newline. -/
theorem exists_last_line (bytes : List UInt8) : ∃ front line, bytes = front ++ line ∧
    (∀ b, front.getLast? = some b → b = newline) ∧ newline ∉ line ∧
      line.length = (bytes.reverse.takeWhile (· != newline)).length := by
  refine ⟨(bytes.reverse.dropWhile (· != newline)).reverse,
    (bytes.reverse.takeWhile (· != newline)).reverse, ?_, fun b hb => ?_, fun hm => ?_,
    List.length_reverse ..⟩
  · rw [← List.reverse_append, List.takeWhile_append_dropWhile, List.reverse_reverse]
  · rw [List.getLast?_reverse] at hb
    simpa [hb] using List.head?_dropWhile_not (· != newline) bytes.reverse
  · simpa using List.all_eq_true.1 List.all_takeWhile _ (List.mem_reverse.1 hm)

theorem Location.measures_ofOffset {source : String} {offset : Nat} (h : offset ≤ length source) :
    (ofOffset source offset).Measures (encode source) offset := by
  constructor
  · rw [ofOffset, behind, List.count_reverse, Nat.add_comm]
  · obtain ⟨front, line, hsplit, hfront, hline, hcolumn⟩ :=
      exists_last_line ((encode source).take offset)
    have hlength : offset = front.length + line.length := by
      rw [← List.length_append, ← hsplit, List.length_take, length_encode, Nat.min_eq_left h]
    refine ⟨front.length, ?_, ?_⟩
    · have hbegins := beginsLine_append ((encode source).drop offset) hfront hline
      rwa [← List.append_assoc, ← hsplit, List.take_append_drop, ← hlength] at hbegins
    · have hdistance : offset - front.length = line.length := by omega
      rw [hdistance, hcolumn, Nat.add_comm]
      rfl

namespace Cursor

variable {source value : String} {c d : Cursor} {op : Operation} {answer : Answer}

/-! ## Texts that are read -/

theorem isAscii_of_isValueByte {b : UInt8} (h : isValueByte b = true) : isAscii b = true := by
  simp only [isValueByte, Bool.or_eq_true, beq_iff_eq] at h
  rcases h with ((h | rfl) | rfl) | rfl
  · exact isAscii_of_isIdentifierContinue h
  all_goals rfl

theorem spells_valueToken (c : Cursor) : c.Spells (encode c.valueToken.1) c.valueToken.2 := by
  have hbytes : encode c.valueToken.1 = c.rest.takeWhile isValueByte := by
    rw [valueToken, upcoming, take_length_takeWhile]
    exact encode_decode_of_ascii fun b hb =>
      isAscii_of_isValueByte (List.all_eq_true.1 List.all_takeWhile b hb)
  rw [hbytes]
  constructor
  · rw [valueToken, rest_advance, drop_length_takeWhile, List.takeWhile_append_dropWhile]
  · rfl

/-- A quote of either kind starts here. -/
def AtQuote (c : Cursor) : Prop := c.peek = some doubleQuote ∨ c.peek = some singleQuote

theorem quoted_of_not_atQuote (h : ¬c.AtQuote) : c.quoted = (.missing, c) := by
  unfold quoted
  split
  · rfl
  next q rest hr =>
    rw [AtQuote, peek, hr] at h
    exact if_neg (by simpa using h)

/-- The bytes between two quotes are a text, as neither quote is part of a longer character. -/
theorem Within.encode_decode_of_spells {inner outer : Cursor} {quote : UInt8} {body : List UInt8}
    (hc : Within (encode source) c) (hquote : isAscii quote = true) (hopen : c.Spells [quote] inner)
    (hbody : inner.Spells body outer) (hclose : outer.peek = some quote) :
    encode (decode body) = body := by
  have hinner : inner.OnBoundary := by
    rw [hopen.advance_eq]
    exact onBoundary_advance_of_peek hopen.peek_eq hquote
  have htext := (hc.reaches ⟨_, hopen.advance_eq⟩).encode_textUntil ⟨_, hbody.advance_eq⟩ hinner
    (onBoundary_of_peek hclose hquote)
  rwa [textUntil, upcoming, hbody.pos_add, Nat.add_sub_cancel_left, hbody.rest_eq,
    List.take_left] at htext

theorem spells_of_quoted (hc : Within (encode source) c) (h : c.quoted = (.text value, d)) :
    ∃ quote, (quote = doubleQuote ∨ quote = singleQuote) ∧
      c.Spells (quote :: (encode value ++ [quote])) d := by
  unfold quoted at h
  split at h
  · cases h
  next quote rest hr =>
    split at h
    next hquote =>
      dsimp only at h
      split at h
      next hclose =>
        generalize hb : (rest.takeWhile fun b => b != quote && b != newline) = body at h hclose
        have hrest := Lexeme.eq_of_closed hb hclose
        obtain ⟨inner, hopen, hinner⟩ := exists_spells [quote] (hr.trans rfl)
        obtain ⟨outer, hbody, houter⟩ := exists_spells body (hinner.trans hrest)
        have hascii : isAscii quote = true := by rcases hquote with rfl | rfl <;> rfl
        have hpeek : outer.peek = some quote := by rw [peek, houter]; rfl
        cases h
        refine ⟨quote, hquote, ?_⟩
        rw [hc.encode_decode_of_spells hascii hopen hbody hpeek]
        constructor
        · rw [rest_advance, hr, List.drop_succ_cons]
          conv => lhs; rw [hrest]
          simp
        · simp
      next => cases h
    next => cases h

theorem quoted_ne_missing (h : c.AtQuote) : c.quoted.1 ≠ .missing := by
  unfold quoted
  split
  next hr =>
    rw [AtQuote, peek, hr] at h
    simp at h
  next q rest hr =>
    rw [AtQuote, peek, hr] at h
    rw [if_pos (by simpa using h)]
    dsimp only
    split <;> nofun

theorem value_of_atQuote (h : c.AtQuote) : c.value = c.quoted := by
  have hne := quoted_ne_missing h
  unfold value
  split
  next hq =>
    rw [hq] at hne
    exact absurd rfl hne
  next => rfl

theorem value_of_not_atQuote (h : ¬c.AtQuote) : c.value =
    if c.valueToken.1 = "" then (.missing, c.valueToken.2)
    else (.text c.valueToken.1, c.valueToken.2) := by
  rw [value, quoted_of_not_atQuote h]
  dsimp only
  split
  next he => rw [he, if_pos rfl]
  next hne he => rw [he, if_neg hne]

theorem spells_of_value (h : ¬c.AtQuote) (hv : c.value = (.text value, d)) :
    c.Spells (encode value) d := by
  rw [value_of_not_atQuote h] at hv
  split at hv
  · cases hv
  · cases hv
    exact c.spells_valueToken

theorem eq_of_quoted_missing (h : c.quoted = (.missing, d)) : d = c := by
  by_cases hq : c.AtQuote
  · exact absurd (congrArg Prod.fst h) (quoted_ne_missing hq)
  · rw [quoted_of_not_atQuote hq] at h
    exact (Prod.mk.inj h).2.symm

/-- No value is told to be missing after bytes were passed: the bytes that are passed are told. -/
theorem eq_of_value_missing (h : c.value = (.missing, d)) : d = c := by
  by_cases hq : c.AtQuote
  · rw [value_of_atQuote hq] at h
    exact eq_of_quoted_missing h
  · rw [value_of_not_atQuote hq] at h
    split at h
    next he =>
      cases h
      have hspells := c.spells_valueToken
      rw [he] at hspells
      exact hspells.advance_eq
    next => cases h

/-- Slicing a text at the bytes of a part gives the part. -/
theorem Within.slice_eq {start stop : Nat} (hc : Within (encode source) c) (hle : start ≤ stop)
    (hstop : stop ≤ length source)
    (h : ByteRange.slice ⟨start, stop⟩ (encode source) = encode value) :
    c.slice start stop = value := by
  have hlength : c.textLength = length source := hc.pos_add_rest
  rw [slice, if_pos ⟨hle, hlength ▸ hstop⟩, hc.bytes_eq, h, decode_encode]

/-! ## Steps -/

theorem reaches_bump (c : Cursor) : c.Reaches c.bump := by
  cases hr : c.rest with
  | nil =>
    rw [bump, hr]
    exact .refl c
  | cons b rest => exact ⟨1, (advance_succ (by simp [hr]) 0).symm⟩

theorem Operation.reaches_of_perform? (h : op.perform? c = some (answer, d)) : c.Reaches d := by
  cases op with
  | peekAt distance =>
    obtain ⟨b, -, he⟩ := Option.map_eq_some_iff.1 h
    cases he
    exact .refl c
  | bump =>
    cases h
    exact reaches_bump c
  | eat b =>
    cases he : c.eat? b with
    | none =>
      rw [perform?, he] at h
      cases h
      exact .refl c
    | some next =>
      rw [perform?, he] at h
      cases h
      exact (passes_of_eat? he).reaches
  | quoted =>
    cases h
    exact reaches_quoted c
  | value =>
    cases h
    exact reaches_value c
  | skipTrivia =>
    cases h
    exact reaches_skipTrivia c
  | skipComment =>
    cases h
    exact reaches_skipComment c
  | advanceTo | skipInline | skipBlank | skipLine | skipString | identifier | valueToken =>
    cases h
    exact reaches_advance ..
  | _ =>
    cases h
    exact .refl c

theorem Operation.perform?_eq_none_iff :
    op.perform? c = none ↔ ∃ distance, op = .peekAt distance ∧ Offset.bound ≤ c.pos + distance := by
  cases op with
  | peekAt distance =>
    rw [perform?, Option.map_eq_none_iff, peekAt?, Option.map_eq_none_iff, Offset.add?,
      Offset.ofNat?_eq_none_iff]
    simp
  | eat b =>
    cases he : c.eat? b <;> simp [perform?, he]
  | _ => simp [perform?]

/-! ## What is told -/

namespace Turn

variable {t : Turn}

/-- The text is spelled by the bytes that were passed, and slicing the text there gives it. -/
structure TellsPassed (source : String) (t : Turn) (value : String) : Prop where
  passed_eq : (t.start.rangeUntil t.stop).slice (encode source) = encode value
  slice_eq : t.stop.slice t.start.pos t.stop.pos = value

/-- The same for the bytes between two quotes, which were passed as well. -/
structure TellsQuoted (source : String) (t : Turn) (value : String) : Prop where
  passed_eq : ∃ quote, (quote = doubleQuote ∨ quote = singleQuote) ∧
    (t.start.rangeUntil t.stop).slice (encode source) = quote :: (encode value ++ [quote])
  slice_eq : t.stop.slice (t.start.pos + 1) (t.stop.pos - 1) = value

/-- A reading tells what it passes, and passes nothing if it tells that nothing is there. -/
structure Tells (source : String) (t : Turn) : Prop where
  bare : t.operation = .identifier ∨ t.operation = .valueToken →
    ∃ value, t.answer = .text value ∧ t.TellsPassed source value
  quoted : t.operation = .quoted → ∀ value, t.answer = .quoted (.text value) →
    t.TellsQuoted source value
  value : t.operation = .value → ∀ value, t.answer = .quoted (.text value) →
    (t.start.AtQuote → t.TellsQuoted source value) ∧
      (¬t.start.AtQuote → t.TellsPassed source value)
  missing : t.answer = .quoted .missing → t.stop = t.start

theorem tellsPassed_of_spells (hc : Within (encode source) t.start)
    (h : t.start.Spells (encode value) t.stop) : t.TellsPassed source value where
  passed_eq := h.slice_eq hc
  slice_eq := by
    have hreaches : t.start.Reaches t.stop := ⟨_, h.advance_eq⟩
    have hstop := hc.reaches hreaches
    exact hstop.slice_eq hreaches.pos_le hstop.pos_le (h.slice_eq hc)

theorem tellsQuoted_of_quoted (hc : Within (encode source) t.start)
    (h : t.start.quoted = (.text value, t.stop)) : t.TellsQuoted source value := by
  obtain ⟨quote, hquote, hspells⟩ := spells_of_quoted hc h
  obtain ⟨inner, hopen, hrest⟩ := spells_cons.1 hspells
  obtain ⟨outer, htext, hclose⟩ := spells_append.1 hrest
  refine ⟨⟨quote, hquote, hspells.slice_eq hc⟩, ?_⟩
  have hinner := hc.reaches ⟨_, hopen.advance_eq⟩
  have houter := hinner.reaches ⟨_, htext.advance_eq⟩
  have hstop := houter.reaches ⟨_, hclose.advance_eq⟩
  have hfirst : t.start.pos + 1 = inner.pos := hopen.pos_add.symm
  have hlast : t.stop.pos - 1 = outer.pos := by rw [hclose.pos_add]; rfl
  rw [hfirst, hlast]
  exact hstop.slice_eq (Reaches.pos_le ⟨_, htext.advance_eq⟩) houter.pos_le (htext.slice_eq hinner)

theorem eq_of_quoted {r : Quoted × Cursor} {q : Quoted}
    (h : some (Answer.quoted r.1, r.2) = some (t.answer, t.stop)) (ha : t.answer = .quoted q) :
    r = (q, t.stop) := by
  rw [ha] at h
  obtain ⟨hanswer, hstop⟩ := Prod.mk.inj (Option.some.inj h)
  exact Prod.ext (Answer.quoted.inj hanswer) hstop

theorem stop_eq_of_missing (h : t.operation.perform? t.start = some (t.answer, t.stop))
    (hm : t.answer = .quoted .missing) : t.stop = t.start := by
  cases hop : t.operation with
  | quoted =>
    rw [hop] at h
    exact eq_of_quoted_missing (eq_of_quoted h hm)
  | value =>
    rw [hop] at h
    exact eq_of_value_missing (eq_of_quoted h hm)
  | eat b => cases he : t.start.eat? b <;> simp [hop, Operation.perform?, he, hm] at h
  | _ => simp [hop, Operation.perform?, hm] at h

theorem tells_of_perform? (hc : Within (encode source) t.start)
    (h : t.operation.perform? t.start = some (t.answer, t.stop)) : t.Tells source where
  bare hop := by
    rcases hop with hop | hop
    all_goals
      rw [hop, Operation.perform?] at h
      obtain ⟨hanswer, hstop⟩ := Prod.mk.inj (Option.some.inj h)
    · exact ⟨_, hanswer.symm, tellsPassed_of_spells hc (hstop ▸ t.start.spells_identifier)⟩
    · exact ⟨_, hanswer.symm, tellsPassed_of_spells hc (hstop ▸ t.start.spells_valueToken)⟩
  quoted hop value ha := by
    rw [hop] at h
    exact tellsQuoted_of_quoted hc (eq_of_quoted h ha)
  value hop value ha := by
    rw [hop] at h
    have hvalue : t.start.value = (.text value, t.stop) := eq_of_quoted h ha
    refine ⟨fun hq => ?_, fun hq => tellsPassed_of_spells hc (spells_of_value hq hvalue)⟩
    exact tellsQuoted_of_quoted hc ((value_of_atQuote hq).symm.trans hvalue)
  missing := stop_eq_of_missing h

end Turn

/-! ## Runs -/

variable {ops : List Operation} {t : Turn}

theorem mem_run (h : t ∈ c.run ops) :
    c.Reaches t.start ∧ t.operation.perform? t.start = some (t.answer, t.stop) := by
  induction ops generalizing c with
  | nil => cases h
  | cons op ops ih =>
    cases hp : op.perform? c with
    | none =>
      rw [run, hp] at h
      cases h
    | some result =>
      rw [run, hp] at h
      rcases List.mem_cons.1 h with rfl | h
      · exact ⟨.refl c, hp⟩
      · exact (ih h).imp (Operation.reaches_of_perform? hp).trans id

/-- The cursors of a run, from the first one on. -/
def cursors (c : Cursor) (turns : List Turn) : List Cursor := c :: turns.map (·.stop)

theorem reaches_of_mem_cursors (h : d ∈ c.cursors (c.run ops)) : c.Reaches d := by
  rcases List.mem_cons.1 h with rfl | h
  · exact .refl d
  · obtain ⟨t, ht, rfl⟩ := List.mem_map.1 h
    exact (mem_run ht).1.trans (Operation.reaches_of_perform? (mem_run ht).2)

theorem pairwise_cursors (c : Cursor) (ops : List Operation) :
    (c.cursors (c.run ops)).Pairwise Reaches := by
  induction ops generalizing c with
  | nil => exact List.pairwise_singleton ..
  | cons op ops ih =>
    refine List.pairwise_cons.2 ⟨fun d hd => reaches_of_mem_cursors (List.mem_cons_of_mem _ hd), ?_⟩
    cases hp : op.perform? c with
    | none =>
      rw [run, hp]
      exact .nil
    | some result =>
      rw [run, hp]
      exact ih result.2

/-- A run ends early only where a byte is asked for at a distance that leads out of all offsets. -/
theorem exists_rest_of_run (c : Cursor) (ops : List Operation) :
    ∃ rest, ops = (c.run ops).map (·.operation) ++ rest ∧
      ∀ op ∈ rest.head?, ∃ distance, op = .peekAt distance ∧
        ∀ last ∈ (c.cursors (c.run ops)).getLast?, Offset.bound ≤ last.pos + distance := by
  induction ops generalizing c with
  | nil => exact ⟨[], rfl, nofun⟩
  | cons op ops ih =>
    cases hp : op.perform? c with
    | none =>
      obtain ⟨distance, rfl, hbound⟩ := Operation.perform?_eq_none_iff.1 hp
      rw [run, hp]
      refine ⟨_, rfl, fun op hop => ⟨distance, (Option.some.inj hop).symm, fun last hlast => ?_⟩⟩
      obtain rfl : c = last := Option.some.inj hlast
      exact hbound
    | some result =>
      obtain ⟨rest, hops, hrest⟩ := ih result.2
      rw [run, hp]
      exact ⟨rest, congrArg (op :: ·) hops, hrest⟩

/-- A run that starts with a text keeps track of the text. -/
structure TracksText (source : String) (ops : List Operation) (turns : List Turn) : Prop where
  answered : ∃ rest, ops = turns.map (·.operation) ++ rest ∧
    ∀ op ∈ rest.head?, ∃ distance, op = .peekAt distance ∧
      ∀ last ∈ ((ofText source).cursors turns).getLast?, Offset.bound ≤ last.pos + distance
  forward : ((ofText source).cursors turns).Pairwise fun a b => a.pos ≤ b.pos
  inside : ∀ c ∈ (ofText source).cursors turns, c.pos ≤ length source
  measures : ∀ c ∈ (ofText source).cursors turns, c.location.Measures (encode source) c.pos
  tells : ∀ t ∈ turns, t.Tells source

theorem tracksText_run (source : String) (ops : List Operation) :
    TracksText source ops ((ofText source).run ops) where
  answered := exists_rest_of_run ..
  forward := (pairwise_cursors ..).imp Reaches.pos_le
  inside _ hc := (reaches_of_mem_cursors hc).pos_le_length
  measures c hc := by
    have hreaches := reaches_of_mem_cursors hc
    rw [hreaches.location_eq]
    exact Location.measures_ofOffset hreaches.pos_le_length
  tells t ht := by
    obtain ⟨hreaches, hperform⟩ := mem_run ht
    exact Turn.tells_of_perform? ((within_ofText source).reaches hreaches) hperform

/-- Inside of a character there is neither a quote nor a value, and nothing is passed. -/
example : ((ofText "é\n'ü'").run [.bump, .value, .bump, .bump, .value]).map
    (fun t => (t.answer, t.stop.pos, t.stop.location)) =
    [(.byte (some 0xc3), 1, ⟨1, 2⟩), (.quoted .missing, 1, ⟨1, 2⟩), (.byte (some 0xa9), 2, ⟨1, 3⟩),
      (.byte (some newline), 3, ⟨2, 1⟩), (.quoted (.text "ü"), 7, ⟨2, 5⟩)] := by
  decide +kernel

end Cursor

end BindlessHlsl
