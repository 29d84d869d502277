import TextLines.Proofs.Charset.Decoding

/-!
# The buffers behind a decoder

A `Decoder` keeps its input and its converted text as lists. Where it runs, both stand in buffers of
a fixed size, and two indices into each buffer bound the stretch that is in use. This module says
how a call reads, one step after the other: `Buffers` is what lasts from call to call, `Call` is a
call under way with its write cursor, and `Call.step` is its next step. A call serves text that is
ready. If there is none it makes a pass: it looks for input, fetches some, converts it, and deals
with what has stopped the conversion, until something has been written.

There are two groups.

* The buffers. `Bytes.overwrite` makes a buffer longer when something is written past its end, so
  that the length of a buffer tells whether that has ever happened (`Buffers.InBounds`).
  `Bytes.between` is a stretch.
* The calls. For each step that has a choice there is one lemma that says all that it can come to,
  and everything else is read off these.

## The course of a pass

`look` goes on to `convert` if there is input, to `fetch` if there is none and the source may have
more, and to `flush` and `leave` if it has not. `convert` always comes to `stopped`. From there a
pass goes back to `look`, with something written or all input used up, to `fetch` inside a
character, or to `leave` when the output is full.
-/

namespace TextLines

namespace Bytes

/-- Writes over what a buffer holds from `start` on. What does not fit makes the buffer longer. -/
def overwrite (buffer : Bytes) (start : Nat) (bytes : Bytes) : Bytes :=
  buffer.take start ++ bytes ++ buffer.drop (start + bytes.length)

/-- The stretch of a buffer between two indices. -/
def between (buffer : Bytes) (start stop : Nat) : Bytes :=
  (buffer.take stop).drop start

theorem length_overwrite {buffer bytes : Bytes} {start : Nat}
    (h : start + bytes.length ≤ buffer.length) :
    (overwrite buffer start bytes).length = buffer.length := by
  simp only [overwrite, List.length_append, List.length_take, List.length_drop]
  omega

theorem take_overwrite {buffer : Bytes} {start : Nat} (h : start ≤ buffer.length) (bytes : Bytes) :
    (overwrite buffer start bytes).take (start + bytes.length) = buffer.take start ++ bytes := by
  have hlength : (buffer.take start ++ bytes).length = start + bytes.length := by
    rw [List.length_append, List.length_take, Nat.min_eq_left h]
  rw [overwrite, List.take_left' hlength]

theorem length_between {buffer : Bytes} {start stop : Nat} (h : stop ≤ buffer.length) :
    (between buffer start stop).length = stop - start := by
  rw [between, List.length_drop, List.length_take, Nat.min_eq_left h]

theorem drop_between (buffer : Bytes) (start stop k : Nat) :
    (between buffer start stop).drop k = between buffer (start + k) stop := by
  rw [between, between, List.drop_drop]

theorem between_eq_nil {buffer : Bytes} {start stop : Nat} (h : stop ≤ start) :
    between buffer start stop = [] := by
  apply List.drop_eq_nil_of_le
  rw [List.length_take]
  omega

/-- What is written behind a stretch makes the stretch longer. -/
theorem between_overwrite {buffer : Bytes} {start stop : Nat} (hstart : start ≤ stop)
    (hstop : stop ≤ buffer.length) (bytes : Bytes) :
    between (overwrite buffer stop bytes) start (stop + bytes.length) =
      between buffer start stop ++ bytes := by
  rw [between, between, take_overwrite hstop]
  apply List.drop_append_of_le_length
  rw [List.length_take]
  omega

/-- The end of a stretch is the stretch from as many bytes before its end. -/
theorem between_of_suffix {buffer rest : Bytes} {start stop : Nat} (hstop : stop ≤ buffer.length)
    (h : rest <:+ between buffer start stop) : between buffer (stop - rest.length) stop = rest := by
  have hsuffix : rest <:+ buffer.take stop := h.trans (List.drop_suffix _ _)
  have hdrop := List.suffix_iff_eq_drop.mp hsuffix
  rw [List.length_take, Nat.min_eq_left hstop] at hdrop
  exact hdrop.symm

end Bytes

/-- What reading leaves of a source. -/
inductive Source.ReadsTo {σ : Type} [Source σ] (origin : σ) : σ → Prop where
  | refl : ReadsTo origin origin
  | read {s : σ} {n : Nat} (h : ReadsTo origin s) (hn : 0 < n) : ReadsTo origin (Source.read n s).2

namespace Decoder

open Charset (Conversion Stop replacement)

/-! ## The converter -/

/-- Converts a text as far as it is sound and fits into `room` bytes, once its character set is
settled. -/
def convertInto (encoding : Encoding) (room : Nat) (text : Bytes) : Encoding × Conversion :=
  match encoding.settle text with
  | some (charset, rest) => (.plain charset, charset.convert room rest)
  | none => (encoding, ⟨[], text, .incomplete⟩)

theorem convertInto_suffix (encoding : Encoding) (room : Nat) (text : Bytes) :
    (convertInto encoding room text).2.rest <:+ text := by
  unfold convertInto
  split
  · rename_i charset rest hsettle
    exact (charset.convert_rest_suffix room rest).trans (Encoding.settle_suffix hsettle)
  · exact List.suffix_refl text

theorem convertInto_fits (encoding : Encoding) (room : Nat) (text : Bytes) :
    (convertInto encoding room text).2.text.length ≤ room := by
  unfold convertInto
  split
  · rename_i charset rest hsettle
    exact charset.convert_text_length room rest
  · exact Nat.zero_le room

/-! ## Buffers -/

/-- A decoder with its two buffers. -/
structure Buffers (σ : Type) where
  /-- The source of the encoded text. -/
  inner : σ
  /-- How the text is encoded; a character set once the start of the text has been seen. -/
  encoding : Encoding
  /-- The buffer for input. -/
  input : Bytes := List.replicate inputCapacity 0
  /-- Where the input begins that is not converted yet. -/
  inStart : Nat := 0
  /-- Where it ends. -/
  inEnd : Nat := 0
  /-- The buffer for converted text. -/
  output : Bytes := List.replicate outputCapacity 0
  /-- Where the text begins that is not handed out yet. -/
  outStart : Nat := 0
  /-- Where it ends. -/
  outEnd : Nat := 0
  /-- Whether the source inside has reported its end. -/
  ended : Bool := false
  /-- Whether the converter has been told about the end. -/
  flushed : Bool := false
  /-- Whether the decoder has been closed. -/
  closed : Bool := false

namespace Buffers

variable {σ : Type} [Source σ]

/-- The input that is not converted yet. -/
def pending (b : Buffers σ) : Bytes := Bytes.between b.input b.inStart b.inEnd

/-- The converted text that is not handed out yet. -/
def ready (b : Buffers σ) : Bytes := Bytes.between b.output b.outStart b.outEnd

/-- The decoder without its buffers. -/
def decoder (b : Buffers σ) : Decoder σ where
  inner := b.inner
  encoding := b.encoding
  pending := b.pending
  ready := b.ready
  ended := b.ended
  closed := b.closed

/-- Moves the input to the front of its buffer. -/
def shift (b : Buffers σ) : Buffers σ :=
  { b with
    input := Bytes.overwrite b.input 0 b.pending
    inStart := 0
    inEnd := b.inEnd - b.inStart }

/-- Fetches input behind what there is, as much as there is room for. A full buffer stays what it
is. -/
def fetch (b : Buffers σ) : Except Error Unit × Buffers σ :=
  let b := b.shift
  if b.inEnd = inputCapacity then (.ok (), b)
  else
    match Source.read (inputCapacity - b.inEnd) b.inner with
    | (.ok bytes, inner) =>
      (.ok (), { b with
        inner
        input := Bytes.overwrite b.input b.inEnd bytes
        inEnd := b.inEnd + bytes.length
        ended := b.ended || bytes.isEmpty })
    | (.error e, inner) => (.error e, { b with inner })

/-- Closes the source inside. -/
def close (b : Buffers σ) : Option Error × Buffers σ :=
  let (e, inner) := Source.close b.inner
  (e, { b with inner, closed := true })

/-- The indices are in order, and nothing has been written past the end of a buffer. -/
structure InBounds (b : Buffers σ) : Prop where
  inStart_le : b.inStart ≤ b.inEnd
  inEnd_le : b.inEnd ≤ inputCapacity
  outStart_le : b.outStart ≤ b.outEnd
  outEnd_le : b.outEnd ≤ outputCapacity
  length_input : b.input.length = inputCapacity
  length_output : b.output.length = outputCapacity

/-- The decoder is open, and its buffer for text is empty. -/
structure Vacant (b : Buffers σ) : Prop where
  isOpen : b.closed = false
  outStart_eq : b.outStart = 0
  outEnd_eq : b.outEnd = 0

/-- The source has reported its end, and all of its input is converted. -/
def UsedUp (b : Buffers σ) : Prop :=
  b.ended = true ∧ b.inStart = b.inEnd

/-- The work that is left: what the source may still give, its end, and input to convert. -/
def backlog (b : Buffers σ) : Nat :=
  2 * Source.left b.inner + (if b.ended = true then 0 else 2) +
    (if b.inStart = b.inEnd then 0 else 1)

/-- As long as the decoder is open its source has only been read, and the decoder takes the source
to be at its end only if the last of these reads has given nothing. -/
def Knows (origin : σ) (b : Buffers σ) : Prop :=
  b.closed = false → Source.ReadsTo origin b.inner ∧
    (b.ended = true →
      ∃ n s, 0 < n ∧ Source.ReadsTo origin s ∧ Source.read n s = (.ok [], b.inner))

omit [Source σ] in
theorem inBounds_fresh (inner : σ) (encoding : Encoding) :
    ({ inner, encoding } : Buffers σ).InBounds :=
  ⟨Nat.le_refl 0, Nat.zero_le _, Nat.le_refl 0, Nat.zero_le _, List.length_replicate,
    List.length_replicate⟩

theorem knows_fresh (inner : σ) (encoding : Encoding) :
    ({ inner, encoding } : Buffers σ).Knows inner :=
  fun _ => ⟨.refl, fun hend => by cases hend⟩

section

variable {b b' : Buffers σ}

omit [Source σ] in
theorem InBounds.length_pending (h : b.InBounds) : b.pending.length = b.inEnd - b.inStart :=
  Bytes.length_between (h.length_input ▸ h.inEnd_le)

omit [Source σ] in
theorem InBounds.length_ready (h : b.InBounds) : b.ready.length = b.outEnd - b.outStart :=
  Bytes.length_between (h.length_output ▸ h.outEnd_le)

omit [Source σ] in
theorem InBounds.pending_shift (h : b.InBounds) : b.shift.pending = b.pending := by
  show Bytes.between (Bytes.overwrite b.input 0 b.pending) 0 (b.inEnd - b.inStart) = b.pending
  have hwritten := Bytes.between_overwrite (Nat.le_refl 0) (Nat.zero_le b.input.length) b.pending
  rwa [Nat.zero_add, h.length_pending, Bytes.between_eq_nil (Nat.le_refl 0), List.nil_append]
    at hwritten

omit [Source σ] in
theorem InBounds.shift (h : b.InBounds) : b.shift.InBounds := by
  have hstart := h.inStart_le
  have hend := h.inEnd_le
  have hfits : 0 + b.pending.length ≤ b.input.length := by
    rw [h.length_pending, h.length_input]
    omega
  refine ⟨Nat.zero_le _, ?_, h.outStart_le, h.outEnd_le, ?_, h.length_output⟩
  · show b.inEnd - b.inStart ≤ inputCapacity
    omega
  · show (Bytes.overwrite b.input 0 b.pending).length = inputCapacity
    rw [Bytes.length_overwrite hfits, h.length_input]

/-- Everything that fetching can do to a buffer that is not full of input. -/
theorem fetch_cases {r : Except Error Unit} (hroom : b.inEnd - b.inStart < inputCapacity)
    (hr : b.fetch = (r, b')) :
    (∃ bytes inner,
      Source.read (inputCapacity - (b.inEnd - b.inStart)) b.inner = (.ok bytes, inner) ∧
        r = .ok () ∧ b' = { b.shift with
          inner
          input := Bytes.overwrite b.shift.input (b.inEnd - b.inStart) bytes
          inEnd := b.inEnd - b.inStart + bytes.length
          ended := b.ended || bytes.isEmpty }) ∨
    ∃ e inner,
      Source.read (inputCapacity - (b.inEnd - b.inStart)) b.inner = (.error e, inner) ∧
        r = .error e ∧ b' = { b.shift with inner } := by
  have hnot : ¬ b.shift.inEnd = inputCapacity := Nat.ne_of_lt hroom
  simp only [fetch, if_neg hnot] at hr
  split at hr
  · rename_i bytes inner hread
    obtain ⟨rfl, rfl⟩ := Prod.mk.inj hr
    exact Or.inl ⟨bytes, inner, hread, rfl, rfl⟩
  · rename_i e inner hread
    obtain ⟨rfl, rfl⟩ := Prod.mk.inj hr
    exact Or.inr ⟨e, inner, hread, rfl, rfl⟩

theorem InBounds.fetch {r : Except Error Unit} (h : b.InBounds)
    (hroom : b.inEnd - b.inStart < inputCapacity) (hr : b.fetch = (r, b')) : b'.InBounds := by
  have hshift := h.shift
  rcases fetch_cases hroom hr with ⟨bytes, inner, hread, -, rfl⟩ | ⟨e, inner, -, -, rfl⟩
  · have hlength := Source.read_length hread
    have hfits : b.inEnd - b.inStart + bytes.length ≤ b.shift.input.length := by
      rw [hshift.length_input]
      omega
    refine ⟨Nat.zero_le _, ?_, h.outStart_le, h.outEnd_le, ?_, h.length_output⟩
    · show b.inEnd - b.inStart + bytes.length ≤ inputCapacity
      omega
    · show (Bytes.overwrite b.shift.input (b.inEnd - b.inStart) bytes).length = inputCapacity
      rw [Bytes.length_overwrite hfits, hshift.length_input]
  · exact { hshift with }

theorem Vacant.fetch {r : Except Error Unit} (h : b.Vacant)
    (hroom : b.inEnd - b.inStart < inputCapacity) (hr : b.fetch = (r, b')) : b'.Vacant := by
  rcases fetch_cases hroom hr with ⟨bytes, inner, -, -, rfl⟩ | ⟨e, inner, -, -, rfl⟩
  all_goals exact { h with }

theorem Knows.fetch {origin : σ} {r : Except Error Unit} (h : b.Knows origin)
    (hopen : b.closed = false) (hended : b.ended = false)
    (hroom : b.inEnd - b.inStart < inputCapacity) (hr : b.fetch = (r, b')) : b'.Knows origin := by
  intro _
  have hpos : 0 < inputCapacity - (b.inEnd - b.inStart) := Nat.sub_pos_of_lt hroom
  have hreads := (h hopen).1.read hpos
  rcases fetch_cases hroom hr with ⟨bytes, inner, hread, -, rfl⟩ | ⟨e, inner, hread, -, rfl⟩
  · rw [hread] at hreads
    refine ⟨hreads, fun hend => ?_⟩
    have hnil : bytes = [] := by
      apply List.isEmpty_iff.mp
      simpa [hended] using hend
    rw [hnil] at hread
    exact ⟨_, b.inner, hpos, (h hopen).1, hread⟩
  · rw [hread] at hreads
    refine ⟨hreads, fun hend => ?_⟩
    have hend' : b.ended = true := hend
    rw [hended] at hend'
    cases hend'

theorem backlog_pos (h : b.inStart < b.inEnd) : 0 < b.backlog := by
  rw [backlog, if_neg (Nat.ne_of_lt h)]
  omega

/-- Going on in the input adds no work, and coming to its end takes some. -/
theorem backlog_convert (h : b.inStart < b.inEnd) (encoding : Encoding) (next : Nat)
    (output : Bytes) :
    ({ b with encoding, inStart := next, output } : Buffers σ).backlog ≤ b.backlog ∧
      (next = b.inEnd →
        ({ b with encoding, inStart := next, output } : Buffers σ).backlog < b.backlog) := by
  simp only [backlog, if_neg (Nat.ne_of_lt h)]
  constructor
  · have hle : (if next = b.inEnd then 0 else 1) ≤ 1 := by split <;> omega
    omega
  · intro heq
    rw [if_pos heq]
    omega

/-- A fetch that gives something takes it from the source, and one that gives nothing finds the
end. -/
theorem InBounds.backlog_fetch (h : b.InBounds) (hroom : b.inEnd - b.inStart < inputCapacity)
    (hended : b.ended = false) (hr : b.fetch = (.ok (), b')) : b'.backlog < b.backlog := by
  have hle := h.inStart_le
  rcases fetch_cases hroom hr with ⟨bytes, inner, hread, -, rfl⟩ | ⟨e, inner, -, he, -⟩
  · have hleft := Source.read_left hread
    simp only [backlog, hended]
    rcases bytes with _ | ⟨byte, bytes⟩
    · simp only [List.length_nil, List.isEmpty_nil, Bool.or_true, if_true, Bool.false_eq_true,
        if_false] at hleft ⊢
      split <;> split <;> omega
    · simp only [List.length_cons, List.isEmpty_cons, Bool.or_false, Bool.false_eq_true,
        if_false] at hleft ⊢
      split <;> split <;> omega
  · cases he

end

end Buffers

/-! ## Calls -/

/-- Where a call stands. -/
inductive Point where
  /-- It looks for text that is ready. -/
  | serve
  /-- It looks whether something is written, and for input if not. -/
  | look
  /-- It is about to fetch input. -/
  | fetch
  /-- It is about to convert input. -/
  | convert
  /-- The conversion has gone no further. -/
  | stopped (stop : Stop)
  /-- The input is at its end, and the converter has not been told. -/
  | flush
  /-- The pass is over, and what is written becomes ready. -/
  | leave
  /-- The call is over. -/
  | over (result : Except Error Bytes)

/-- A call that reads. -/
structure Call (σ : Type) where
  /-- The decoder. -/
  buffers : Buffers σ
  /-- How much is asked for. -/
  size : Nat
  /-- How much has been written in this pass. -/
  cursor : Nat := 0
  /-- Where the call stands. -/
  point : Point

namespace Call

variable {σ : Type} [Source σ]

/-- A call for nothing is over at once. -/
def start (n : Nat) (b : Buffers σ) : Call σ :=
  { buffers := b, size := n, point := if n = 0 then .over (.ok []) else .serve }

/-- Hands out text if there is any. A decoder that is closed makes no more. -/
def serve (c : Call σ) : Call σ :=
  let b := c.buffers
  if b.outStart = b.outEnd then
    if b.closed then { c with point := .over (.ok []) }
    else { c with buffers := { b with outStart := 0, outEnd := 0 }, cursor := 0, point := .look }
  else
    let k := min c.size (b.outEnd - b.outStart)
    { c with
      buffers := { b with outStart := b.outStart + k }
      point := .over (.ok (b.ready.take k)) }

/-- Goes on as long as nothing is written and there may be input. -/
def look (c : Call σ) : Call σ :=
  let b := c.buffers
  if c.cursor ≠ 0 then { c with point := .leave }
  else if b.inStart ≠ b.inEnd then { c with point := .convert }
  else if b.ended = false then { c with point := .fetch }
  else if b.flushed then { c with point := .leave }
  else { c with point := .flush }

/-- Fetches input. A failure ends the call. -/
def fetch (c : Call σ) : Call σ :=
  match c.buffers.fetch with
  | (.ok (), b) => { c with buffers := b, point := .look }
  | (.error e, b) => { c with buffers := b, point := .over (.error e) }

/-- Converts input behind what is written. -/
def convert (c : Call σ) : Call σ :=
  let b := c.buffers
  let (encoding, conversion) :=
    convertInto b.encoding (outputCapacity - c.cursor) b.pending
  { c with
    buffers := { b with
      encoding
      inStart := b.inEnd - conversion.rest.length
      output := Bytes.overwrite b.output c.cursor conversion.text }
    cursor := c.cursor + conversion.text.length
    point := .stopped conversion.stop }

/-- Writes a replacement for the input before `next`, if there is room. -/
def replace (c : Call σ) (next : Nat) : Call σ :=
  let b := c.buffers
  if c.cursor + replacement.length ≤ outputCapacity then
    { c with
      buffers := { b with
        inStart := next, output := Bytes.overwrite b.output c.cursor replacement }
      cursor := c.cursor + replacement.length
      point := .look }
  else { c with point := .leave }

/-- Deals with what has stopped a conversion. -/
def resume (c : Call σ) : Stop → Call σ
  | .exhausted => { c with point := .look }
  | .full => { c with point := .leave }
  | .malformed => c.replace (c.buffers.inStart + 1)
  | .incomplete =>
    if c.buffers.ended then c.replace c.buffers.inEnd else { c with point := .fetch }

/-- Tells the converter about the end. UTF-8 is written without states, so that this writes
nothing. -/
def flush (c : Call σ) : Call σ :=
  { c with buffers := { c.buffers with flushed := true }, point := .leave }

/-- Makes ready what is written. If that is nothing, there is nothing more. -/
def leave (c : Call σ) : Call σ :=
  { c with
    buffers := { c.buffers with outEnd := c.cursor }
    point := if c.cursor = 0 then .over (.ok []) else .serve }

/-- The next step. -/
def step (c : Call σ) : Call σ :=
  match c.point with
  | .serve => c.serve
  | .look => c.look
  | .fetch => c.fetch
  | .convert => c.convert
  | .stopped stop => c.resume stop
  | .flush => c.flush
  | .leave => c.leave
  | .over _ => c

/-- The call after so many steps. -/
def after : Nat → Call σ → Call σ
  | 0, c => c
  | k + 1, c => after k c.step

/-! ## What a step can do -/

section

omit [Source σ]

/-- All that looking for text can come to. -/
theorem serve_cases (c : Call σ) :
    (c.buffers.outStart = c.buffers.outEnd ∧ c.buffers.closed = true ∧
      c.serve = { c with point := .over (.ok []) }) ∨
    (c.buffers.outStart = c.buffers.outEnd ∧ c.buffers.closed = false ∧
      c.serve = { c with
        buffers := { c.buffers with outStart := 0, outEnd := 0 }, cursor := 0, point := .look }) ∨
    (c.buffers.outStart ≠ c.buffers.outEnd ∧ c.serve = { c with
      buffers := { c.buffers with
        outStart :=
          c.buffers.outStart + min c.size (c.buffers.outEnd - c.buffers.outStart) }
      point := .over
        (.ok (c.buffers.ready.take (min c.size (c.buffers.outEnd - c.buffers.outStart)))) }) := by
  unfold serve
  by_cases heq : c.buffers.outStart = c.buffers.outEnd
  · cases hclosed : c.buffers.closed
    · exact Or.inr (Or.inl ⟨heq, rfl, by simp [heq, hclosed]⟩)
    · exact Or.inl ⟨heq, rfl, by simp [heq, hclosed]⟩
  · exact Or.inr (Or.inr ⟨heq, if_neg heq⟩)

/-- All that looking for input can come to. -/
theorem look_cases (c : Call σ) :
    (c.cursor ≠ 0 ∧ c.look = { c with point := .leave }) ∨
    (c.cursor = 0 ∧ c.buffers.inStart ≠ c.buffers.inEnd ∧
      c.look = { c with point := .convert }) ∨
    (c.cursor = 0 ∧ c.buffers.inStart = c.buffers.inEnd ∧ c.buffers.ended = false ∧
      c.look = { c with point := .fetch }) ∨
    (c.cursor = 0 ∧ c.buffers.UsedUp ∧
      (c.look = { c with point := .leave } ∨ c.look = { c with point := .flush })) := by
  unfold look
  by_cases hzero : c.cursor = 0
  · by_cases heq : c.buffers.inStart = c.buffers.inEnd
    · cases hended : c.buffers.ended
      · exact Or.inr (Or.inr (Or.inl ⟨hzero, heq, rfl, by simp [hzero, heq, hended]⟩))
      · refine Or.inr (Or.inr (Or.inr ⟨hzero, ⟨hended, heq⟩, ?_⟩))
        cases hflushed : c.buffers.flushed
        · exact Or.inr (by simp [hzero, heq, hended, hflushed])
        · exact Or.inl (by simp [hzero, heq, hended, hflushed])
    · exact Or.inr (Or.inl ⟨hzero, heq, by simp [hzero, heq]⟩)
  · exact Or.inl ⟨hzero, if_pos hzero⟩

/-- All that a replacement can come to: it is written, or there is no room behind what is. -/
theorem replace_cases (c : Call σ) (next : Nat) :
    (c.cursor + 3 ≤ outputCapacity ∧ c.replace next = { c with
      buffers := { c.buffers with
        inStart := next
        output := Bytes.overwrite c.buffers.output c.cursor replacement }
      cursor := c.cursor + 3
      point := .look }) ∨
    (outputCapacity < c.cursor + 3 ∧ 0 < c.cursor ∧
      c.replace next = { c with point := .leave }) := by
  have hcapacity : outputCapacity = 65536 := rfl
  unfold replace
  rw [Charset.length_replacement]
  by_cases hroom : c.cursor + 3 ≤ outputCapacity
  · exact Or.inl ⟨hroom, if_pos hroom⟩
  · exact Or.inr ⟨by omega, by omega, if_neg hroom⟩

end

end Call

end Decoder

end TextLines
