import TextLines.Proofs.Charset.Passes

/-!
# Reading through buffers

A decoder that reads through buffers gives what a `Decoder` gives, which has none. What is left of a
call is a part of the work of `Decoder.read`, and `Call.outcome` says which part that is at each
point. A step changes nothing about it (`Call.Sound.outcome_step`), and when the call is over it is
the answer. So every call comes to the answer of `Decoder.read`, after a number of steps that the
source decides, and on the way all indices stay in their buffers (`Buffers.read_ends_in_bounds`).

This is said of a decoder after any calls before, also after reads that have failed and after a
close (`Buffers.Reachable`). `Call.Safe` says at each point what must hold there.
-/

namespace TextLines.Decoder

open Charset (Conversion Stop replacement)

variable {σ : Type} [Source σ]

/-! ## The parts of a read -/

/-- Hands out what has been produced. -/
def handOut (n : Nat) : Except Error Unit × Decoder σ → Except Error Bytes × Decoder σ
  | (.ok (), d) => (.ok (d.ready.take n), { d with ready := d.ready.drop n })
  | (.error e, d) => (.error e, d)

/-- Makes `text` ready, or goes on producing if there is none. -/
def finish (d : Decoder σ) (text : Bytes) : Except Error Unit × Decoder σ :=
  if text.isEmpty then d.produce else (.ok (), { d with ready := text })

/-- Fetches input before `text` is made ready. -/
def await (d : Decoder σ) (text : Bytes) : Except Error Unit × Decoder σ :=
  match d.refill with
  | (.ok (), d') => d'.finish text
  | (.error e, d') => (.error e, d')

/-- Deals with what has stopped a conversion. -/
def resume (d : Decoder σ) (c : Conversion) : Except Error Unit × Decoder σ :=
  if c.stop = .incomplete ∧ d.ended = false then d.await c.text
  else if c.stop = .exhausted ∧ c.text.isEmpty then d.produce
  else (.ok (), d.deliver c)

theorem read_eq_handOut {n : Nat} (hn : n ≠ 0) (d : Decoder σ) :
    d.read n =
      handOut n (if d.ready.isEmpty && !d.closed then d.produce else (.ok (), d)) := by
  rw [read, if_neg hn]
  dsimp only
  split
  · rcases d.produce with ⟨e | u, d'⟩
    · rfl
    · simp only [handOut, List.splitAt_eq]
  · simp only [handOut, List.splitAt_eq]

theorem produce_of_used {d : Decoder σ} (hp : d.pending = []) (he : d.ended = true) :
    d.produce = (.ok (), d) := by
  rw [produce, dif_pos hp, dif_pos he]

theorem produce_of_empty {d : Decoder σ} (hp : d.pending = []) (he : d.ended = false) :
    d.produce = d.await [] := by
  have hnot : ¬ d.ended = true := by simp [he]
  rw [produce, dif_pos hp, dif_neg hnot, await]
  split
  · rename_i d' hr
    rw [hr]
    rfl
  · rename_i e d' hr
    rw [hr]

omit [Source σ] in
theorem deliver_with_pending (d : Decoder σ) (pending : Bytes) (c : Conversion) :
    ({ d with pending } : Decoder σ).deliver c = d.deliver c := by
  unfold deliver
  split <;> rfl

theorem produce_of_pending {d : Decoder σ} (hp : d.pending ≠ []) {now : Encoding} {c : Conversion}
    (hc : d.convertPending = (now, c)) :
    d.produce = ({ d with encoding := now, pending := c.rest } : Decoder σ).resume c := by
  have hpaused := convertPending_paused hp
  rw [hc] at hpaused
  rw [produce, dif_neg hp, hc, resume]
  dsimp only
  split
  · rw [await]
    split
    · rename_i d' hr
      rw [hr]
      rfl
    · rename_i e d' hr
      rw [hr]
  · split
    · rename_i hstop
      rw [hpaused.rest_eq_nil hstop.1]
    · exact congrArg (Prod.mk _) (deliver_with_pending { d with encoding := now } c.rest c).symm

/-! ## The decoder without its buffers -/

namespace Buffers

variable {b b' : Buffers σ}

omit [Source σ] in
theorem Vacant.ready_eq (h : b.Vacant) : b.ready = [] := by
  rw [ready, h.outStart_eq, h.outEnd_eq]
  exact Bytes.between_eq_nil (Nat.le_refl 0)

omit [Source σ] in
theorem pending_eq_nil (h : b.inStart = b.inEnd) : b.pending = [] :=
  Bytes.between_eq_nil (Nat.le_of_eq h.symm)

omit [Source σ] in
theorem InBounds.pending_ne_nil (h : b.InBounds) (hlt : b.inStart < b.inEnd) :
    b.pending ≠ [] := by
  apply List.ne_nil_of_length_pos
  rw [h.length_pending]
  omega

/-- Fetching input into a buffer with room is what a decoder does. -/
theorem InBounds.refill_decoder {r : Except Error Unit} (h : b.InBounds)
    (hroom : b.inEnd - b.inStart < inputCapacity) (hended : b.ended = false)
    (hr : b.fetch = (r, b')) : b.decoder.refill = (r, b'.decoder) := by
  have hshift := h.shift
  have hpending := h.pending_shift
  have hsize : inputCapacity - b.decoder.pending.length = inputCapacity - (b.inEnd - b.inStart) :=
    congrArg (inputCapacity - ·) h.length_pending
  rw [refill, hsize]
  rcases fetch_cases hroom hr with ⟨bytes, inner, hread, rfl, rfl⟩ | ⟨e, inner, hread, rfl, rfl⟩
  · have hwritten : Bytes.between (Bytes.overwrite b.shift.input (b.inEnd - b.inStart) bytes) 0
        (b.inEnd - b.inStart + bytes.length) = b.pending ++ bytes := by
      have hle : b.inEnd - b.inStart ≤ b.shift.input.length := by
        rw [hshift.length_input]
        omega
      rw [Bytes.between_overwrite (Nat.zero_le _) hle]
      exact congrArg (· ++ bytes) hpending
    have hend : bytes.isEmpty = (b.ended || bytes.isEmpty) := by rw [hended, Bool.false_or]
    rw [show b.decoder.inner = b.inner from rfl, hread]
    simp only [decoder, Prod.mk.injEq, Decoder.mk.injEq]
    exact ⟨trivial, trivial, rfl, hwritten.symm, rfl, hend, rfl⟩
  · rw [show b.decoder.inner = b.inner from rfl, hread]
    simp only [decoder, Prod.mk.injEq, Decoder.mk.injEq]
    exact ⟨trivial, trivial, rfl, hpending.symm, rfl, rfl, rfl⟩

end Buffers

/-! ## What is left of a call -/

namespace Call

/-- The text written in this pass. -/
def text (c : Call σ) : Bytes := c.buffers.output.take c.cursor

/-- What a decoder makes of the rest of a call at a point. -/
def outcomeAt (c : Call σ) : Point → Except Error Bytes × Decoder σ
  | .serve =>
    let d := c.buffers.decoder
    handOut c.size (if d.ready.isEmpty && !d.closed then d.produce else (.ok (), d))
  | .look => handOut c.size (c.buffers.decoder.finish c.text)
  | .fetch => handOut c.size (c.buffers.decoder.await c.text)
  | .convert => handOut c.size c.buffers.decoder.produce
  | .stopped stop =>
    handOut c.size (c.buffers.decoder.resume ⟨c.text, c.buffers.pending, stop⟩)
  | .flush | .leave => handOut c.size (.ok (), { c.buffers.decoder with ready := c.text })
  | .over result => (result, c.buffers.decoder)

/-- What a decoder makes of the rest of a call. -/
def outcome (c : Call σ) : Except Error Bytes × Decoder σ := c.outcomeAt c.point

/-- At the start all of the call is left. -/
theorem outcome_start (n : Nat) (b : Buffers σ) :
    (start n b).outcome = b.decoder.read n := by
  unfold start
  by_cases hn : n = 0
  · rw [if_pos hn, hn]
    rfl
  · rw [if_neg hn, read_eq_handOut hn]
    rfl

section

variable {origin : σ} {c : Call σ}

theorem Sound.length_text (h : c.Sound origin) : c.text.length = c.cursor := by
  have hle := h.cursor_le
  rw [text, List.length_take, h.bounds.length_output]
  omega

theorem Sound.outcome_serve (h : c.Sound origin) : c.serve.outcome = c.outcomeAt .serve := by
  have hlength := h.bounds.length_ready
  have hle := h.bounds.outStart_le
  have hnone : c.buffers.outStart = c.buffers.outEnd → c.buffers.ready = [] := fun heq =>
    Bytes.between_eq_nil (Nat.le_of_eq heq.symm)
  have hserve : c.outcomeAt .serve = handOut c.size
      (if c.buffers.ready.isEmpty && !c.buffers.closed then c.buffers.decoder.produce
        else (.ok (), c.buffers.decoder)) := rfl
  have hsame : c.buffers.ready = [] →
      ({ c.buffers.decoder with ready := [] } : Decoder σ) = c.buffers.decoder := by
    intro hready
    rw [← hready]
    rfl
  rcases serve_cases c with ⟨heq, hclosed, hc⟩ | ⟨heq, hopen, hc⟩ | ⟨hne, hc⟩
  · have hready := hnone heq
    rw [hserve, hc, hclosed, Bool.not_true, Bool.and_false, if_neg Bool.false_ne_true, handOut,
      show c.buffers.decoder.ready = [] from hready, List.take_nil, List.drop_nil, hsame hready]
    rfl
  · have hready := hnone heq
    rw [hserve, hc, hopen, hready, List.isEmpty_nil, Bool.not_false, Bool.and_true, if_pos rfl]
    show handOut c.size ({ c.buffers.decoder with ready := [] } : Decoder σ).produce = _
    rw [hsame hready]
  · have hsome : c.buffers.ready.isEmpty = false := by
      apply List.isEmpty_eq_false_iff.mpr
      apply List.ne_nil_of_length_pos
      rw [hlength]
      omega
    have htake : c.buffers.ready.take c.size =
        c.buffers.ready.take (min c.size (c.buffers.outEnd - c.buffers.outStart)) := by
      rw [← hlength, ← List.take_eq_take_min]
    have hdrop : c.buffers.ready.drop c.size = Bytes.between c.buffers.output
        (c.buffers.outStart + min c.size (c.buffers.outEnd - c.buffers.outStart))
        c.buffers.outEnd := by
      rw [← Bytes.drop_between, ← hlength, List.drop_eq_drop_min]
      rfl
    rw [hserve, hc, hsome, Bool.false_and, if_neg Bool.false_ne_true, handOut,
      show c.buffers.decoder.ready = c.buffers.ready from rfl, htake, hdrop]
    rfl

theorem Sound.outcome_look (h : c.Sound origin) (hp : c.point = .look) :
    c.look.outcome = c.outcomeAt .look := by
  have hvacant : c.buffers.Vacant := h.at_point hp
  have hlength := h.length_text
  have hnone : c.cursor = 0 → c.text = [] := fun hzero =>
    List.length_eq_zero_iff.mp (hlength.trans hzero)
  rcases look_cases c with ⟨hwritten, hc⟩ | ⟨hzero, hne, hc⟩ | ⟨hzero, heq, hended, hc⟩ |
    ⟨hzero, hused, hc⟩
  · have htext : c.text.isEmpty = false := by
      apply List.isEmpty_eq_false_iff.mpr
      apply List.ne_nil_of_length_pos
      omega
    rw [hc, outcomeAt, finish, htext]
    rfl
  · rw [hc, outcomeAt, hnone hzero]
    rfl
  · have htext := hnone hzero
    have hpending : c.buffers.decoder.pending = [] := Buffers.pending_eq_nil heq
    rw [hc, outcomeAt, htext]
    show handOut c.size (c.buffers.decoder.await c.text) = handOut c.size c.buffers.decoder.produce
    rw [htext, produce_of_empty hpending hended]
  · have htext := hnone hzero
    have hpending : c.buffers.decoder.pending = [] := Buffers.pending_eq_nil hused.2
    have hready : ({ c.buffers.decoder with ready := c.text } : Decoder σ) = c.buffers.decoder := by
      rw [htext, ← hvacant.ready_eq]
      rfl
    have hproduce : c.outcomeAt .look = handOut c.size (.ok (), c.buffers.decoder) := by
      rw [outcomeAt, htext]
      show handOut c.size c.buffers.decoder.produce = _
      rw [produce_of_used hpending hused.1]
    rw [hproduce, ← hready]
    rcases hc with hc | hc
    all_goals
      rw [hc]
      rfl

theorem Sound.outcome_fetch (h : c.Sound origin) (hp : c.point = .fetch) :
    c.fetch.outcome = c.outcomeAt .fetch := by
  obtain ⟨hvacant, hended, hroom⟩ := h.at_point hp
  rcases hr : c.buffers.fetch with ⟨e | u, b⟩
  · have hrefill := h.bounds.refill_decoder hroom hended hr
    simp only [Call.fetch, hr]
    rw [outcomeAt, await, hrefill]
    rfl
  · have hrefill := h.bounds.refill_decoder hroom hended hr
    have houtput : b.output = c.buffers.output := by
      rcases Buffers.fetch_cases hroom hr with ⟨bytes, inner, -, -, rfl⟩ | ⟨e, inner, -, -, rfl⟩
      all_goals rfl
    simp only [Call.fetch, hr]
    rw [outcomeAt, await, hrefill, text, ← houtput]
    rfl

theorem Sound.outcome_convert (h : c.Sound origin) (hp : c.point = .convert) :
    c.convert.outcome = c.outcomeAt .convert := by
  obtain ⟨hvacant, -, hlt⟩ := h.at_point hp
  have hsound := h.convert hp
  obtain ⟨now, conversion, hconvert, -, hsuffix, hc⟩ := h.convert_cases hp
  have hpending : c.buffers.decoder.pending ≠ [] := h.bounds.pending_ne_nil hlt
  have hproduce := produce_of_pending hpending (show _ = (now, conversion) from hconvert)
  have hrest : Bytes.between c.buffers.input (c.buffers.inEnd - conversion.rest.length)
      c.buffers.inEnd = conversion.rest :=
    Bytes.between_of_suffix (h.bounds.length_input ▸ h.bounds.inEnd_le) hsuffix
  have htext : c.convert.text = conversion.text := by
    have hwritten := Bytes.take_overwrite (Nat.zero_le c.buffers.output.length) conversion.text
    rw [Nat.zero_add, List.take_zero, List.nil_append] at hwritten
    rw [hc]
    exact hwritten
  have hleft : c.convert.buffers.pending = conversion.rest := by
    rw [hc]
    exact hrest
  have hpoint : c.convert.point = .stopped conversion.stop := by rw [hc]
  have hready : c.convert.buffers.ready = c.buffers.ready :=
    (hsound.at_point hpoint).1.ready_eq.trans hvacant.ready_eq.symm
  have hdecoder : c.convert.buffers.decoder =
      { c.buffers.decoder with encoding := now, pending := conversion.rest } := by
    show _ = Decoder.mk c.buffers.inner now conversion.rest c.buffers.ready c.buffers.ended
      c.buffers.closed
    rw [← hleft, ← hready, hc]
    rfl
  have hsize : c.convert.size = c.size := by rw [hc]
  rw [outcome, hpoint, outcomeAt, outcomeAt, hsize, hdecoder, htext, hleft, hproduce]

/-- A replacement is what a decoder makes of what it cannot convert. -/
theorem Sound.outcome_replace (h : c.Sound origin) {next : Nat} {rest : Bytes}
    (hnext : Bytes.between c.buffers.input next c.buffers.inEnd = rest) :
    (c.replace next).outcome = handOut c.size (.ok (), match replaced c.text with
      | some ready => { c.buffers.decoder with pending := rest, ready }
      | none => { c.buffers.decoder with ready := c.text }) := by
  have hlength := h.length_text
  rcases replace_cases c next with ⟨hroom, hc⟩ | ⟨hfull, -, hc⟩
  · have hreplaced : replaced c.text = some (c.text ++ replacement) := by
      rw [replaced, hlength, Charset.length_replacement, if_pos hroom]
    have hle : c.cursor ≤ c.buffers.output.length := by
      rw [h.bounds.length_output]
      exact h.cursor_le
    have hwritten : (Bytes.overwrite c.buffers.output c.cursor replacement).take (c.cursor + 3) =
        c.text ++ replacement :=
      Bytes.take_overwrite hle replacement
    rw [hreplaced, hc]
    show handOut c.size (finish { c.buffers.decoder with
        pending := Bytes.between c.buffers.input next c.buffers.inEnd, ready := _ }
      (List.take _ _)) = _
    rw [hwritten, hnext, finish, if_neg (by simp [Charset.replacement, Charset.encodeUtf8])]
  · have hreplaced : replaced c.text = none := by
      rw [replaced, hlength, Charset.length_replacement, if_neg (Nat.not_le.mpr hfull)]
    rw [hreplaced, hc]
    rfl

theorem Sound.outcome_resume (h : c.Sound origin) {stop : Stop} (hp : c.point = .stopped stop) :
    (c.resume stop).outcome = c.outcomeAt (.stopped stop) := by
  obtain ⟨-, hleaves⟩ := h.at_point hp
  have hstopped : c.outcomeAt (.stopped stop) = handOut c.size
    (c.buffers.decoder.resume ⟨c.text, c.buffers.pending, stop⟩) := rfl
  rw [hstopped, Decoder.resume]
  cases stop with
  | exhausted =>
    rw [if_neg (by simp)]
    show handOut c.size (c.buffers.decoder.finish c.text) = _
    rw [finish]
    by_cases htext : c.text.isEmpty = true
    · rw [if_pos htext, if_pos ⟨rfl, htext⟩]
    · rw [if_neg htext, if_neg fun hboth => htext hboth.2]
      rfl
  | full =>
    rw [if_neg (by simp), if_neg (by simp)]
    rfl
  | malformed =>
    have hnext : Bytes.between c.buffers.input (c.buffers.inStart + 1) c.buffers.inEnd =
        c.buffers.pending.tail := by
      rw [← Bytes.drop_between, List.drop_one]
      rfl
    rw [if_neg (by simp), if_neg (by simp)]
    show (c.replace (c.buffers.inStart + 1)).outcome = _
    rw [h.outcome_replace hnext, deliver]
    rcases replaced c.text with _ | ready
    all_goals rfl
  | incomplete =>
    by_cases hended : c.buffers.ended = true
    · have hnext : Bytes.between c.buffers.input c.buffers.inEnd c.buffers.inEnd = [] :=
        Bytes.between_eq_nil (Nat.le_refl _)
      have hnot : ¬ c.buffers.ended = false := by simp [hended]
      rw [if_neg fun hboth => hnot hboth.2, if_neg (by simp), Call.resume, if_pos hended,
        h.outcome_replace hnext, deliver]
      rcases replaced c.text with _ | ready
      all_goals rfl
    · have hopen : c.buffers.ended = false := by simpa using hended
      rw [if_pos ⟨rfl, hopen⟩, Call.resume, if_neg hended]
      rfl

theorem outcome_flush (c : Call σ) : c.flush.outcome = c.outcomeAt .flush := rfl

theorem Sound.outcome_leave (h : c.Sound origin) (hp : c.point = .leave) :
    c.leave.outcome = c.outcomeAt .leave := by
  obtain ⟨hvacant, -⟩ := h.at_point hp
  have hlength := h.length_text
  have hdecoder : ({ c.buffers with outEnd := c.cursor } : Buffers σ).decoder =
      { c.buffers.decoder with ready := c.text } := by
    show ({ c.buffers.decoder with
      ready := Bytes.between c.buffers.output c.buffers.outStart c.cursor } : Decoder σ) = _
    rw [hvacant.outStart_eq]
    rfl
  have hleave : c.outcomeAt .leave =
    handOut c.size (.ok (), { c.buffers.decoder with ready := c.text }) := rfl
  rw [hleave, ← hdecoder]
  unfold Call.leave
  by_cases hzero : c.cursor = 0
  · have htext : c.text = [] := List.length_eq_zero_iff.mp (hlength.trans hzero)
    rw [if_pos hzero, hdecoder, htext, handOut, List.take_nil, List.drop_nil, ← htext, ← hdecoder]
    rfl
  · have htext : c.text.isEmpty = false := by
      apply List.isEmpty_eq_false_iff.mpr
      apply List.ne_nil_of_length_pos
      omega
    rw [if_neg hzero]
    show handOut c.size (if (Buffers.decoder _).ready.isEmpty && _ then _ else _) = _
    rw [hdecoder, htext]
    rfl

/-- A step changes nothing about what the call will come to. -/
theorem Sound.outcome_step (h : c.Sound origin) : c.step.outcome = c.outcome := by
  rw [outcome.eq_def c]
  unfold Call.step
  split
  all_goals
    rename_i hpoint
    rw [hpoint]
  · exact h.outcome_serve
  · exact h.outcome_look hpoint
  · exact h.outcome_fetch hpoint
  · exact h.outcome_convert hpoint
  · exact h.outcome_resume hpoint
  · exact outcome_flush c
  · exact h.outcome_leave hpoint
  · rw [outcome, hpoint]

theorem Sound.outcome_after (h : c.Sound origin) (k : Nat) : (c.after k).outcome = c.outcome := by
  induction k generalizing c with
  | zero => rfl
  | succ k ih => exact (ih h.step).trans h.outcome_step

end

end Call

/-! ## All calls on a decoder -/

namespace Buffers

/-- What a decoder that was put in front of `inner` can come to: it has been read from and closed,
in any order. -/
inductive Reachable (inner : σ) (encoding : Encoding) : Buffers σ → Prop where
  | fresh : Reachable inner encoding { inner, encoding }
  | read {b : Buffers σ} {n k : Nat} {result : Except Error Bytes}
      (h : Reachable inner encoding b)
      (hover : ((Call.start n b).after k).point = .over result) :
      Reachable inner encoding ((Call.start n b).after k).buffers
  | close {b : Buffers σ} (h : Reachable inner encoding b) : Reachable inner encoding b.close.2

/-- The source has given nothing when it was last read, and all of its input is converted. -/
def Finished (origin : σ) (b : Buffers σ) : Prop :=
  b.inStart = b.inEnd ∧
    ∃ n s, 0 < n ∧ Source.ReadsTo origin s ∧ Source.read n s = (.ok [], b.inner)

section

variable {inner : σ} {encoding : Encoding} {b : Buffers σ}

theorem Knows.finished {origin : σ} (h : b.Knows origin) (hopen : b.closed = false)
    (hused : b.UsedUp) : b.Finished origin :=
  ⟨hused.2, (h hopen).2 hused.1⟩

/-- Closing does to a decoder with buffers what it does to one without. -/
theorem close_decoder (b : Buffers σ) : (b.close.1, b.close.2.decoder) = b.decoder.close := rfl

theorem Reachable.bounds_and_knows (h : b.Reachable inner encoding) :
    b.InBounds ∧ b.Knows inner := by
  induction h with
  | fresh => exact ⟨inBounds_fresh inner encoding, knows_fresh inner encoding⟩
  | @read b n k result _ _ ih =>
    have hsound := (Call.sound_start ih.1 ih.2 n).after k
    exact ⟨hsound.bounds, hsound.knows⟩
  | close _ ih =>
    obtain ⟨hbounds, -⟩ := ih
    exact ⟨{ hbounds with }, fun hopen => by cases hopen⟩

theorem Reachable.sound_start (h : b.Reachable inner encoding) (n : Nat) :
    (Call.start n b).Sound inner :=
  Call.sound_start h.bounds_and_knows.1 h.bounds_and_knows.2 n

end

end Buffers

namespace Call

/-- What must hold of a call at each of its steps. -/
structure Safe (origin : σ) (c : Call σ) : Prop where
  /-- The indices are in order, and nothing has been written past the end of a buffer. -/
  bounds : c.buffers.InBounds
  /-- Nor is the place to write at past the end. -/
  cursor_le : c.cursor ≤ outputCapacity
  /-- There is room for what is fetched. -/
  of_fetch : c.point = .fetch → c.buffers.inEnd - c.buffers.inStart < inputCapacity
  /-- There is a byte to pass over where a byte means nothing. -/
  of_malformed : c.point = .stopped .malformed → c.buffers.inStart < c.buffers.inEnd
  /-- The output is not full as long as it is empty. -/
  of_full : c.point = .stopped .full → 0 < c.cursor
  /-- A pass ends with nothing written only at the end of the source, and never for want of room. -/
  of_leave : c.point = .leave → c.cursor = 0 → c.buffers.Finished origin
  /-- So does a call, unless it asks for nothing or the decoder is closed. -/
  of_over : c.point = .over (.ok []) →
    c.size = 0 ∨ c.buffers.closed = true ∨ c.buffers.Finished origin

theorem Sound.safe {origin : σ} {c : Call σ} (h : c.Sound origin) : c.Safe origin where
  bounds := h.bounds
  cursor_le := h.cursor_le
  of_fetch hp := (h.at_point hp).2.2
  of_malformed hp := (h.at_point hp).2
  of_full hp := (h.at_point hp).2
  of_leave hp hzero :=
    have hleave := h.at_point hp
    h.knows.finished hleave.1.isOpen (hleave.2 hzero)
  of_over hp := by
    rcases h.at_point hp rfl with hsize | hclosed | hused
    · exact Or.inl hsize
    · exact Or.inr (Or.inl hclosed)
    · cases hopen : c.buffers.closed
      · exact Or.inr (Or.inr (h.knows.finished hopen hused))
      · exact Or.inr (Or.inl rfl)

end Call

/-- Every call on a decoder comes to an end, after a number of steps that what is left of the source
decides, and with the answer and the decoder that `Decoder.read` gives. At each of its steps the
indices stay in their buffers, and it gives up only at the end of the source. -/
theorem Buffers.read_ends_in_bounds {inner : σ} {encoding : Encoding} {b : Buffers σ}
    (h : b.Reachable inner encoding) (n : Nat) :
    (∃ k result, k ≤ 8 * Source.left b.inner + 17 ∧
      ((Call.start n b).after k).point = .over result ∧
      b.decoder.read n = (result, ((Call.start n b).after k).buffers.decoder)) ∧
    ∀ k, ((Call.start n b).after k).Safe inner := by
  have hsound := h.sound_start n
  refine ⟨?_, fun k => (hsound.after k).safe⟩
  obtain ⟨k, result, hk, hover⟩ := hsound.exists_over
  refine ⟨k, result, Nat.le_trans hk (Call.stepsLeft_start_le n b), hover, ?_⟩
  rw [← Call.outcome_start, ← hsound.outcome_after k, Call.outcome, hover]
  rfl

/-- The first piece ends inside a character, so that the call fetches input with some at hand. -/
theorem Buffers.read_ends_in_bounds_cut_character :
    let inner : Memory := { rest := [0x61, 0xe2, 0x82, 0xac], step := 3 }
    let b : Buffers Memory := { inner, encoding := .plain .utf8 }
    b.Reachable inner (.plain .utf8) ∧
      (∃ k, k ≤ 49 ∧ ((Call.start 16 b).after k).point = .over (.ok [0x61])) ∧
      ∀ k, ((Call.start 16 b).after k).Safe inner := by
  intro inner b
  have hreachable : b.Reachable inner (.plain .utf8) := .fresh
  obtain ⟨⟨k, result, hk, hover, hread⟩, hsafe⟩ := read_ends_in_bounds hreachable 16
  have hanswer : (({ inner, encoding := .plain .utf8 } : Decoder Memory).read 16).1 =
      .ok [0x61] := by
    cbv
  have hresult : result = .ok [0x61] := (congrArg Prod.fst hread).symm.trans hanswer
  rw [hresult] at hover
  exact ⟨hreachable, ⟨k, hk, hover⟩, hsafe⟩

end TextLines.Decoder
