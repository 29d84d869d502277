import TextLines.Proofs.Charset.Buffers

/-!
# The steps of a call through buffers

A call that reads through buffers has an invariant, `Call.Sound`: the indices are in order, nothing
has been written past the end of a buffer, and where the call stands decides what else is known.
Fetching is safe because what stops a conversion inside a character is shorter than the buffer. A
byte to pass over is there because a conversion stops in front of it. A pass that leaves with
nothing has found nothing, since a conversion into an empty buffer has room for any character, and
so has a replacement. `Call.Sound.step` is the step lemma.

`Call.stepsLeft` bounds the steps that are left. A pass may go on because of the input, of a fetch,
of the end of the source or of what has been written, and the bound weighs them against each other:
each step takes from it (`Call.Sound.stepsLeft_step`). So every call comes to an end
(`Call.Sound.exists_over`).
-/

namespace TextLines.Decoder

open Charset (Stop replacement)

namespace Call

variable {σ : Type} [Source σ]

/-! ## What holds at each step -/

/-- What a conversion leaves when it stops. -/
def Leaves (c : Call σ) : Stop → Prop
  | .exhausted => c.buffers.inStart = c.buffers.inEnd
  | .malformed => c.buffers.inStart < c.buffers.inEnd
  | .incomplete => c.buffers.inStart < c.buffers.inEnd ∧
      c.buffers.inEnd - c.buffers.inStart < inputCapacity
  | .full => 0 < c.cursor

/-- What is known of a call at a point. -/
def Holds (c : Call σ) : Point → Prop
  | .serve => True
  | .look => c.buffers.Vacant
  | .fetch => c.buffers.Vacant ∧ c.buffers.ended = false ∧
      c.buffers.inEnd - c.buffers.inStart < inputCapacity
  | .convert => c.buffers.Vacant ∧ c.cursor = 0 ∧ c.buffers.inStart < c.buffers.inEnd
  | .stopped stop => c.buffers.Vacant ∧ c.Leaves stop
  | .flush => c.buffers.Vacant ∧ c.cursor = 0 ∧ c.buffers.UsedUp
  | .leave => c.buffers.Vacant ∧ (c.cursor = 0 → c.buffers.UsedUp)
  | .over result => result = .ok [] →
      c.size = 0 ∨ c.buffers.closed = true ∨ c.buffers.UsedUp

/-- The invariant of a call. -/
structure Sound (origin : σ) (c : Call σ) : Prop where
  bounds : c.buffers.InBounds
  cursor_le : c.cursor ≤ outputCapacity
  knows : c.buffers.Knows origin
  holds : c.Holds c.point

section

variable {origin : σ} {c : Call σ}

theorem sound_start {b : Buffers σ} (h : b.InBounds) (hknows : b.Knows origin) (n : Nat) :
    (start n b).Sound origin := by
  refine ⟨h, Nat.zero_le _, hknows, ?_⟩
  unfold start
  by_cases hn : n = 0
  · rw [if_pos hn]
    exact fun _ => Or.inl hn
  · rw [if_neg hn]
    trivial

theorem Sound.at_point (h : c.Sound origin) {point : Point} (hp : c.point = point) :
    c.Holds point :=
  hp ▸ h.holds

theorem Sound.serve (h : c.Sound origin) : c.serve.Sound origin := by
  obtain ⟨hbounds, hcursor, hknows, -⟩ := h
  have hle := hbounds.outStart_le
  rcases serve_cases c with ⟨-, hclosed, hc⟩ | ⟨-, hopen, hc⟩ | ⟨hne, hc⟩
  · rw [hc]
    exact ⟨hbounds, hcursor, hknows, fun _ => Or.inr (Or.inl hclosed)⟩
  · rw [hc]
    refine ⟨?_, Nat.zero_le _, hknows, hopen, rfl, rfl⟩
    exact { hbounds with outStart_le := Nat.le_refl 0, outEnd_le := Nat.zero_le _ }
  · rw [hc]
    refine ⟨?_, hcursor, hknows, fun hnil => Or.inl ?_⟩
    · refine { hbounds with outStart_le := ?_ }
      show c.buffers.outStart + min c.size (c.buffers.outEnd - c.buffers.outStart) ≤
        c.buffers.outEnd
      omega
    · -- Something is there, so that nothing comes only if nothing was asked for.
      have hlength := congrArg List.length (Except.ok.inj hnil)
      rw [List.length_take, hbounds.length_ready, List.length_nil] at hlength
      show c.size = 0
      omega

theorem Sound.look (h : c.Sound origin) (hp : c.point = .look) : c.look.Sound origin := by
  have hvacant : c.buffers.Vacant := h.at_point hp
  obtain ⟨hbounds, hcursor, hknows, -⟩ := h
  rcases look_cases c with ⟨hwritten, hc⟩ | ⟨hzero, hne, hc⟩ | ⟨-, heq, hended, hc⟩ |
    ⟨hzero, hused, hc | hc⟩
  · rw [hc]
    exact ⟨hbounds, hcursor, hknows, hvacant, fun hzero => absurd hzero hwritten⟩
  · rw [hc]
    exact ⟨hbounds, hcursor, hknows, hvacant, hzero, Nat.lt_of_le_of_ne hbounds.inStart_le hne⟩
  · rw [hc]
    refine ⟨hbounds, hcursor, hknows, hvacant, hended, ?_⟩
    show c.buffers.inEnd - c.buffers.inStart < inputCapacity
    rw [heq, Nat.sub_self]
    decide
  · rw [hc]
    exact ⟨hbounds, hcursor, hknows, hvacant, fun _ => hused⟩
  · rw [hc]
    exact ⟨hbounds, hcursor, hknows, hvacant, hzero, hused⟩

theorem Sound.fetch (h : c.Sound origin) (hp : c.point = .fetch) : c.fetch.Sound origin := by
  obtain ⟨hvacant, hended, hroom⟩ := h.at_point hp
  obtain ⟨hbounds, hcursor, hknows, -⟩ := h
  rcases hr : c.buffers.fetch with ⟨e | u, b⟩
  all_goals
    have hbounds' := hbounds.fetch hroom hr
    have hknows' := hknows.fetch hvacant.isOpen hended hroom hr
    simp only [Call.fetch, hr]
  · exact ⟨hbounds', hcursor, hknows', fun hnil => by cases hnil⟩
  · exact ⟨hbounds', hcursor, hknows', hvacant.fetch hroom hr⟩

/-- All that converting does where a call does it: what is converted is written, and what is left is
the end of the input. -/
theorem Sound.convert_cases (h : c.Sound origin) (hp : c.point = .convert) :
    ∃ now conversion, convertInto c.buffers.encoding outputCapacity c.buffers.pending =
        (now, conversion) ∧
      conversion.text.length ≤ outputCapacity ∧ conversion.rest <:+ c.buffers.pending ∧
      c.convert = { c with
        buffers := { c.buffers with
          encoding := now
          inStart := c.buffers.inEnd - conversion.rest.length
          output := Bytes.overwrite c.buffers.output 0 conversion.text }
        cursor := conversion.text.length
        point := .stopped conversion.stop } := by
  obtain ⟨-, hzero, -⟩ := h.at_point hp
  have hfits := convertInto_fits c.buffers.encoding outputCapacity c.buffers.pending
  have hsuffix := convertInto_suffix c.buffers.encoding outputCapacity c.buffers.pending
  rcases hconvert : convertInto c.buffers.encoding outputCapacity c.buffers.pending with
    ⟨now, conversion⟩
  rw [hconvert] at hfits hsuffix
  refine ⟨now, conversion, rfl, hfits, hsuffix, ?_⟩
  simp only [Call.convert, hzero, Nat.sub_zero, Nat.zero_add, hconvert]

theorem Sound.convert (h : c.Sound origin) (hp : c.point = .convert) : c.convert.Sound origin := by
  obtain ⟨hvacant, -, hlt⟩ := h.at_point hp
  obtain ⟨now, conversion, hconvert, hfits, hsuffix, hc⟩ := h.convert_cases hp
  obtain ⟨hbounds, -, hknows, -⟩ := h
  have hle := hsuffix.length_le
  rw [hbounds.length_pending] at hle
  have hpending : c.buffers.pending ≠ [] := by
    apply List.ne_nil_of_length_pos
    rw [hbounds.length_pending]
    omega
  have hpaused : Paused now conversion := by
    have hpaused := convertPending_paused (d := c.buffers.decoder) hpending
    rwa [show c.buffers.decoder.convertPending = (now, conversion) from hconvert] at hpaused
  have hrest : conversion.stop ≠ .exhausted → conversion.rest ≠ [] :=
    (convertPending_length (d := c.buffers.decoder) hconvert).2 hpending
  have hlength : 0 + conversion.text.length ≤ c.buffers.output.length := by
    rw [hbounds.length_output]
    omega
  rw [hc]
  refine ⟨?_, hfits, hknows, { hvacant with }, ?_⟩
  · refine { hbounds with inStart_le := Nat.sub_le _ _, length_output := ?_ }
    show (Bytes.overwrite c.buffers.output 0 conversion.text).length = outputCapacity
    rw [Bytes.length_overwrite hlength, hbounds.length_output]
  · cases hpaused with
    | exhausted => exact Nat.sub_zero _
    | @malformed text rest b =>
      show c.buffers.inEnd - (rest.length + 1) < c.buffers.inEnd
      omega
    | @incomplete text rest hshort =>
      have hpos : 0 < rest.length := List.length_pos_iff.mpr (hrest (by simp))
      have hcapacity : inputCapacity = 16384 := rfl
      constructor
      · show c.buffers.inEnd - rest.length < c.buffers.inEnd
        omega
      · show c.buffers.inEnd - (c.buffers.inEnd - rest.length) < inputCapacity
        omega
    | full htext => exact List.length_pos_iff.mpr htext

theorem Sound.replace (h : c.Sound origin) (hvacant : c.buffers.Vacant) {next : Nat}
    (hnext : next ≤ c.buffers.inEnd) : (c.replace next).Sound origin := by
  obtain ⟨hbounds, hcursor, hknows, -⟩ := h
  rcases replace_cases c next with ⟨hroom, hc⟩ | ⟨-, hwritten, hc⟩
  · have hlength : c.cursor + replacement.length ≤ c.buffers.output.length := by
      rw [hbounds.length_output, Charset.length_replacement]
      exact hroom
    rw [hc]
    refine ⟨?_, hroom, hknows, { hvacant with }⟩
    refine { hbounds with inStart_le := hnext, length_output := ?_ }
    show (Bytes.overwrite c.buffers.output c.cursor replacement).length = outputCapacity
    rw [Bytes.length_overwrite hlength, hbounds.length_output]
  · rw [hc]
    exact ⟨hbounds, hcursor, hknows, hvacant, fun hzero => absurd hzero (Nat.ne_of_gt hwritten)⟩

theorem Sound.resume (h : c.Sound origin) {stop : Stop} (hp : c.point = .stopped stop) :
    (c.resume stop).Sound origin := by
  obtain ⟨hvacant, hleaves⟩ := h.at_point hp
  cases stop with
  | exhausted => exact ⟨h.bounds, h.cursor_le, h.knows, hvacant⟩
  | full =>
    refine ⟨h.bounds, h.cursor_le, h.knows, hvacant, fun hzero => ?_⟩
    exact absurd hzero (Nat.ne_of_gt hleaves)
  | malformed =>
    apply h.replace hvacant
    exact hleaves
  | incomplete =>
    unfold Call.resume
    by_cases hended : c.buffers.ended = true
    · rw [if_pos hended]
      exact h.replace hvacant (Nat.le_refl _)
    · rw [if_neg hended]
      exact ⟨h.bounds, h.cursor_le, h.knows, hvacant, by simpa using hended, hleaves.2⟩

theorem Sound.flush (h : c.Sound origin) (hp : c.point = .flush) : c.flush.Sound origin := by
  obtain ⟨hvacant, -, hused⟩ := h.at_point hp
  obtain ⟨hbounds, hcursor, hknows, -⟩ := h
  exact ⟨{ hbounds with }, hcursor, hknows, { hvacant with }, fun _ => hused⟩

theorem Sound.leave (h : c.Sound origin) (hp : c.point = .leave) : c.leave.Sound origin := by
  obtain ⟨hvacant, hnone⟩ := h.at_point hp
  obtain ⟨hbounds, hcursor, hknows, -⟩ := h
  refine ⟨?_, hcursor, hknows, ?_⟩
  · refine { hbounds with outStart_le := ?_, outEnd_le := hcursor }
    show c.buffers.outStart ≤ c.cursor
    rw [hvacant.outStart_eq]
    exact Nat.zero_le _
  · unfold Call.leave
    by_cases hzero : c.cursor = 0
    · rw [if_pos hzero]
      exact fun _ => Or.inr (Or.inr (hnone hzero))
    · rw [if_neg hzero]
      trivial

/-- Every step keeps the invariant. -/
theorem Sound.step (h : c.Sound origin) : c.step.Sound origin := by
  unfold Call.step
  split
  · exact h.serve
  · rename_i hp
    exact h.look hp
  · rename_i hp
    exact h.fetch hp
  · rename_i hp
    exact h.convert hp
  · rename_i stop hp
    exact h.resume hp
  · rename_i hp
    exact h.flush hp
  · rename_i hp
    exact h.leave hp
  · exact h

theorem Sound.after (h : c.Sound origin) (k : Nat) : (c.after k).Sound origin := by
  induction k generalizing c with
  | zero => exact h
  | succ k ih => exact ih h.step

end

/-! ## The end of a call -/

/-- What a call weighs at a point. A piece of work takes four steps, and as soon as something is
written there are at most five. -/
def weight (c : Call σ) : Point → Nat
  | .serve => if c.buffers.outStart = c.buffers.outEnd then 4 * c.buffers.backlog + 5 else 1
  | .look => if c.cursor = 0 then 4 * c.buffers.backlog + 4 else 3
  | .fetch => if c.cursor = 0 then 4 * c.buffers.backlog + 1 else 4
  | .convert => 4 * c.buffers.backlog + 3
  | .stopped .exhausted => if c.cursor = 0 then 4 * c.buffers.backlog + 5 else 5
  | .stopped _ => if c.cursor = 0 then 4 * c.buffers.backlog + 2 else 5
  | .flush => 3
  | .leave => if c.cursor = 0 then 1 else 2
  | .over _ => 0

/-- A bound on the steps that are left. -/
def stepsLeft (c : Call σ) : Nat := c.weight c.point

section

variable {origin : σ} {c : Call σ}

theorem stepsLeft_serve (c : Call σ) : c.serve.stepsLeft < c.weight .serve := by
  rcases serve_cases c with ⟨heq, -, hc⟩ | ⟨heq, -, hc⟩ | ⟨hne, hc⟩
  · rw [hc, weight, if_pos heq]
    exact Nat.succ_pos _
  · rw [hc, weight, if_pos heq]
    exact Nat.lt_succ_self _
  · rw [hc, weight, if_neg hne]
    exact Nat.zero_lt_one

theorem stepsLeft_look (c : Call σ) : c.look.stepsLeft < c.weight .look := by
  rcases look_cases c with ⟨hwritten, hc⟩ | ⟨hzero, -, hc⟩ | ⟨hzero, -, -, hc⟩ |
    ⟨hzero, -, hc | hc⟩
  · rw [hc, weight, if_neg hwritten]
    show (if c.cursor = 0 then 1 else 2) < 3
    rw [if_neg hwritten]
    omega
  · rw [hc, weight, if_pos hzero]
    exact Nat.lt_succ_self _
  · rw [hc, weight, if_pos hzero]
    show (if c.cursor = 0 then 4 * c.buffers.backlog + 1 else 4) < _
    rw [if_pos hzero]
    omega
  · rw [hc, weight, if_pos hzero]
    show (if c.cursor = 0 then 1 else 2) < _
    rw [if_pos hzero]
    omega
  · rw [hc, weight, if_pos hzero]
    show 3 < _
    omega

theorem Sound.stepsLeft_fetch (h : c.Sound origin) (hp : c.point = .fetch) :
    c.fetch.stepsLeft < c.weight .fetch := by
  obtain ⟨-, hended, hroom⟩ := h.at_point hp
  rcases hr : c.buffers.fetch with ⟨e | u, b⟩
  · simp only [Call.fetch, hr, weight]
    show 0 < _
    split <;> omega
  · have hlt := h.bounds.backlog_fetch hroom hended hr
    simp only [Call.fetch, hr, weight]
    show (if c.cursor = 0 then 4 * b.backlog + 4 else 3) < _
    split <;> omega

theorem Sound.stepsLeft_convert (h : c.Sound origin) (hp : c.point = .convert) :
    c.convert.stepsLeft < c.weight .convert := by
  obtain ⟨-, -, hlt⟩ := h.at_point hp
  have hpos := Buffers.backlog_pos hlt
  have hsound := h.convert hp
  obtain ⟨now, ⟨text, rest, stop⟩, -, -, -, hc⟩ := h.convert_cases hp
  have hpoint : c.convert.point = .stopped stop := by rw [hc]
  obtain ⟨hle, hless⟩ : c.convert.buffers.backlog ≤ c.buffers.backlog ∧
      (c.convert.buffers.inStart = c.convert.buffers.inEnd →
        c.convert.buffers.backlog < c.buffers.backlog) := by
    rw [hc]
    exact Buffers.backlog_convert hlt now _ _
  obtain ⟨-, hleaves⟩ := hsound.at_point hpoint
  rw [stepsLeft, hpoint]
  cases stop with
  | exhausted =>
    have hless := hless hleaves
    simp only [weight]
    split <;> omega
  | malformed | incomplete | full =>
    simp only [weight]
    split <;> omega

theorem stepsLeft_replace (hlt : c.buffers.inStart < c.buffers.inEnd) (next : Nat) :
    (c.replace next).stepsLeft < if c.cursor = 0 then 4 * c.buffers.backlog + 2 else 5 := by
  have hpos := Buffers.backlog_pos hlt
  rcases replace_cases c next with ⟨-, hc⟩ | ⟨-, hwritten, hc⟩
  · rw [hc]
    show 3 < _
    split <;> omega
  · have hne : c.cursor ≠ 0 := Nat.ne_of_gt hwritten
    rw [hc, if_neg hne]
    show (if c.cursor = 0 then 1 else 2) < 5
    rw [if_neg hne]
    omega

theorem Sound.stepsLeft_resume (h : c.Sound origin) {stop : Stop} (hp : c.point = .stopped stop) :
    (c.resume stop).stepsLeft < c.weight (.stopped stop) := by
  obtain ⟨-, hleaves⟩ := h.at_point hp
  cases stop with
  | exhausted =>
    show (if c.cursor = 0 then 4 * c.buffers.backlog + 4 else 3) <
      if c.cursor = 0 then 4 * c.buffers.backlog + 5 else 5
    split <;> omega
  | full =>
    have hne : c.cursor ≠ 0 := Nat.ne_of_gt hleaves
    show (if c.cursor = 0 then 1 else 2) < if c.cursor = 0 then _ else 5
    rw [if_neg hne, if_neg hne]
    omega
  | malformed => exact stepsLeft_replace hleaves _
  | incomplete =>
    unfold Call.resume
    by_cases hended : c.buffers.ended = true
    · rw [if_pos hended]
      exact stepsLeft_replace hleaves.1 _
    · rw [if_neg hended]
      show (if c.cursor = 0 then 4 * c.buffers.backlog + 1 else 4) <
        if c.cursor = 0 then 4 * c.buffers.backlog + 2 else 5
      split <;> omega

theorem stepsLeft_flush (c : Call σ) : c.flush.stepsLeft < c.weight .flush := by
  show (if c.cursor = 0 then 1 else 2) < 3
  split <;> omega

theorem Sound.stepsLeft_leave (h : c.Sound origin) (hp : c.point = .leave) :
    c.leave.stepsLeft < c.weight .leave := by
  obtain ⟨hvacant, -⟩ := h.at_point hp
  unfold Call.leave
  by_cases hzero : c.cursor = 0
  · rw [if_pos hzero, weight, if_pos hzero]
    exact Nat.zero_lt_one
  · rw [if_neg hzero, weight, if_neg hzero]
    -- What was written is there to be served.
    show (if c.buffers.outStart = c.cursor then _ else 1) < 2
    rw [hvacant.outStart_eq, if_neg (Ne.symm hzero)]
    omega

/-- Every step takes from the steps that are left, until the call is over. -/
theorem Sound.stepsLeft_step (h : c.Sound origin) (hp : ∀ result, c.point ≠ .over result) :
    c.step.stepsLeft < c.stepsLeft := by
  rw [stepsLeft.eq_def c]
  unfold Call.step
  split
  all_goals
    rename_i hpoint
    rw [hpoint]
  · exact stepsLeft_serve c
  · exact stepsLeft_look c
  · exact h.stepsLeft_fetch hpoint
  · exact h.stepsLeft_convert hpoint
  · exact h.stepsLeft_resume hpoint
  · exact stepsLeft_flush c
  · exact h.stepsLeft_leave hpoint
  · exact absurd hpoint (hp _)

/-- A call is over when the steps that were left have been taken. -/
theorem Sound.exists_over (h : c.Sound origin) :
    ∃ k result, k ≤ c.stepsLeft ∧ (c.after k).point = .over result := by
  induction hn : c.stepsLeft using Nat.strongRecOn generalizing c with
  | ind n ih =>
    by_cases hover : ∃ result, c.point = .over result
    · obtain ⟨result, hover⟩ := hover
      exact ⟨0, result, Nat.zero_le n, hover⟩
    · have hlt := h.stepsLeft_step fun result hp => hover ⟨result, hp⟩
      rw [hn] at hlt
      obtain ⟨k, result, hk, hover⟩ := ih c.step.stepsLeft hlt h.step rfl
      exact ⟨k + 1, result, by omega, hover⟩

/-- How long a call can take is decided by what the source has left. -/
theorem stepsLeft_start_le (n : Nat) (b : Buffers σ) :
    (start n b).stepsLeft ≤ 8 * Source.left b.inner + 17 := by
  have hbacklog : b.backlog ≤ 2 * Source.left b.inner + 3 := by
    rw [Buffers.backlog]
    split <;> split <;> omega
  unfold start
  by_cases hn : n = 0
  · rw [if_pos hn]
    exact Nat.zero_le _
  · rw [if_neg hn]
    show (if b.outStart = b.outEnd then 4 * b.backlog + 5 else 1) ≤ _
    split <;> omega

end

end Call

end TextLines.Decoder
