import TextLines.Proofs.Document.Consumer
import TextLines.Proofs.Line.Breaking

/-!
# Streams that break off

A stream over a source that breaks off has no end. As long as it is not closed no operation says
that the lines have come to one (`StreamOp.SaysEnd`); the step lemma is `streamStep_continues`, with
a case for every operation. `Consumer.run_of_breaksOff` carries it over any history of a caller, and
it adds that the lines in front of the first failure are settled (`Line.Settled`). That a caller who
goes on taking lines does meet a failure is `Consumer.run_fails`.
-/

namespace TextLines

open Line (Attempt Account)

/-- An answer that says that the lines have come to an end, or that the stream is closed. A loop
with a limit that has not been reached says so, too. -/
def StreamOp.SaysEnd : StreamOp → Answer → Prop
  | .hasMore, .truth more => more = false
  | .isClosed, .truth closed => closed = true
  | .borrow, .failed e | .take, .failed e => e = .noMoreLines
  | .range limit, .lines taken failure =>
    failure = none ∧ ∀ most, limit = some most → taken.length < max most 1
  | .start, .iterator atEnd => atEnd = true
  | _, _ => False

/-- The failure that an answer is about. -/
def Answer.failure? : Answer → Option Error
  | .failed e => some e
  | .lines _ failure => failure
  | .visited _ (.error e) _ => some e
  | _ => none

variable {σ : Type} [Source σ] {faults : Error → Prop} {R : σ → Bytes → Prop} {data : Bytes}

namespace Consumer

/-! ## One operation -/

/-- What an operation on a stream comes to that has not met the end. -/
structure Continues (R : σ → Bytes → Prop) (op : StreamOp) (answer : Answer) (st : Stream σ) :
    Prop where
  endless : st.cursor.Endless R
  iterator : st.iterator ≠ .atEnd
  goesOn : ¬ op.SaysEnd answer
  isReading : ∀ e, answer.failure? = some e → e.IsReading

theorem moveIterator_continues (hR : Source.Breakage faults R)
    (hfaults : ∀ e, faults e → e.IsReading) {op : StreamOp} (hop : op = .start ∨ op = .advance)
    {st : Stream σ} (h : st.cursor.Endless R) (hit : st.iterator ≠ .atEnd) :
    Continues R op (Session.moveIterator st).1 (Session.moveIterator st).2 := by
  have hmore := Cursor.hasMore_endless hR hfaults h
  unfold Session.moveIterator
  rcases hc : st.cursor.hasMore with ⟨e | (_ | _), c'⟩
  · rw [hc] at hmore
    refine ⟨hmore.1, hit, by rcases hop with rfl | rfl <;> exact id, fun e' he => ?_⟩
    obtain rfl := Option.some.inj he
    exact hmore.2.2 e rfl
  · rw [hc] at hmore
    exact absurd rfl hmore.2.1
  · rw [hc] at hmore
    refine ⟨hmore.1.taken, by simp, ?_, fun e he => by cases he⟩
    rcases hop with rfl | rfl <;> simp [StreamOp.SaysEnd]

theorem next_continues (hR : Source.Breakage faults R) (hfaults : ∀ e, faults e → e.IsReading)
    {op : StreamOp} (hop : op = .borrow ∨ op = .take) {c : Cursor σ} (h : c.Endless R) :
    c.next.2.Endless R ∧ ¬ op.SaysEnd (Session.answer .line c.next.1) ∧
      ∀ e, (Session.answer .line c.next.1).failure? = some e → e.IsReading := by
  obtain ⟨hnext, hreading⟩ := Cursor.next_endless hR hfaults h
  refine ⟨hnext, ?_⟩
  rcases hr : c.next.1 with e | line
  · obtain ⟨fault, rfl⟩ := hreading e hr
    refine ⟨?_, fun e' he => ?_⟩
    · rcases hop with rfl | rfl <;> simp [StreamOp.SaysEnd, Session.answer]
    · obtain rfl := Option.some.inj he
      exact ⟨fault, rfl⟩
  · refine ⟨?_, fun e' he => by cases he⟩
    rcases hop with rfl | rfl <;> exact id

/-- A loop that has been stopped has reached its limit. -/
theorem range_of_stopped {most : Option Nat} {c : Cursor σ}
    (h : (Session.range most c).ending = .stopped) :
    ∃ limit, most = some limit ∧ max limit 1 ≤ (Session.range most c).value.1.length := by
  have hcounts : ∀ line (v v' : List Bytes × Nat), v.2 = v.1.length →
      (rangeVisit most line v = .goOn v' ∨ rangeVisit most line v = .stop v') →
        v' = (line :: v.1, v.2 + 1) := by
    intro line v v' _ hv'
    rcases rangeVisit_cases most line v with hcase | hcase <;> rw [hcase] at hv'
    · rcases hv' with hv' | hv'
      · exact (Cursor.Visit.goOn.inj hv').symm
      · cases hv'
    · rcases hv' with hv' | hv'
      · cases hv'
      · exact (Cursor.Visit.stop.inj hv').symm
  rw [range_eq_walk] at h ⊢
  refine (Cursor.walk_keeps (rangeVisit most) (P := fun v => v.2 = v.1.length)
    (Q := fun v => ∃ limit, most = some limit ∧ max limit 1 ≤ v.1.length)
    (fun line v v' hv hgone => ?_) (fun line v v' hv hstopped => ?_) rfl c).1 h
  · rw [hcounts line v v' hv (.inl hgone), List.length_cons, hv]
  · obtain rfl := hcounts line v v' hv (.inr hstopped)
    unfold rangeVisit at hstopped
    split at hstopped
    · rename_i limit
      split at hstopped
      · rename_i hle
        refine ⟨limit, rfl, ?_⟩
        rw [List.length_cons, ← hv]
        omega
      · cases hstopped
    · cases hstopped

theorem range_continues (hR : Source.Breakage faults R) (hfaults : ∀ e, faults e → e.IsReading)
    (most : Option Nat) {st : Stream σ} (h : st.cursor.Endless R) (hit : st.iterator ≠ .atEnd) :
    Continues R (.range most) (Session.streamStep (.range most) st).1
      (Session.streamStep (.range most) st).2 := by
  obtain ⟨hendless, hnot, hreading⟩ :=
    Cursor.walk_endless hR hfaults (rangeVisit most) ([], 0) h
  have hstopped : (Session.range most st.cursor).ending = .stopped → _ := range_of_stopped
  rw [range_eq_walk] at hstopped
  rw [Session.streamStep, range_eq_walk]
  generalize st.cursor.walk (rangeVisit most) ([], 0) = w at hendless hnot hreading hstopped
  rcases w with ⟨_ | _ | e, v, c⟩
  · exact absurd rfl hnot
  · obtain ⟨limit, rfl, hle⟩ := hstopped rfl
    refine ⟨hendless, hit, ?_, fun e he => by cases he⟩
    rintro ⟨-, hshort⟩
    have hlt := hshort limit rfl
    rw [List.length_reverse] at hlt
    exact absurd hlt (Nat.not_lt.mpr hle)
  · refine ⟨hendless, hit, fun hend => (by cases hend.1), fun e' he => ?_⟩
    obtain rfl := Option.some.inj he
    exact hreading e rfl

/-- No operation that does not close the stream comes to the end. -/
theorem streamStep_continues (hR : Source.Breakage faults R)
    (hfaults : ∀ e, faults e → e.IsReading) {op : StreamOp} (hop : ¬ op.Closes) {st : Stream σ}
    (h : st.cursor.Endless R) (hit : st.iterator ≠ .atEnd) :
    Continues R op (Session.streamStep op st).1 (Session.streamStep op st).2 := by
  cases op with
  | hasMore =>
    obtain ⟨hnext, hmore, hreading⟩ := Cursor.hasMore_endless hR hfaults h
    rw [Session.streamStep]
    rcases hc : st.cursor.hasMore with ⟨e | b, c'⟩
    · rw [hc] at hnext hreading
      refine ⟨hnext, hit, id, fun e' he => ?_⟩
      obtain rfl := Option.some.inj he
      exact hreading e rfl
    · rw [hc] at hnext hmore
      exact ⟨hnext, hit, fun hend => hmore (congrArg Except.ok hend), fun e he => by cases he⟩
  | borrow =>
    obtain ⟨hnext, hgoesOn, hreading⟩ := next_continues hR hfaults (.inl rfl) h
    exact ⟨hnext, hit, hgoesOn, hreading⟩
  | take =>
    obtain ⟨hnext, hgoesOn, hreading⟩ := next_continues hR hfaults (.inr rfl) h
    exact ⟨hnext, hit, hgoesOn, hreading⟩
  | close | drop => exact absurd trivial hop
  | isClosed =>
    refine ⟨h, hit, fun hend => ?_, fun e he => by cases he⟩
    have hclosed : st.cursor.isClosed = true := hend
    rw [h.isClosed] at hclosed
    cases hclosed
  | range most => exact range_continues hR hfaults most h hit
  | start => exact moveIterator_continues hR hfaults (.inl rfl) h hit
  | advance =>
    rw [Session.streamStep]
    split
    · exact moveIterator_continues hR hfaults (.inr rfl) h hit
    · exact ⟨h, hit, id, fun e he => by cases he⟩
  | current =>
    rw [Session.streamStep]
    split
    · exact ⟨h, hit, id, fun e he => by cases he⟩
    · exact ⟨h, hit, id, fun e he => by cases he⟩
  | lentLine | bytesRead => exact ⟨h, hit, id, fun e he => by cases he⟩

/-! ## Histories -/

/-- A caller to whom nothing has come to an end. -/
structure Endless (R : σ → Bytes → Prop) (c : Consumer σ) : Prop where
  cursor : c.stream.cursor.Endless R
  iterators : ∀ i, c.iterators i ≠ .atEnd

theorem step_continues (hR : Source.Breakage faults R) (hfaults : ∀ e, faults e → e.IsReading)
    {c : Consumer σ} (h : c.Endless R) (call : Nat × StreamOp) (hcall : ¬ call.2.Closes) :
    (c.step call).2.Endless R ∧ ¬ call.2.SaysEnd (c.step call).1 ∧
      ∀ e, (c.step call).1.failure? = some e → e.IsReading := by
  have hst : ({ c.stream with iterator := c.iterators call.1 } : Stream σ).cursor.Endless R :=
    h.cursor
  obtain ⟨hendless, hiterator, hgoesOn, hreading⟩ :=
    streamStep_continues hR hfaults hcall hst (h.iterators call.1)
  refine ⟨⟨hendless, fun i => ?_⟩, hgoesOn, hreading⟩
  show Function.update c.iterators call.1 _ i ≠ .atEnd
  by_cases hi : i = call.1
  · rw [hi, Function.update_self]
    exact hiterator
  · rw [Function.update_of_ne hi]
    exact h.iterators i

theorem run_endless (hR : Source.Breakage faults R) (hfaults : ∀ e, faults e → e.IsReading)
    {calls : List (Nat × StreamOp)} (hcalls : ∀ call ∈ calls, ¬ call.2.Closes) {c : Consumer σ}
    (h : c.Endless R) : (c.run calls).Endless R := by
  induction calls generalizing c with
  | nil => exact h
  | cons call calls ih =>
    exact ih (fun call hmem => hcalls call (List.mem_cons_of_mem _ hmem))
      (step_continues hR hfaults h call (hcalls call List.mem_cons_self)).1

omit [Source σ] in
theorem endless_ofSource {source : σ} (h : R source data) (chunkBytes maxLineBytes : Nat) :
    (ofSource source chunkBytes maxLineBytes).Endless R :=
  ⟨Cursor.endless_ofSource h chunkBytes maxLineBytes, fun _ => by simp [ofSource]⟩

/-- The lines in front of the first failure are settled. -/
theorem run_settled {source : σ} (h : Source.BreaksOff faults source data)
    (hfaults : ∀ e, faults e → e.IsReading) (chunkBytes maxLineBytes : Nat)
    (calls : List (Nat × StreamOp)) :
    Line.Settled data
      (Attempt.beforeFailure ((ofSource source chunkBytes maxLineBytes).run calls).attempts) := by
  intro more
  have hR := (Source.breakage_breaksOff (σ := σ) faults).delivery
  have hstart := ofSource_follows
    (R := fun s data => Source.BreaksOff faults s data ∨ Source.BreaksOff faults s [])
    (.inl (h.mono (List.prefix_append data more))) chunkBytes maxLineBytes
  obtain ⟨hfollows, -⟩ := run_follows hR hfaults calls hstart
  exact (Account.beforeFailure_isPrefix _).trans (Cursor.Follows.whole_isPrefix hfollows)

/-- What a caller sees of a source that breaks off, as long as the stream is not closed. -/
structure Endures (data : Bytes) (c : Consumer σ) : Prop where
  settled : Line.Settled data (Attempt.beforeFailure c.attempts)
  iterators : ∀ i, c.iterators i ≠ .atEnd
  goesOn : ∀ i op, ¬ StreamOp.Closes op → ¬ op.SaysEnd (c.step (i, op)).1
  isReading : ∀ i op, ¬ StreamOp.Closes op → ∀ e, (c.step (i, op)).1.failure? = some e →
    e.IsReading

theorem run_of_breaksOff {source : σ} (h : Source.BreaksOff faults source data)
    (hfaults : ∀ e, faults e → e.IsReading) (chunkBytes maxLineBytes : Nat)
    {calls : List (Nat × StreamOp)} (hcalls : ∀ call ∈ calls, ¬ call.2.Closes) :
    ((ofSource source chunkBytes maxLineBytes).run calls).Endures data := by
  have hR := Source.breakage_breaksOff (σ := σ) faults
  have hendless := run_endless hR hfaults hcalls (endless_ofSource h chunkBytes maxLineBytes)
  refine ⟨run_settled h hfaults chunkBytes maxLineBytes calls, hendless.iterators,
    fun i op hop => ?_, fun i op hop => ?_⟩
  · exact (step_continues hR hfaults hendless (i, op) hop).2.1
  · exact (step_continues hR hfaults hendless (i, op) hop).2.2

/-- An operation that takes a line shows one, or it fails to read. -/
theorem step_takes (hR : Source.Breakage faults R) (hfaults : ∀ e, faults e → e.IsReading)
    {c : Consumer σ} (h : c.Endless R) {call : Nat × StreamOp}
    (hcall : call.2 = .borrow ∨ call.2 = .take ∨ call.2 = .start) :
    ∃ attempt, (c.step call).2.attempts = c.attempts ++ [attempt] := by
  obtain ⟨i, op⟩ := call
  obtain ⟨-, hmore, hreading⟩ := Cursor.hasMore_endless hR hfaults h.cursor
  rcases hc : c.stream.cursor.hasMore with ⟨e | (_ | _), c'⟩
  · rw [hc] at hreading
    obtain ⟨fault, rfl⟩ := hreading e rfl
    have hnext : c.stream.cursor.next = (.error (.reading fault), c') := by
      rw [Cursor.next, hc]
    refine ⟨.failure c'.buffer, ?_⟩
    rcases hcall with rfl | rfl | rfl
    · simp only [step, Session.streamStep, hnext, Session.answer, shown, Attempt.ofError]
    · simp only [step, Session.streamStep, hnext, Session.answer, shown, Attempt.ofError]
    · simp only [step, Session.streamStep, Session.moveIterator, hc, shown, Attempt.ofError]
  · rw [hc] at hmore
    exact absurd rfl hmore
  · have hnext : c.stream.cursor.next = (.ok c'.buffer, { c' with mustRead := true }) := by
      rw [Cursor.next, hc]
    refine ⟨.line c'.buffer, ?_⟩
    rcases hcall with rfl | rfl | rfl
    · simp only [step, Session.streamStep, hnext, Session.answer, shown]
    · simp only [step, Session.streamStep, hnext, Session.answer, shown]
    · simp only [step, Session.streamStep, Session.moveIterator, hc, shown]

theorem run_takes (hR : Source.Breakage faults R) (hfaults : ∀ e, faults e → e.IsReading)
    {calls : List (Nat × StreamOp)}
    (hcalls : ∀ call ∈ calls, call.2 = .borrow ∨ call.2 = .take ∨ call.2 = .start)
    {c : Consumer σ} (h : c.Endless R) :
    (c.run calls).attempts.length = c.attempts.length + calls.length := by
  induction calls generalizing c with
  | nil => rfl
  | cons call calls ih =>
    have hcall := hcalls call List.mem_cons_self
    have hopen : ¬ call.2.Closes := by
      rcases hcall with hop | hop | hop <;> rw [hop] <;> exact id
    obtain ⟨attempt, hattempt⟩ := step_takes hR hfaults h hcall
    rw [run_cons, ih (fun call hmem => hcalls call (List.mem_cons_of_mem _ hmem))
      (step_continues hR hfaults h call hopen).1, hattempt, List.length_append,
      List.length_singleton, List.length_cons]
    omega

/-- Whoever goes on taking lines fails to read at last. -/
theorem run_fails {source : σ} (h : Source.BreaksOff faults source data)
    (hfaults : ∀ e, faults e → e.IsReading) (chunkBytes maxLineBytes : Nat)
    {calls : List (Nat × StreamOp)}
    (hcalls : ∀ call ∈ calls, call.2 = .borrow ∨ call.2 = .take ∨ call.2 = .start)
    (hlong : (Line.cut data).length < calls.length) :
    ((ofSource source chunkBytes maxLineBytes).run calls).Failed := by
  have htakes := run_takes (Source.breakage_breaksOff (σ := σ) faults) hfaults hcalls
    (endless_ofSource h chunkBytes maxLineBytes)
  have hsettled := (run_settled h hfaults chunkBytes maxLineBytes calls).isPrefix
    (List.prefix_refl data)
  rcases Attempt.failure_or_beforeFailure
    ((ofSource source chunkBytes maxLineBytes).run calls).attempts with hfailed | hall
  · exact hfailed
  · have hle := hsettled.length_le
    rw [hall, htakes] at hle
    omega

end Consumer

end TextLines
