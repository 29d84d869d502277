import TextLines.Proofs.Document.Independence
import TextLines.Proofs.Document.Metering

/-!
# How long a lent line stays as it is

A stream has one buffer, which is shown by every line that it has lent out and by every iterator on
it. Reading ahead is the only thing that writes to it. A cursor reads ahead when it is asked for
more, has not looked yet, and has a source to look in (`Cursor.ReadsAhead`); `StreamOp.ReadsAhead`
says of each operation on a stream whether it comes to that.

* Asking for more does nothing to the buffer otherwise (`Cursor.hasMore_of_not_readsAhead`), nor
  does closing, and a closed cursor can be walked through without a change
  (`Cursor.kept_buffer_of_isClosed`).
* So an operation that does not read ahead leaves the buffer alone (`Session.buffer_streamStep`),
  and with it everything that shows the buffer (`Session.StillShows`).
* Other streams and the views have no part in the stream, so that the line stays through a whole
  history of a document in which nobody reads ahead on the stream (`Session.stillShows_run`).
-/

namespace TextLines

variable {ω σ : Type} [Source σ]

namespace Cursor

/-- Asking for more has to read, and there is a source to read from. -/
def ReadsAhead (c : Cursor σ) : Prop :=
  c.mustRead = true ∧ c.isClosed = false

omit [Source σ] in
theorem mustRead_or_isClosed {c : Cursor σ} (h : ¬ c.ReadsAhead) :
    c.mustRead = false ∨ c.mustRead = true ∧ c.isClosed = true := by
  cases hmust : c.mustRead with
  | false => exact .inl rfl
  | true =>
    cases hopen : c.isClosed with
    | false => exact absurd ⟨hmust, hopen⟩ h
    | true => exact .inr ⟨rfl, rfl⟩

/-- A cursor that does not read ahead tells of the line that it holds, if it holds one, and changes
nothing but what it knows. -/
theorem hasMore_of_not_readsAhead {c : Cursor σ} (h : ¬ c.ReadsAhead) :
    c.hasMore = (.ok (c.pending && !c.mustRead),
      { c with pending := c.pending && !c.mustRead, mustRead := false }) := by
  rcases mustRead_or_isClosed h with hmust | ⟨hmust, hclosed⟩
  · rcases c with ⟨splitter, buffer, pending, mustRead⟩
    obtain rfl : mustRead = false := hmust
    rw [hasMore_of_not_mustRead rfl]
    simp
  · rw [hasMore, hmust, hclosed]
    simp

theorem buffer_close (c : Cursor σ) : c.close.2.buffer = c.buffer := by
  rw [close]
  split <;> rfl

/-- When it reads ahead the cursor shows what it has read, also if reading fails. -/
theorem buffer_hasMore_of_readsAhead {c : Cursor σ} (h : c.ReadsAhead) :
    c.hasMore.2.buffer = c.splitter.readLine.line := by
  have hend := buffer_close (c.looked false)
  have hlooks := hasMore_looks h.1 h.2
  rcases hmore : c.hasMore with ⟨r, c'⟩
  rw [hmore] at hlooks
  cases hlooks with
  | line | failed => rfl
  | atEnd hclose | unclosed hclose =>
    rw [hclose] at hend
    exact hend

theorem buffer_hasMore {c : Cursor σ} (h : ¬ c.ReadsAhead) : c.hasMore.2.buffer = c.buffer := by
  rw [hasMore_of_not_readsAhead h]

theorem buffer_next {c : Cursor σ} (h : ¬ c.ReadsAhead) : c.next.2.buffer = c.buffer := by
  rw [next, hasMore_of_not_readsAhead h]
  cases c.pending && !c.mustRead <;> rfl

/-- Going on in a closed cursor leaves its buffer alone. -/
theorem kept_buffer_of_isClosed (line : Bytes) :
    Kept (σ := σ) fun c => c.isClosed = true ∧ c.buffer = line := by
  refine ⟨fun c ⟨hclosed, hline⟩ => ?_, fun _ h => h⟩
  rw [hasMore_of_not_readsAhead fun hreads => by cases hclosed.symm.trans hreads.2]
  exact ⟨hclosed, hline⟩

/-- A walk leaves the buffer alone if it does not read ahead at once, and if its visitor has enough
when it sees a line that was there already. -/
theorem buffer_walk {α : Type} {visit : Bytes → α → Visit α} {a : α} {c : Cursor σ}
    (h : ¬ c.ReadsAhead)
    (hstops : c.isClosed = false → c.pending = true → ∃ a', visit c.buffer a = .stop a') :
    (c.walk visit a).cursor.buffer = c.buffer := by
  cases hopen : c.isClosed with
  | true => exact ((kept_buffer_of_isClosed c.buffer).walk visit a ⟨hopen, rfl⟩).2
  | false =>
    have hknown : c.mustRead = false := (mustRead_or_isClosed h).resolve_right fun hclosed => by
      cases hopen.symm.trans hclosed.2
    have hasked := hasMore_of_not_mustRead hknown
    cases hpending : c.pending with
    | false =>
      rw [hpending] at hasked
      rw [walk_of_exhausted hasked]
    | true =>
      obtain ⟨a', hstop⟩ := hstops hopen hpending
      rw [hpending] at hasked
      rw [walk_of_line hasked, hstop]

end Cursor

/-- The operation reads ahead on the stream as it is. Taking lines up to a limit does so at once, or
behind a line that was there already unless this one is enough. -/
def StreamOp.ReadsAhead (st : Stream σ) : StreamOp → Prop
  | .hasMore | .borrow | .take | .start => st.cursor.ReadsAhead
  | .advance => st.iterator = .onLine ∧ st.cursor.ReadsAhead
  | .range limit =>
    st.cursor.ReadsAhead ∨ st.cursor.isClosed = false ∧ st.cursor.pending = true ∧
      ∀ most, limit = some most → 1 < most
  | .lentLine | .close | .isClosed | .bytesRead | .drop | .current => False

omit [Source σ] in
/-- Nothing is read ahead on a closed stream. -/
theorem StreamOp.not_readsAhead_of_isClosed {st : Stream σ} (h : st.cursor.isClosed = true)
    (op : StreamOp) : ¬ op.ReadsAhead st := by
  have hcursor : ¬ st.cursor.ReadsAhead := fun hreads => by cases h.symm.trans hreads.2
  cases op with
  | hasMore | borrow | take | start => exact hcursor
  | advance => exact fun hreads => hcursor hreads.2
  | range limit =>
    rintro (hreads | ⟨hopen, -⟩)
    · exact hcursor hreads
    · cases h.symm.trans hopen
  | lentLine | close | isClosed | bytesRead | drop | current => exact id

namespace Session

/-! ## Operations on a stream -/

theorem buffer_moveIterator {st : Stream σ} (h : ¬ st.cursor.ReadsAhead) :
    (moveIterator st).2.cursor.buffer = st.cursor.buffer := by
  rw [moveIterator, Cursor.hasMore_of_not_readsAhead h]
  cases st.cursor.pending && !st.cursor.mustRead <;> rfl

theorem lent_moveIterator (st : Stream σ) : (moveIterator st).2.lent = st.lent := by
  rw [moveIterator]
  rcases st.cursor.hasMore with ⟨e | (_ | _), c⟩ <;> rfl

theorem buffer_streamStep {op : StreamOp} {st : Stream σ} (h : ¬ op.ReadsAhead st) :
    (streamStep op st).2.cursor.buffer = st.cursor.buffer := by
  cases op with
  | hasMore => exact Cursor.buffer_hasMore h
  | borrow | take => exact Cursor.buffer_next h
  | close | drop => exact Cursor.buffer_close st.cursor
  | start => exact buffer_moveIterator h
  | advance =>
    rw [streamStep]
    split
    · next hline => exact buffer_moveIterator fun hreads => h ⟨hline, hreads⟩
    · rfl
  | range limit =>
    refine Cursor.buffer_walk (fun hreads => h (.inl hreads)) fun hopen hpending => ?_
    cases limit with
    | none => exact absurd (.inr ⟨hopen, hpending, fun _ hnone => by cases hnone⟩) h
    | some most =>
      have hmost : most ≤ 1 := Nat.le_of_not_lt fun hlt =>
        h (.inr ⟨hopen, hpending, fun _ hsome => Option.some.inj hsome ▸ hlt⟩)
      exact ⟨_, if_pos hmost⟩
  | current =>
    rw [streamStep]
    split <;> rfl
  | lentLine | isClosed | bytesRead => rfl

/-- An operation that reads ahead writes the line that it reads to the buffer. Taking several lines
goes on to write. -/
theorem buffer_streamStep_of_readsAhead {op : StreamOp} {st : Stream σ}
    (hop : ∀ limit, op ≠ .range limit) (h : op.ReadsAhead st) :
    (streamStep op st).2.cursor.buffer = st.cursor.splitter.readLine.line := by
  have hmove : st.cursor.ReadsAhead →
      (moveIterator st).2.cursor.buffer = st.cursor.splitter.readLine.line := by
    intro hreads
    rw [← Cursor.buffer_hasMore_of_readsAhead hreads, moveIterator]
    rcases st.cursor.hasMore with ⟨e | (_ | _), c⟩ <;> rfl
  cases op with
  | hasMore => exact Cursor.buffer_hasMore_of_readsAhead h
  | borrow | take =>
    rw [← Cursor.buffer_hasMore_of_readsAhead h]
    simp only [streamStep, Cursor.next]
    rcases st.cursor.hasMore with ⟨e | (_ | _), c⟩ <;> rfl
  | start => exact hmove h
  | advance =>
    rw [streamStep, if_pos h.1]
    exact hmove h.2
  | range limit => exact absurd rfl (hop limit)
  | lentLine | close | isClosed | bytesRead | drop | current => exact absurd h id

/-- What has been lent out stays lent out. -/
theorem lent_streamStep (op : StreamOp) {st : Stream σ} (h : st.lent = true) :
    (streamStep op st).2.lent = true := by
  cases op with
  | borrow =>
    rw [streamStep]
    exact Bool.or_eq_true_iff.mpr (.inl h)
  | start => exact (lent_moveIterator st).trans h
  | advance =>
    rw [streamStep]
    split
    · exact (lent_moveIterator st).trans h
    · exact h
  | current =>
    rw [streamStep]
    split <;> exact h
  | hasMore | take | close | drop | range | lentLine | isClosed | bytesRead => exact h

/-! ## Histories -/

/-- The stream with the number is there as before, shows the same line, and has lent it out if it
had. -/
def StillShows (s : Session ω σ) (number : Nat) (t : Session ω σ) : Prop :=
  ∀ st, s.slot number = some st → ∃ st', t.slot number = some st' ∧
    st'.cursor.buffer = st.cursor.buffer ∧ (st.lent = true → st'.lent = true)

omit [Source σ] in
theorem stillShows_of_slot_eq {s t : Session ω σ} {number : Nat}
    (h : t.slot number = s.slot number) : s.StillShows number t :=
  fun st hst => ⟨st, h.trans hst, rfl, id⟩

omit [Source σ] in
theorem StillShows.trans {s t u : Session ω σ} {number : Nat} (hst : s.StillShows number t)
    (htu : t.StillShows number u) : s.StillShows number u := by
  intro st hslot
  obtain ⟨st', hslot', hbuffer', hlent'⟩ := hst st hslot
  obtain ⟨st'', hslot'', hbuffer'', hlent''⟩ := htu st' hslot'
  exact ⟨st'', hslot'', hbuffer''.trans hbuffer', hlent'' ∘ hlent'⟩

/-- The operation neither reads ahead on the stream with the number nor gives it up. -/
def Spares (s : Session ω σ) (number : Nat) : Op ω → Prop
  | .on other op => other = number → op ≠ .drop ∧
      ∀ st, s.slot number = some st → ¬ op.ReadsAhead st
  | _ => True

variable [Room]

/-- None of the operations does, when they are done one after the other. -/
def SparesAll (s : Session ω σ) (number : Nat) : List (Op ω) → Prop
  | [] => True
  | op :: ops => s.Spares number op ∧ (s.step op).2.SparesAll number ops

omit [Source σ] [Room] in
theorem lt_length_of_slot {s : Session ω σ} {number : Nat} {st : Stream σ}
    (h : s.slot number = some st) : number < s.streams.length :=
  (List.getElem?_eq_some_iff.mp (Option.join_eq_some_iff.mp h)).1

theorem isClosed_of_slot_step_close {s : Session ω σ} {number : Nat} {st : Stream σ}
    (h : (s.step (.on number .close)).2.slot number = some st) : st.cursor.isClosed = true := by
  have hlt := lt_length_of_slot h
  rw [streams_step_on, List.length_set] at hlt
  rw [slot_step_on_self hlt] at h
  cases hslot : s.slot number with
  | none =>
    rw [hslot] at h
    cases h
  | some st' =>
    rw [hslot, slotStep_some (fun heq => by cases heq)] at h
    obtain rfl := Option.some.inj h
    exact Cursor.isClosed_close st'.cursor

theorem stillShows_step {s : Session ω σ} {number : Nat} {op : Op ω} (h : s.Spares number op) :
    s.StillShows number (s.step op).2 := by
  intro st hst
  have hlt := lt_length_of_slot hst
  by_cases hon : ∃ streamOp, op = .on number streamOp
  · obtain ⟨streamOp, rfl⟩ := hon
    obtain ⟨hdrop, hreads⟩ := h rfl
    refine ⟨(streamStep streamOp st).2, ?_, buffer_streamStep (hreads st hst),
      lent_streamStep streamOp⟩
    rw [slot_step_on_self hlt, hst, slotStep_some hdrop]
  · have hslot := (slot_step s op hlt).2 fun streamOp heq => hon ⟨streamOp, heq⟩
    exact stillShows_of_slot_eq hslot st hst

theorem stillShows_run {s : Session ω σ} {number : Nat} {ops : List (Op ω)}
    (h : s.SparesAll number ops) : s.StillShows number (s.run ops) := by
  induction ops generalizing s with
  | nil => exact stillShows_of_slot_eq rfl
  | cons op ops ih => exact (stillShows_step h.1).trans (ih h.2)

/-- A line that is shown stays as it is, byte for byte, until somebody reads ahead on its stream,
whatever else is done with the document: the buffer is the same, and so is what the lent line and
an iterator show. A line that has been answered does not change at all. -/
theorem lent_line_stays {s : Session ω σ} {number : Nat} {st : Stream σ} {ops : List (Op ω)}
    (hst : s.slot number = some st) (hops : s.SparesAll number ops) :
    ∃ st', (s.run ops).slot number = some st' ∧ st'.cursor.buffer = st.cursor.buffer ∧
      (st.lent = true →
        ((s.run ops).step (.on number .lentLine)).1 = .lent (some st.cursor.buffer)) ∧
      (st'.iterator = .onLine →
        ((s.run ops).step (.on number .current)).1 = .line st.cursor.buffer) ∧
      ∀ before after : List (Op ω), s.answers before <+: s.answers (before ++ after) := by
  obtain ⟨st', hst', hbuffer, hlent⟩ := stillShows_run hops st hst
  refine ⟨st', hst', hbuffer, fun hlent' => ?_, fun hline => ?_, fun before after => ?_⟩
  · rw [step_on_fst, hst', ← hbuffer]
    exact congrArg Answer.lent (if_pos (hlent hlent'))
  · rw [step_on_fst, hst', ← hbuffer]
    have hshown : streamStep .current st' = (.line st'.cursor.buffer, st') := if_pos hline
    exact congrArg Prod.fst hshown
  · rw [answers_append]
    exact List.prefix_append _ _

omit [Room] in
/-- A stream that lends out its first line, beside a count, another stream that reads the same file,
and its own end. -/
theorem lent_line_stays_closing :
    let _ : Room := .ample
    let st : Stream Memory := {
      cursor := {
        splitter := {
          handle := .held { rest := Bytes.ascii "two\n", step := 4, served := 4, reads := 1 }
          chunkBytes := 4
          lines := 1 }
        buffer := Bytes.ascii "one" }
      lent := true }
    let s : Session Unit Memory := {
      config := { chunkBytes := 4 }
      opener := fun _ _ => .ok (some { rest := Bytes.ascii "one\ntwo\n", step := 4 })
      world := ()
      streams := [some st] }
    let ops : List (Op Unit) :=
      [.count, .stream, .on 1 .take, .on 0 .bytesRead, .on 0 .close, .on 0 .hasMore]
    s.slot 0 = some st ∧ s.SparesAll 0 ops ∧
      ((s.run ops).step (.on 0 .lentLine)).1 = .lent (some (Bytes.ascii "one")) := by
  intro _ st s ops
  have hspares : s.SparesAll 0 ops := by
    simp only [ops, SparesAll]
    refine ⟨trivial, trivial, ?other, ?bytesRead, ?close, ?hasMore, trivial⟩
    case other =>
      intro h
      cases h
    case bytesRead | close => exact fun _ => ⟨by simp, fun _ _ => id⟩
    case hasMore =>
      refine fun _ => ⟨by simp, fun st hst => ?_⟩
      exact StreamOp.not_readsAhead_of_isClosed (isClosed_of_slot_step_close hst) _
  have hst : s.slot 0 = some st := rfl
  obtain ⟨-, -, -, hlent, -⟩ := lent_line_stays hst hspares
  exact ⟨hst, hspares, hlent rfl⟩

end Session

/-- Callers with several iterators on a stream see one buffer, whichever of them is moved. -/
theorem Consumer.buffer_step {c : Consumer σ} {call : Nat × StreamOp}
    (h : ¬ call.2.ReadsAhead (c.streamFor call.1)) :
    (c.step call).2.stream.cursor.buffer = c.stream.cursor.buffer :=
  Session.buffer_streamStep h

end TextLines
