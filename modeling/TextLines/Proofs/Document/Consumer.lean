import Mathlib.Logic.Function.Basic
import TextLines.Document.Session
import TextLines.Proofs.Line.Handing

/-!
# Streams in the hands of a caller

A `Consumer` is a stream together with a caller who does with it what a caller can: ask, take,
close, iterate, and hold any number of iterators at once. It remembers what came of the attempts to
get a line, that is, the lines that were handed out and the failures to read, whichever operation
showed them.

`Moves` says what an operation may do to the cursor of the stream: what it shows accounts for the
way it goes, it only asks if it hands out nothing, and a failure has a cause. `streamStep_moves` is
the step lemma, with a case for every operation, and `run_follows` carries the place of the cursor
over any history.

`Faithful` is what a caller can rely on as long as reading does not fail: the lines come one after
the other, whichever operation takes them, at most one of them has been read ahead, and the end is
the end. A loop over the lines takes those that are left, up to its limit (`walk_takes`).
`run_faithful` says that every history of a stream keeps all this.
-/

namespace TextLines

open Line (Attempt Account)

/-- The operations that close a stream. -/
def StreamOp.Closes : StreamOp → Prop
  | .close | .drop => True
  | _ => False

/-- A stream, the iterators that a caller holds on it, and what it has shown. -/
structure Consumer (σ : Type) where
  /-- The stream. -/
  stream : Stream σ
  /-- The iterators by number. -/
  iterators : Nat → Iterator := fun _ => .absent
  /-- The lines that were handed out and the failures to read, in order. -/
  attempts : List Attempt := []

namespace Consumer

variable {σ : Type} [Source σ] {faults : Error → Prop} {R : σ → Bytes → Prop} {limit : Nat}
  {lines : List Bytes}

/-- A caller with a fresh stream over a source. -/
def ofSource (source : σ) (chunkBytes maxLineBytes : Nat) : Consumer σ :=
  { stream := {
      cursor := { splitter := { handle := .held source, chunkBytes, maxLineBytes } } } }

/-- What an operation shows, from its answer and the buffer that it leaves behind. A line is handed
out by a loan, by a copy, by an iterator that comes to stand on it, and by a loop. -/
def shown (op : StreamOp) (answer : Answer) (buffer : Bytes) : List Attempt :=
  match op, answer with
  | .borrow, .line line | .take, .line line => [.line line]
  | .start, .iterator false | .advance, .iterator false => [.line buffer]
  | .range _, .lines taken none => taken.map .line
  | .range _, .lines taken (some e) => taken.map .line ++ Attempt.ofError e buffer
  | .hasMore, .failed e | .borrow, .failed e | .take, .failed e | .start, .failed e
  | .advance, .failed e => Attempt.ofError e buffer
  | _, _ => []

/-- An operation on the stream, with the iterator of the given number at hand. -/
def step (c : Consumer σ) (call : Nat × StreamOp) : Answer × Consumer σ :=
  let (answer, stream) :=
    Session.streamStep call.2 { c.stream with iterator := c.iterators call.1 }
  (answer, {
    stream
    iterators := Function.update c.iterators call.1 stream.iterator
    attempts := c.attempts ++ shown call.2 answer stream.cursor.buffer })

/-- Any number of operations. -/
def run (c : Consumer σ) (calls : List (Nat × StreamOp)) : Consumer σ :=
  calls.foldl (fun c call => (c.step call).2) c

/-- The lines that were handed out. -/
def delivered (c : Consumer σ) : List Bytes :=
  Attempt.lines c.attempts

/-- An operation has failed to read. -/
def Failed (c : Consumer σ) : Prop :=
  ∃ part, Attempt.failure part ∈ c.attempts

/-- Whether the stream has been closed. -/
def isClosed (c : Consumer σ) : Bool :=
  c.stream.cursor.isClosed

/-- The account of what the stream has shown. -/
def account (c : Consumer σ) : Account :=
  Account.ofAttempts c.attempts

/-- The cursor of the stream stands where the history says. -/
def Follows (R : σ → Bytes → Prop) (limit : Nat) (lines : List Bytes) (c : Consumer σ) : Prop :=
  c.stream.cursor.Follows R limit lines c.account

/-! ## One operation -/

/-- What an operation does to the cursor, when `a` is the account before it and `attempts` is what
it shows. -/
structure Moves (R : σ → Bytes → Prop) (faults : Error → Prop) (limit : Nat)
    (lines : List Bytes) (a : Account) (op : StreamOp) (c : Cursor σ) (attempts : List Attempt)
    (c' : Cursor σ) : Prop where
  /-- What it shows accounts for the way the cursor goes. -/
  follows : c'.Follows R limit lines (a.addAll attempts)
  /-- An operation that hands out nothing, and does not close, has at most asked. -/
  asks : ¬ op.Closes → Attempt.lines attempts = [] → c' = c ∨ c' = c.hasMore.2
  /-- A failure has a cause. -/
  cause : ∀ part, Attempt.failure part ∈ attempts → ∃ e, Cursor.Cause R faults limit lines e

/-- An operation that does nothing. -/
theorem Moves.still {a : Account} {op : StreamOp} {c : Cursor σ}
    (h : c.Follows R limit lines a) : Moves R faults limit lines a op c [] c :=
  ⟨h, fun _ _ => .inl rfl, by simp⟩

/-- Asking whether there is more shows nothing but a failure. -/
theorem Moves.asked (hfaults : ∀ e, faults e → e.IsReading) {a : Account} {op : StreamOp}
    {c c' : Cursor σ} {r : Except Error Bool} (hc : c.hasMore = (r, c'))
    (hasked : Cursor.Asked R faults limit lines a c r c') :
    (∀ b, r = .ok b → Moves R faults limit lines a op c [] c') ∧
      ∀ e, r = .error e → Moves R faults limit lines a op c (Attempt.ofError e c'.buffer) c' := by
  have hfollows := hasked.follows hfaults
  refine ⟨fun b hb => ?_, fun e he => ?_⟩
  · exact ⟨hfollows.1 b hb, fun _ _ => .inr (by rw [hc]), by simp⟩
  · subst he
    exact ⟨hfollows.2 e rfl, fun _ _ => .inr (by rw [hc]), fun _ _ => ⟨e, hasked.cause⟩⟩

theorem moveIterator_moves (hR : Source.Delivery faults R)
    (hfaults : ∀ e, faults e → e.IsReading) {a : Account} {op : StreamOp}
    (hop : op = .start ∨ op = .advance) {st : Stream σ}
    (h : st.cursor.Follows R limit lines a) :
    Moves R faults limit lines a op st.cursor
      (shown op (Session.moveIterator st).1 (Session.moveIterator st).2.cursor.buffer)
      (Session.moveIterator st).2.cursor := by
  have hasked := h.hasMore hR
  unfold Session.moveIterator
  rcases hc : st.cursor.hasMore with ⟨e | (_ | _), c'⟩
  · rw [hc] at hasked
    rcases hop with rfl | rfl <;> exact (Moves.asked hfaults hc hasked).2 e rfl
  · rw [hc] at hasked
    rcases hop with rfl | rfl <;> exact (Moves.asked hfaults hc hasked).1 false rfl
  · rw [hc] at hasked
    cases hasked with
    | more hopen hmust hpending haccounts =>
      rcases hop with rfl | rfl <;>
        exact ⟨.reading rfl haccounts, fun _ hnil => by simp [shown, Attempt.lines] at hnil,
          fun _ hmem => by simp [shown] at hmem⟩

theorem next_shown {op : StreamOp} (hop : op = .borrow ∨ op = .take) (r : Except Error Bytes)
    (buffer : Bytes) :
    shown op (Session.answer .line r) buffer = Cursor.nextAttempts r buffer := by
  rcases hop with rfl | rfl <;> cases r <;> rfl

theorem next_moves (hR : Source.Delivery faults R) (hfaults : ∀ e, faults e → e.IsReading)
    {a : Account} {op : StreamOp} {c : Cursor σ} (h : c.Follows R limit lines a) :
    Moves R faults limit lines a op c (Cursor.nextAttempts c.next.1 c.next.2.buffer)
      c.next.2 := by
  refine ⟨h.next hR hfaults, fun _ hnil => .inr (Cursor.next_cursor_of_no_line ?_), ?_⟩
  · intro line hline
    rw [hline] at hnil
    simp [Cursor.nextAttempts, Attempt.lines] at hnil
  · intro part hmem
    rcases hr : c.next.1 with e | line
    · rw [hr] at hmem
      rcases h.next_error hR hr with rfl | hcause
      · simp [Cursor.nextAttempts, Attempt.ofError] at hmem
      · exact ⟨e, hcause⟩
    · rw [hr] at hmem
      simp [Cursor.nextAttempts] at hmem

/-- What a loop over the lines does with a line. -/
def rangeVisit (most : Option Nat) (line : Bytes) (v : List Bytes × Nat) :
    Cursor.Visit (List Bytes × Nat) :=
  match most with
  | some most =>
    if most ≤ v.2 + 1 then .stop (line :: v.1, v.2 + 1) else .goOn (line :: v.1, v.2 + 1)
  | none => .goOn (line :: v.1, v.2 + 1)

theorem range_eq_walk (most : Option Nat) (c : Cursor σ) :
    Session.range most c = c.walk (rangeVisit most) ([], 0) := rfl

theorem rangeVisit_cases (most : Option Nat) (line : Bytes) (v : List Bytes × Nat) :
    rangeVisit most line v = .goOn (line :: v.1, v.2 + 1) ∨
      rangeVisit most line v = .stop (line :: v.1, v.2 + 1) := by
  unfold rangeVisit
  split
  · split
    · exact .inr rfl
    · exact .inl rfl
  · exact .inl rfl

/-- A loop notes every line that it visits. -/
theorem rangeVisit_notes {most : Option Nat} {line : Bytes} {v v' : List Bytes × Nat}
    (h : rangeVisit most line v = .goOn v' ∨ rangeVisit most line v = .stop v') :
    v'.1 = line :: v.1 := by
  rcases rangeVisit_cases most line v with hcase | hcase <;> rw [hcase] at h
  · rcases h with h | h
    · rw [← Cursor.Visit.goOn.inj h]
    · cases h
  · rcases h with h | h
    · cases h
    · rw [← Cursor.Visit.stop.inj h]

theorem range_shown (most : Option Nat) (st : Stream σ) :
    shown (.range most) (Session.streamStep (.range most) st).1
        (Session.streamStep (.range most) st).2.cursor.buffer =
      (Session.range most st.cursor).value.1.reverse.map Attempt.line ++
        (Session.range most st.cursor).ending.attempts
          (Session.range most st.cursor).cursor.buffer := by
  rw [Session.streamStep]
  dsimp only
  generalize Session.range most st.cursor = w
  rcases w with ⟨_ | _ | e, v, c⟩
  · exact (List.append_nil _).symm
  · exact (List.append_nil _).symm
  · rfl

theorem range_moves (hR : Source.Delivery faults R) (hfaults : ∀ e, faults e → e.IsReading)
    {a : Account} (most : Option Nat) {st : Stream σ} (h : st.cursor.Follows R limit lines a) :
    Moves R faults limit lines a (.range most) st.cursor
      (shown (.range most) (Session.streamStep (.range most) st).1
        (Session.streamStep (.range most) st).2.cursor.buffer)
      (Session.streamStep (.range most) st).2.cursor := by
  obtain ⟨taken, hvalue, hfollows, hasks, hcause⟩ :=
    h.walk hR hfaults Prod.fst (fun _ _ _ => rangeVisit_notes) ([], 0)
  rw [List.append_nil] at hvalue
  rw [range_shown, range_eq_walk, hvalue, List.reverse_reverse]
  refine ⟨hfollows, fun _ hnil => .inr (hasks ?_), fun part hmem => ?_⟩
  · rw [Attempt.lines_append, Attempt.lines_map_line] at hnil
    exact (List.append_eq_nil_iff.mp hnil).1
  · rcases List.mem_append.mp hmem with hmem | hmem
    · simp at hmem
    · generalize hw : st.cursor.walk (rangeVisit most) ([], 0) = w at hmem hcause
      rcases w with ⟨_ | _ | e, v, c⟩
      · simp [Cursor.Ending.attempts] at hmem
      · simp [Cursor.Ending.attempts] at hmem
      · exact ⟨e, hcause e rfl⟩

/-- Of the lines that are left, those that a loop with such a limit takes. It looks at the limit
when it has taken a line, so it takes one if there is one. -/
def upTo (most : Option Nat) (left : List Bytes) : List Bytes :=
  match most with
  | some most => left.take (max most 1)
  | none => left

theorem upTo_nil (most : Option Nat) : upTo most [] = [] := by
  cases most with
  | none => rfl
  | some most => exact List.take_nil

/-- With `v.2` lines taken, a loop that has enough takes one more, and one that goes on takes this
line and then what its limit leaves it. -/
theorem rangeVisit_takes (most : Option Nat) (line : Bytes) (v : List Bytes × Nat)
    (left : List Bytes) :
    (∀ v', rangeVisit most line v = .stop v' →
      upTo (most.map (· - v.2)) (line :: left) = [line]) ∧
    ∀ v', rangeVisit most line v = .goOn v' →
      upTo (most.map (· - v.2)) (line :: left) = line :: upTo (most.map (· - v'.2)) left := by
  cases most with
  | none =>
    refine ⟨fun v' h => ?_, fun _ _ => rfl⟩
    cases h
  | some most =>
    simp only [rangeVisit, upTo, Option.map_some]
    split
    · next hmost =>
      refine ⟨fun _ _ => ?_, fun v' h => ?_⟩
      · rw [show max (most - v.2) 1 = 1 by omega, List.take_succ_cons, List.take_zero]
      · cases h
    · next hmost =>
      refine ⟨fun v' h => ?_, fun v' h => ?_⟩
      · cases h
      · obtain rfl := Cursor.Visit.goOn.inj h
        rw [show max (most - v.2) 1 = max (most - (v.2 + 1)) 1 + 1 by omega, List.take_succ_cons]

/-- What a loop over an open stream takes if nothing has been lost: unless reading fails, what is
left of the lines up to its limit. The induction is on the walk, with `v.2` lines taken before. -/
theorem walk_takes (hR : Source.Delivery faults R) (hfaults : ∀ e, faults e → e.IsReading)
    (hquiet : ∀ src data, R src data → (Source.close src).1 = none) {a : Account}
    (most : Option Nat) (v : List Bytes × Nat) {c : Cursor σ} (h : c.Follows R limit lines a)
    (hlost : a.lost = []) (hopen : c.isClosed = false) :
    (∃ e, e.IsReading ∧ (c.walk (rangeVisit most) v).ending = .failed e) ∨
      (∀ e, (c.walk (rangeVisit most) v).ending ≠ .failed e) ∧
        (c.walk (rangeVisit most) v).value.1 =
          (upTo (most.map (· - v.2)) (lines.drop a.whole.length)).reverse ++ v.1 := by
  fun_induction Cursor.walk (rangeVisit most) v c generalizing a with
  | case1 v c e c' hc =>
    have hasked := h.hasMore hR
    rw [hc] at hasked
    exact .inl ⟨e, hasked.isReading hfaults hquiet, rfl⟩
  | case2 v c c' hc =>
    have hasked := h.hasMore hR
    rw [hc] at hasked
    have hall : a.whole = lines := by
      rcases (hasked.eq_false_iff hlost).mp rfl with hall | hclosed
      · exact hall
      · rw [hopen] at hclosed
        cases hclosed
    refine .inr ⟨fun _ => by simp, ?_⟩
    rw [hall, List.drop_length, upTo_nil]
    rfl
  | case3 v c c' hc v' hv =>
    have hasked := h.hasMore hR
    rw [hc] at hasked
    refine .inr ⟨fun _ => by simp, ?_⟩
    rw [hasked.drop_eq hlost, (rangeVisit_takes most c'.buffer v _).1 v' hv,
      rangeVisit_notes (.inr hv)]
    rfl
  | case4 v c c' hc v' hv ih =>
    have hasked := h.hasMore hR
    rw [hc] at hasked
    have hdrop := hasked.drop_eq hlost
    cases hasked with
    | more hopen' hmust hpending haccounts =>
      rcases ih (.reading rfl haccounts) rfl (Cursor.isClosed_of_accounts haccounts) with
        hfailed | ⟨hends, htaken⟩
      · exact .inl hfailed
      · refine .inr ⟨hends, ?_⟩
        rw [htaken, hdrop, (rangeVisit_takes most c'.buffer v _).2 v' hv,
          rangeVisit_notes (.inl hv), List.reverse_cons, List.append_assoc]
        rfl

/-- Every operation shows what it does to the place of the cursor. -/
theorem streamStep_moves (hR : Source.Delivery faults R)
    (hfaults : ∀ e, faults e → e.IsReading) {a : Account} (op : StreamOp) {st : Stream σ}
    (h : st.cursor.Follows R limit lines a) :
    Moves R faults limit lines a op st.cursor
      (shown op (Session.streamStep op st).1 (Session.streamStep op st).2.cursor.buffer)
      (Session.streamStep op st).2.cursor := by
  cases op with
  | hasMore =>
    have hasked := h.hasMore hR
    rw [Session.streamStep]
    rcases hc : st.cursor.hasMore with ⟨e | b, c'⟩
    · rw [hc] at hasked
      exact (Moves.asked hfaults hc hasked).2 e rfl
    · rw [hc] at hasked
      exact (Moves.asked hfaults hc hasked).1 b rfl
  | borrow =>
    rw [Session.streamStep, next_shown (.inl rfl)]
    exact next_moves hR hfaults h
  | take =>
    rw [Session.streamStep, next_shown (.inr rfl)]
    exact next_moves hR hfaults h
  | close | drop => exact ⟨h.close.2.2, fun hcloses => absurd trivial hcloses, by simp [shown]⟩
  | range most => exact range_moves hR hfaults most h
  | start => exact moveIterator_moves hR hfaults (.inl rfl) h
  | advance =>
    rw [Session.streamStep]
    split
    · exact moveIterator_moves hR hfaults (.inr rfl) h
    · exact .still h
  | current =>
    show Moves R faults limit lines a .current st.cursor []
      (Session.streamStep .current st).2.cursor
    rw [Session.streamStep]
    split <;> exact .still h
  | lentLine | isClosed | bytesRead => exact .still h

/-- At the end no operation shows anything or changes the cursor. -/
theorem streamStep_of_ended {st : Stream σ} (h : st.cursor.Ended) (op : StreamOp) :
    (Session.streamStep op st).2.cursor = st.cursor ∧
      shown op (Session.streamStep op st).1 (Session.streamStep op st).2.cursor.buffer = [] := by
  have hmore := h.hasMore
  have hnext : st.cursor.next = (.error .noMoreLines, st.cursor) := by
    rw [Cursor.next, hmore]
  have hmove : Session.moveIterator st = (.iterator true, { st with iterator := .atEnd }) := by
    rw [Session.moveIterator, hmore]
  cases op with
  | hasMore =>
    rw [Session.streamStep, hmore]
    exact ⟨rfl, rfl⟩
  | borrow | take =>
    rw [Session.streamStep, hnext]
    exact ⟨rfl, rfl⟩
  | close | drop =>
    rw [Session.streamStep, Cursor.close_of_isClosed h.isClosed]
    exact ⟨rfl, rfl⟩
  | range most =>
    rw [Session.streamStep, range_eq_walk, Cursor.walk_of_exhausted hmore]
    exact ⟨rfl, rfl⟩
  | start =>
    rw [Session.streamStep, hmove]
    exact ⟨rfl, rfl⟩
  | advance =>
    rw [Session.streamStep, hmove]
    split <;> exact ⟨rfl, rfl⟩
  | current =>
    rw [Session.streamStep]
    split <;> exact ⟨rfl, rfl⟩
  | lentLine | isClosed | bytesRead => exact ⟨rfl, rfl⟩

/-! ## Histories -/

/-- The cursor of a consumer after an operation, and what the operation shows. -/
theorem step_moves (hR : Source.Delivery faults R) (hfaults : ∀ e, faults e → e.IsReading)
    {c : Consumer σ} (h : c.Follows R limit lines) (call : Nat × StreamOp) :
    ∃ attempts, (c.step call).2.attempts = c.attempts ++ attempts ∧
      Moves R faults limit lines c.account call.2 c.stream.cursor attempts
        (c.step call).2.stream.cursor := by
  have hst : ({ c.stream with iterator := c.iterators call.1 } : Stream σ).cursor.Follows
      R limit lines c.account := h
  exact ⟨_, rfl, streamStep_moves hR hfaults call.2 hst⟩

theorem Moves.step_follows {c c' : Consumer σ} {op : StreamOp} {attempts : List Attempt}
    (h : Moves R faults limit lines c.account op c.stream.cursor attempts c'.stream.cursor)
    (hattempts : c'.attempts = c.attempts ++ attempts) : c'.Follows R limit lines := by
  rw [Consumer.Follows, account, hattempts, Account.ofAttempts_append]
  exact h.follows

theorem run_cons (c : Consumer σ) (call : Nat × StreamOp) (calls : List (Nat × StreamOp)) :
    c.run (call :: calls) = (c.step call).2.run calls := rfl

/-- A history keeps the place of the cursor, and its failures have causes. -/
theorem run_follows (hR : Source.Delivery faults R) (hfaults : ∀ e, faults e → e.IsReading)
    (calls : List (Nat × StreamOp)) {c : Consumer σ} (h : c.Follows R limit lines) :
    (c.run calls).Follows R limit lines ∧
      ∃ attempts, (c.run calls).attempts = c.attempts ++ attempts ∧
        ∀ part, Attempt.failure part ∈ attempts → ∃ e, Cursor.Cause R faults limit lines e := by
  induction calls generalizing c with
  | nil => exact ⟨h, [], (List.append_nil _).symm, by simp⟩
  | cons call calls ih =>
    obtain ⟨attempts, hattempts, hmoves⟩ := step_moves hR hfaults h call
    obtain ⟨hfollows, more, hmore, hcause⟩ := ih (hmoves.step_follows hattempts)
    refine ⟨hfollows, attempts ++ more, ?_, fun part hmem => ?_⟩
    · rw [run_cons, hmore, hattempts, List.append_assoc]
    · rcases List.mem_append.mp hmem with hmem | hmem
      · exact hmoves.cause part hmem
      · exact hcause part hmem

/-- At the end a history shows nothing more. -/
theorem run_of_ended (calls : List (Nat × StreamOp)) {c : Consumer σ}
    (h : c.stream.cursor.Ended) :
    (c.run calls).stream.cursor = c.stream.cursor ∧ (c.run calls).attempts = c.attempts := by
  induction calls generalizing c with
  | nil => exact ⟨rfl, rfl⟩
  | cons call calls ih =>
    have hst : ({ c.stream with iterator := c.iterators call.1 } : Stream σ).cursor.Ended := h
    obtain ⟨hcursor, hshown⟩ := streamStep_of_ended hst call.2
    have hcursor' : (c.step call).2.stream.cursor = c.stream.cursor := hcursor
    have hattempts : (c.step call).2.attempts = c.attempts :=
      (congrArg (c.attempts ++ ·) hshown).trans (List.append_nil _)
    have hrun := ih (c := (c.step call).2) (hcursor'.symm ▸ h)
    rw [hcursor', hattempts] at hrun
    exact hrun

/-- As long as a caller takes no line and does not close the stream, a cursor that knows whether
there is more stays as it is. -/
theorem run_of_known (hR : Source.Delivery faults R) (hfaults : ∀ e, faults e → e.IsReading)
    {calls : List (Nat × StreamOp)} (hcalls : ∀ call ∈ calls, ¬ call.2.Closes)
    {c : Consumer σ} (h : c.Follows R limit lines) (hknown : c.stream.cursor.mustRead = false)
    (hsame : (c.run calls).delivered = c.delivered) :
    (c.run calls).stream.cursor = c.stream.cursor := by
  induction calls generalizing c with
  | nil => rfl
  | cons call calls ih =>
    obtain ⟨attempts, hattempts, hmoves⟩ := step_moves hR hfaults h call
    have hfollows := hmoves.step_follows hattempts
    obtain ⟨-, more, hmore, -⟩ := run_follows hR hfaults calls hfollows
    rw [run_cons, delivered, delivered, hmore, hattempts, List.append_assoc, Attempt.lines_append,
      List.append_right_eq_self, Attempt.lines_append] at hsame
    obtain ⟨hnil, hnil'⟩ := List.append_eq_nil_iff.mp hsame
    have hstill : (c.step call).2.stream.cursor = c.stream.cursor := by
      rcases hmoves.asks (hcalls call List.mem_cons_self) hnil with hcursor | hcursor
      · exact hcursor
      · rw [hcursor, Cursor.hasMore_of_not_mustRead hknown]
    rw [run_cons, ← hstill]
    refine ih (fun call hmem => hcalls call (List.mem_cons_of_mem _ hmem)) hfollows ?_ ?_
    · rw [hstill]
      exact hknown
    · rw [delivered, delivered, hmore, Attempt.lines_append, hnil', List.append_nil]

/-! ## What a caller can rely on -/

/-- How many lines have been read from the source. -/
def linesRead (c : Consumer σ) : Nat :=
  c.stream.cursor.splitter.lines

/-- A consumer who has been told nothing but the truth about `lines`, and who will be. -/
structure Faithful (c : Consumer σ) (lines : List Bytes) : Prop where
  /-- What was handed out are the first of the lines, in order and each once. -/
  delivers_first : c.delivered <+: lines
  /-- At most one line has been read and not handed out, and none if the cursor has to read. -/
  reads_ahead : c.isClosed = false → c.linesRead =
    c.delivered.length + (c.stream.cursor.pending && !c.stream.cursor.mustRead).toNat
  /-- Closing reads nothing, so what it discards is at most the line that was read ahead. -/
  close_discards : ∀ i, (c.step (i, .close)).2.isClosed = true ∧
    (c.step (i, .close)).2.delivered = c.delivered ∧
    (c.step (i, .close)).2.linesRead = c.linesRead
  /-- There is no more line if all have been handed out or the stream is closed. -/
  hasMore : ∀ i, ¬ (c.step (i, .hasMore)).2.Failed →
    ∃ b, (c.step (i, .hasMore)).1 = .truth b ∧
      (b = false ↔ c.delivered = lines ∨ c.isClosed = true)
  /-- Until a line is handed out or the stream is closed, asking again gives the same answer and
  does not touch the source, whatever is done in between. -/
  hasMore_again : ∀ i j b calls, (c.step (i, .hasMore)).1 = .truth b →
    (∀ call ∈ calls, ¬ StreamOp.Closes call.2) →
    ((c.step (i, .hasMore)).2.run calls).delivered = c.delivered →
      (((c.step (i, .hasMore)).2.run calls).step (j, .hasMore)).1 = .truth b ∧
      (((c.step (i, .hasMore)).2.run calls).step (j, .hasMore)).2.stream.cursor =
        (c.step (i, .hasMore)).2.stream.cursor
  /-- If there is more, the next of the lines is handed out, to an iterator as well. -/
  next : ∀ i, (c.step (i, .hasMore)).1 = .truth true →
    ∃ line, lines[c.delivered.length]? = some line ∧
      ∀ j, (c.step (j, .borrow)).1 = .line line ∧ (c.step (j, .take)).1 = .line line ∧
        (c.step (j, .start)).1 = .iterator false ∧
        ∀ op, op = .borrow ∨ op = .take ∨ op = .start →
          (c.step (j, op)).2.delivered = c.delivered ++ [line]
  /-- An iterator that stands on a line goes on to the next of the lines if there is more, and to
  the end if there is not. -/
  advance : ∀ i j, c.iterators j = .onLine →
    ((c.step (i, .hasMore)).1 = .truth true → ∃ line, lines[c.delivered.length]? = some line ∧
      (c.step (j, .advance)).1 = .iterator false ∧
      (c.step (j, .advance)).2.delivered = c.delivered ++ [line]) ∧
    ((c.step (i, .hasMore)).1 = .truth false → (c.step (j, .advance)).1 = .iterator true ∧
      (c.step (j, .advance)).2.delivered = c.delivered)
  /-- An iterator that does not stand on a line stays where it is and leaves the stream alone. -/
  advance_off_line : ∀ j, c.iterators j ≠ .onLine →
    (c.step (j, .advance)).1 = .iterator true ∧
    (c.step (j, .advance)).2.delivered = c.delivered ∧
    (c.step (j, .advance)).2.stream.cursor = c.stream.cursor
  /-- Unless reading fails, a loop hands out the lines that are left, up to its limit, and none if
  the stream is closed. -/
  range : ∀ i most, ¬ (c.step (i, .range most)).2.Failed →
    ∃ taken, (c.step (i, .range most)).1 = .lines taken none ∧
      (c.step (i, .range most)).2.delivered = c.delivered ++ taken ∧
      taken = if c.isClosed then [] else upTo most (lines.drop c.delivered.length)
  /-- If there is no more, to take a line fails, and when this has been asked the stream is closed,
  to take a line goes on failing, and nothing is ever handed out again. -/
  ended : ∀ i, (c.step (i, .hasMore)).1 = .truth false →
    (∀ j, (c.step (j, .borrow)).1 = .failed .noMoreLines ∧
      (c.step (j, .take)).1 = .failed .noMoreLines) ∧
    (c.step (i, .hasMore)).2.isClosed = true ∧
      ∀ j calls, ((c.step (i, .hasMore)).2.run calls).delivered = c.delivered ∧
        (((c.step (i, .hasMore)).2.run calls).step (j, .borrow)).1 = .failed .noMoreLines ∧
        (((c.step (i, .hasMore)).2.run calls).step (j, .take)).1 = .failed .noMoreLines

omit [Source σ] in
/-- Until a failure nothing is lost, and the account is the lines that were handed out. -/
theorem account_of_not_failed {c : Consumer σ} (h : ¬ c.Failed) :
    c.account.whole = c.delivered ∧ c.account.lost = [] := by
  have hnone : ∀ part, Attempt.failure part ∉ c.attempts := fun part hmem => h ⟨part, hmem⟩
  have hun : ({} : Account).Unbroken := by simp [Account.Unbroken]
  obtain ⟨hunbroken, hlost⟩ := Account.addAll_of_no_failure hun rfl hnone
  refine ⟨?_, hlost⟩
  rw [delivered, ← Account.map_line_ofAttempts]
  exact hunbroken.map_line.symm

theorem step_hasMore {c : Consumer σ} {b : Bool} {c' : Cursor σ}
    (h : c.stream.cursor.hasMore = (.ok b, c')) (i : Nat) :
    (c.step (i, .hasMore)).1 = .truth b ∧ (c.step (i, .hasMore)).2.stream.cursor = c' := by
  simp only [step, Session.streamStep, h, Session.answer, and_self]

theorem step_next {c : Consumer σ} {c' : Cursor σ}
    (h : c.stream.cursor.hasMore = (.ok true, c')) (i : Nat) :
    (c.step (i, .borrow)).1 = .line c'.buffer ∧ (c.step (i, .take)).1 = .line c'.buffer ∧
      (c.step (i, .start)).1 = .iterator false ∧
      ∀ op, op = .borrow ∨ op = .take ∨ op = .start →
        (c.step (i, op)).2.delivered = c.delivered ++ [c'.buffer] := by
  have hnext : c.stream.cursor.next = (.ok c'.buffer, { c' with mustRead := true }) := by
    rw [Cursor.next, h]
  have hline : ∀ attempts, Attempt.lines (attempts ++ [.line c'.buffer]) =
      Attempt.lines attempts ++ [c'.buffer] := fun attempts => Attempt.lines_append attempts _
  refine ⟨?_, ?_, ?_, ?_⟩
  · simp only [step, Session.streamStep, hnext, Session.answer]
  · simp only [step, Session.streamStep, hnext, Session.answer]
  · simp only [step, Session.streamStep, Session.moveIterator, h]
  · rintro op (rfl | rfl | rfl)
    · simp only [delivered, step, Session.streamStep, hnext, Session.answer, shown, hline]
    · simp only [delivered, step, Session.streamStep, hnext, Session.answer, shown, hline]
    · simp only [delivered, step, Session.streamStep, Session.moveIterator, h, shown, hline]

theorem step_next_of_no_more {c : Consumer σ} {c' : Cursor σ}
    (h : c.stream.cursor.hasMore = (.ok false, c')) (i : Nat) :
    (c.step (i, .borrow)).1 = .failed .noMoreLines ∧
      (c.step (i, .take)).1 = .failed .noMoreLines := by
  simp only [step, Session.streamStep, Cursor.next, h, Session.answer, and_self]

/-- An iterator that is at the end of a stream shows nothing. -/
theorem step_start_of_no_more {c : Consumer σ} {c' : Cursor σ}
    (h : c.stream.cursor.hasMore = (.ok false, c')) (i : Nat) :
    (c.step (i, .start)).1 = .iterator true ∧ (c.step (i, .start)).2.delivered = c.delivered := by
  simp only [delivered, step, Session.streamStep, Session.moveIterator, h, shown, List.append_nil,
    and_self]

/-- An iterator that stands on a line moves as one that is made anew. -/
theorem step_advance {c : Consumer σ} {i : Nat} (h : c.iterators i = .onLine) :
    (c.step (i, .advance)).1 = (c.step (i, .start)).1 ∧
      (c.step (i, .advance)).2.delivered = (c.step (i, .start)).2.delivered := by
  have hmove : Session.streamStep .advance { c.stream with iterator := c.iterators i } =
      Session.streamStep .start { c.stream with iterator := c.iterators i } := by
    rw [Session.streamStep, Session.streamStep, if_pos h]
  have hshown : ∀ answer buffer, shown .advance answer buffer = shown .start answer buffer := by
    intro answer buffer
    cases answer with
    | iterator atEnd => cases atEnd <;> rfl
    | _ => rfl
  simp only [delivered, step, hmove, hshown, and_self]

theorem step_advance_off_line {c : Consumer σ} {i : Nat} (h : c.iterators i ≠ .onLine) :
    (c.step (i, .advance)).1 = .iterator true ∧
      (c.step (i, .advance)).2.delivered = c.delivered ∧
      (c.step (i, .advance)).2.stream.cursor = c.stream.cursor := by
  simp only [delivered, step, Session.streamStep, if_neg h, shown, List.append_nil, and_self]

/-- A loop that does not fail answers with what it has taken, and hands it out. -/
theorem step_range {c : Consumer σ} {most : Option Nat} {taken : List Bytes}
    (hends : ∀ e, (Session.range most c.stream.cursor).ending ≠ .failed e)
    (htaken : (Session.range most c.stream.cursor).value.1 = taken.reverse) (i : Nat) :
    (c.step (i, .range most)).1 = .lines taken none ∧
      (c.step (i, .range most)).2.delivered = c.delivered ++ taken := by
  have hnone : ∀ buffer, (Session.range most c.stream.cursor).ending.attempts buffer = [] := by
    intro buffer
    cases hending : (Session.range most c.stream.cursor).ending with
    | failed e => exact absurd hending (hends e)
    | exhausted | stopped => rfl
  have hshown := range_shown most { c.stream with iterator := c.iterators i }
  constructor
  · simp only [step, Session.streamStep, htaken, List.reverse_reverse]
  · simp only [delivered, step, hshown, hnone, htaken, List.reverse_reverse, List.append_nil,
      Attempt.lines_append, Attempt.lines_map_line]

theorem step_range_failed {c : Consumer σ} {most : Option Nat} {e : Error} (he : e.IsReading)
    (hending : (Session.range most c.stream.cursor).ending = .failed e) (i : Nat) :
    (c.step (i, .range most)).2.Failed := by
  refine ⟨(Session.range most c.stream.cursor).cursor.buffer, ?_⟩
  have hshown := range_shown most { c.stream with iterator := c.iterators i }
  rw [hending, Cursor.Ending.attempts, Attempt.ofError_of_isReading he] at hshown
  simp only [step, hshown]
  simp

/-- If reading does not fail and closing cannot, asking answers yes or no. -/
theorem hasMore_of_not_failed (hR : Source.Delivery faults R)
    (hfaults : ∀ e, faults e → e.IsReading)
    (hquiet : ∀ src data, R src data → (Source.close src).1 = none) {c : Consumer σ}
    (h : c.Follows R limit lines) {i : Nat} (hfailed : ¬ (c.step (i, .hasMore)).2.Failed) :
    ∃ b, (c.step (i, .hasMore)).1 = .truth b := by
  have hasked := Cursor.Follows.hasMore hR h
  rcases hc : c.stream.cursor.hasMore with ⟨e | b, c'⟩
  · rw [hc] at hasked
    refine absurd ⟨c'.buffer, ?_⟩ hfailed
    have hattempts : (c.step (i, .hasMore)).2.attempts = c.attempts ++ [.failure c'.buffer] := by
      simp only [step, Session.streamStep, hc, Session.answer, shown,
        Attempt.ofError_of_isReading (hasked.isReading hfaults hquiet)]
    rw [hattempts]
    exact List.mem_append_right _ List.mem_cons_self
  · exact ⟨b, (step_hasMore hc i).1⟩

/-- An answer to the question whether there is more comes from the cursor. It shows nothing. -/
theorem asked_of_answer (hR : Source.Delivery faults R) (hfaults : ∀ e, faults e → e.IsReading)
    {c : Consumer σ} (h : c.Follows R limit lines) {i : Nat} {b : Bool}
    (hb : (c.step (i, .hasMore)).1 = .truth b) :
    c.stream.cursor.hasMore = (.ok b, (c.step (i, .hasMore)).2.stream.cursor) ∧
      (c.step (i, .hasMore)).2.attempts = c.attempts ∧
      Cursor.Asked R faults limit lines c.account c.stream.cursor (.ok b)
        (c.step (i, .hasMore)).2.stream.cursor ∧
      (c.step (i, .hasMore)).2.Follows R limit lines := by
  have hasked := Cursor.Follows.hasMore hR h
  have heq : c.stream.cursor.hasMore = (.ok b, (c.step (i, .hasMore)).2.stream.cursor) ∧
      (c.step (i, .hasMore)).2.attempts = c.attempts := by
    simp only [step, Session.streamStep] at hb ⊢
    rcases hc : c.stream.cursor.hasMore with ⟨e | b', c'⟩
    · rw [hc] at hb
      cases hb
    · rw [hc] at hb
      obtain rfl := Answer.truth.inj hb
      exact ⟨rfl, List.append_nil _⟩
  obtain ⟨hc, hattempts⟩ := heq
  rw [hc] at hasked
  refine ⟨hc, hattempts, hasked, ?_⟩
  rw [Consumer.Follows, account, hattempts]
  exact (hasked.follows hfaults).1 b rfl

/-- Unless reading fails, a loop over a stream that has lost nothing hands out what is left of the
lines up to its limit. -/
theorem step_range_of_not_failed (hR : Source.Delivery faults R)
    (hfaults : ∀ e, faults e → e.IsReading)
    (hquiet : ∀ src data, R src data → (Source.close src).1 = none) {c : Consumer σ}
    (h : c.Follows R limit lines) (hlost : c.account.lost = []) {most : Option Nat} {i : Nat}
    (hfailed : ¬ (c.step (i, .range most)).2.Failed) :
    ∃ taken, (c.step (i, .range most)).1 = .lines taken none ∧
      (c.step (i, .range most)).2.delivered = c.delivered ++ taken ∧
      taken = if c.isClosed then [] else upTo most (lines.drop c.account.whole.length) := by
  by_cases hclosed : c.isClosed = true
  · have hended := Cursor.Follows.ended h hclosed
    have hrange : Session.range most c.stream.cursor = ⟨.exhausted, ([], 0), _⟩ :=
      Cursor.walk_of_exhausted hended.hasMore
    obtain ⟨hanswer, hdelivered⟩ := step_range (fun e => by rw [hrange]; nofun)
      (show _ = List.reverse [] by rw [hrange]; rfl) i
    exact ⟨[], hanswer, hdelivered, (if_pos hclosed).symm⟩
  · rw [if_neg hclosed]
    rcases walk_takes hR hfaults hquiet most ([], 0) h hlost (Bool.not_eq_true _ ▸ hclosed) with
      ⟨e, hreading, hending⟩ | ⟨hends, htaken⟩
    · exact absurd (step_range_failed hreading hending i) hfailed
    · rw [List.append_nil] at htaken
      obtain ⟨hanswer, hdelivered⟩ := step_range hends htaken i
      refine ⟨_, hanswer, hdelivered, ?_⟩
      cases most <;> rfl

/-- A consumer whose reads have not failed is faithful. -/
theorem faithful_of_follows (hR : Source.Delivery faults R)
    (hfaults : ∀ e, faults e → e.IsReading)
    (hquiet : ∀ src data, R src data → (Source.close src).1 = none) {c : Consumer σ}
    (h : c.Follows R limit lines) (hfailed : ¬ c.Failed) : c.Faithful lines := by
  obtain ⟨hwhole, hlost⟩ := account_of_not_failed hfailed
  constructor
  case delivers_first =>
    rw [← hwhole]
    exact Cursor.Follows.whole_isPrefix h
  case reads_ahead =>
    intro hopen
    rw [← hwhole]
    exact Cursor.Follows.lines_eq h hopen
  case close_discards =>
    intro i
    obtain ⟨hended, -, -⟩ := Cursor.Follows.close h
    refine ⟨hended.isClosed, ?_, Cursor.close_lines _⟩
    show Attempt.lines (c.attempts ++ []) = Attempt.lines c.attempts
    rw [List.append_nil]
  case hasMore =>
    intro i hfailed'
    obtain ⟨b, hb⟩ := hasMore_of_not_failed hR hfaults hquiet h hfailed'
    obtain ⟨-, -, hasked, -⟩ := asked_of_answer hR hfaults h hb
    refine ⟨b, hb, ?_⟩
    rw [← hwhole]
    exact hasked.eq_false_iff hlost
  case hasMore_again =>
    intro i j b calls hb hcalls hsame
    obtain ⟨-, hattempts, hasked, hfollows⟩ := asked_of_answer hR hfaults h hb
    obtain ⟨hmust, hpending⟩ := hasked.known
    have hsame' : ((c.step (i, .hasMore)).2.run calls).delivered =
        (c.step (i, .hasMore)).2.delivered := by
      rw [hsame, delivered, delivered, hattempts]
    have hcursor := run_of_known hR hfaults hcalls hfollows hmust hsame'
    have hagain := Cursor.hasMore_of_not_mustRead hmust
    rw [hpending, ← hcursor] at hagain
    obtain ⟨htruth, hcursor'⟩ := step_hasMore hagain j
    exact ⟨htruth, hcursor'.trans hcursor⟩
  case next =>
    intro i hb
    obtain ⟨hc, -, hasked, -⟩ := asked_of_answer hR hfaults h hb
    refine ⟨_, ?_, step_next hc⟩
    rw [← hwhole]
    exact hasked.getElem?_eq hlost
  case advance =>
    intro i j hline
    obtain ⟨hanswer, hdelivered⟩ := step_advance hline
    rw [hanswer, hdelivered]
    refine ⟨fun hb => ?_, fun hb => ?_⟩
    · obtain ⟨hc, -, hasked, -⟩ := asked_of_answer hR hfaults h hb
      obtain ⟨-, -, hstart, htakes⟩ := step_next hc j
      refine ⟨_, ?_, hstart, htakes .start (.inr (.inr rfl))⟩
      rw [← hwhole]
      exact hasked.getElem?_eq hlost
    · obtain ⟨hc, -⟩ := asked_of_answer hR hfaults h hb
      exact step_start_of_no_more hc j
  case advance_off_line => exact fun j => step_advance_off_line
  case range =>
    intro i most hfailed'
    have hrange := step_range_of_not_failed hR hfaults hquiet h hlost hfailed'
    rwa [hwhole] at hrange
  case ended =>
    intro i hb
    obtain ⟨hc, hattempts, hasked, -⟩ := asked_of_answer hR hfaults h hb
    cases hasked with
    | noMore hended hfirst hend =>
      refine ⟨step_next_of_no_more hc, hended.isClosed, fun j calls => ?_⟩
      obtain ⟨hcursor, hsame⟩ := run_of_ended calls hended
      have hmore := hended.hasMore
      rw [← hcursor] at hmore
      refine ⟨?_, step_next_of_no_more hmore j⟩
      rw [delivered, delivered, hsame, hattempts]

omit [Source σ] in
theorem ofSource_follows {source : σ} {data : Bytes} (h : R source data)
    (chunkBytes maxLineBytes : Nat) :
    (ofSource source chunkBytes maxLineBytes).Follows R maxLineBytes (Line.cut data) :=
  .reading rfl (Splitter.accounts_of_held h chunkBytes maxLineBytes)

/-- Any history of a stream over a source that does not fail. If no line is too long, no operation
fails to read, and as long as none has, the lines of the data are handed out faithfully. -/
theorem run_faithful {source : σ} {data : Bytes} (hdata : Source.Delivers source data)
    (hclose : Source.ClosesQuietly source) (chunkBytes maxLineBytes : Nat)
    (calls : List (Nat × StreamOp)) :
    ((∀ line ∈ Line.cut data, Splitter.Fits maxLineBytes line.length) →
      ¬ ((ofSource source chunkBytes maxLineBytes).run calls).Failed) ∧
    (¬ ((ofSource source chunkBytes maxLineBytes).run calls).Failed →
      ((ofSource source chunkBytes maxLineBytes).run calls).Faithful (Line.cut data)) := by
  have hR : Source.Delivery (fun _ => False) fun (s : σ) data =>
      Source.Delivers s data ∧ Source.ClosesQuietly s :=
    (Source.delivery_deliversBut _).and fun s n hs => hs.read n
  have hfaults : ∀ e : Error, False → e.IsReading := fun _ => False.elim
  have hquiet : ∀ (s : σ) (data : Bytes),
      Source.Delivers s data ∧ Source.ClosesQuietly s → (Source.close s).1 = none :=
    fun _ _ hs => hs.2.close_eq
  have hstart := ofSource_follows (R := fun (s : σ) data =>
    Source.Delivers s data ∧ Source.ClosesQuietly s) ⟨hdata, hclose⟩ chunkBytes maxLineBytes
  obtain ⟨hfollows, attempts, hattempts, hcause⟩ := run_follows hR hfaults calls hstart
  refine ⟨?_, faithful_of_follows hR hfaults hquiet hfollows⟩
  rintro hfits ⟨part, hmem⟩
  rw [hattempts] at hmem
  obtain ⟨e, hfault | ⟨line, hline, hlong⟩ | ⟨s, rest, hs, hsome⟩⟩ := hcause part hmem
  · exact hfault
  · exact hlong (hfits line hline)
  · rw [hquiet s rest hs] at hsome
    cases hsome

/-- Two iterators and a loan share the lines of a stream, which is left before its end. -/
theorem run_faithful_shared :
    let src : Memory := { rest := Bytes.ascii "one\r\ntwo\nthree", step := 2 }
    let calls := [(0, .start), (1, .start), (0, .hasMore), (1, .borrow), (1, .close)]
    Source.Delivers src src.rest ∧ Source.ClosesQuietly src ∧
      (∀ line ∈ Line.cut src.rest, Splitter.Fits 5 line.length) ∧
      ((ofSource src 3 5).run calls).Faithful (Line.cut src.rest) := by
  intro src calls
  have hdata : Source.Delivers src src.rest := Memory.delivers (by decide) rfl rfl
  have hclose : Source.ClosesQuietly src := Memory.closesQuietly rfl
  have hfits : ∀ line ∈ Line.cut src.rest, Splitter.Fits 5 line.length := by
    simp only [Splitter.Fits]
    decide
  obtain ⟨hfails, hfaithful⟩ := run_faithful hdata hclose 3 5 calls
  exact ⟨hdata, hclose, hfits, hfaithful (hfails hfits)⟩

end Consumer

end TextLines
