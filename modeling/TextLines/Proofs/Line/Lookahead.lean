import TextLines.Line.Cursor
import TextLines.Proofs.Line.Account

/-!
# One line ahead

A cursor has read at most one line that nobody has taken. `Cursor.Follows R limit lines a c` says
where it stands: it must read to know more, or the next of the lines is pending in its buffer, or it
is closed and stays so. In each case the account `a` of what has been taken from it fits the lines.

What asking for more lines comes to is said twice. `Cursor.Looks` lists it for an open cursor from
what its splitter has found, without an account. `Cursor.Asked` lists it for the account, and
`Follows.hasMore` says that it comes to nothing else. Taking a line (`Follows.next`), walking over
the lines (`Follows.walk`) and closing (`Follows.close`) are derived from it without another look at
the splitter.
-/

namespace TextLines

open Line (Attempt Account)

/-- The failure of a read, in contrast to a failure to open or to close. -/
def Error.IsReading (e : Error) : Prop :=
  ∃ fault, e = .reading fault

/-- What a failure shows: if reading has failed, the part of a line in the buffer has been
consumed. -/
def Line.Attempt.ofError (e : Error) (buffer : Bytes) : List Attempt :=
  match e with
  | .reading _ => [.failure buffer]
  | _ => []

theorem Line.Attempt.ofError_of_isReading {e : Error} (h : e.IsReading) (buffer : Bytes) :
    Attempt.ofError e buffer = [.failure buffer] := by
  obtain ⟨fault, rfl⟩ := h
  rfl

theorem Line.Attempt.ofError_cases (e : Error) (buffer : Bytes) :
    Attempt.ofError e buffer = [.failure buffer] ∨ Attempt.ofError e buffer = [] := by
  cases e with
  | reading fault => exact .inl rfl
  | _ => exact .inr rfl

namespace Cursor

variable {σ : Type} [Source σ] {faults : Error → Prop} {R : σ → Bytes → Prop} {limit : Nat}
  {lines : List Bytes} {a : Account}

/-- The cursor is closed, and it knows that there is nothing more. -/
structure Ended (c : Cursor σ) : Prop where
  isClosed : c.isClosed = true
  mustRead : c.mustRead = false
  pending : c.pending = false

/-- Where a cursor stands in the lines, when `a` is the account of what was taken from it. -/
inductive Follows (R : σ → Bytes → Prop) (limit : Nat) (lines : List Bytes) (a : Account)
    (c : Cursor σ) : Prop where
  /-- It has to read. -/
  | reading (hmust : c.mustRead = true) (haccounts : c.splitter.Accounts R limit lines a)
  /-- It has read the line that is in its buffer. -/
  | pending (hmust : c.mustRead = false) (hpending : c.pending = true)
      (haccounts : c.splitter.Accounts R limit lines (a.add (.line c.buffer)))
  /-- It is closed. -/
  | closed (hended : c.Ended) (hfirst : a.whole <+: lines)

/-- What asking for more lines can come to. -/
inductive Asked (R : σ → Bytes → Prop) (faults : Error → Prop) (limit : Nat)
    (lines : List Bytes) (a : Account) (c : Cursor σ) : Except Error Bool → Cursor σ → Prop where
  /-- The next line is pending. -/
  | more {c' : Cursor σ} (hopen : c.isClosed = false) (hmust : c'.mustRead = false)
      (hpending : c'.pending = true)
      (haccounts : c'.splitter.Accounts R limit lines (a.add (.line c'.buffer))) :
      Asked R faults limit lines a c (.ok true) c'
  /-- There are no more lines: the cursor was closed, or the lines have come to their end. -/
  | noMore {c' : Cursor σ} (hended : c'.Ended) (hfirst : a.whole <+: lines)
      (hend : c.isClosed = true ∨ lines = a.whole ++ Line.cut a.lost) :
      Asked R faults limit lines a c (.ok false) c'
  /-- Reading has failed, and it is to be tried again. -/
  | failed {e : Error} {c' : Cursor σ} (hmust : c'.mustRead = true)
      (haccounts : c'.splitter.Accounts R limit lines (a.add (.failure c'.buffer)))
      (hcause : faults e ∨ e = .reading (.lineTooLong (a.handed.length + 1) limit) ∧
        ∃ line ∈ lines, ¬ Splitter.Fits limit line.length) :
      Asked R faults limit lines a c (.error e) c'
  /-- There are no more lines, and closing has failed. -/
  | unclosed {e : Error} {c' : Cursor σ} (hended : c'.Ended) (hfirst : a.whole <+: lines)
      (hbuffer : c'.buffer = [])
      (hclose : ∃ src data, R src data ∧ (Source.close src).1 = some e) :
      Asked R faults limit lines a c (.error e) c'

/-- What a failure can come from: the source, a line that is too long, or closing the source. -/
def Cause (R : σ → Bytes → Prop) (faults : Error → Prop) (limit : Nat) (lines : List Bytes)
    (e : Error) : Prop :=
  faults e ∨ (∃ line ∈ lines, ¬ Splitter.Fits limit line.length) ∨
    ∃ src data, R src data ∧ (Source.close src).1 = some e

/-! ## Closing -/

omit [Source σ] in
theorem isClosed_of_ahead {c : Cursor σ} {text : Bytes} (h : c.splitter.Ahead R text) :
    c.isClosed = false := by
  obtain ⟨src, rest, hheld, -⟩ := h
  rw [isClosed, Splitter.isClosed, hheld]
  rfl

omit [Source σ] in
theorem isClosed_of_accounts {c : Cursor σ} (h : c.splitter.Accounts R limit lines a) :
    c.isClosed = false := by
  obtain ⟨text, hahead, -⟩ := h
  exact isClosed_of_ahead hahead

/-- Closing an open cursor closes its source, whether or not the source fails. -/
theorem close_of_ahead {c : Cursor σ} {text : Bytes} (h : c.splitter.Ahead R text) :
    c.close.2.Ended ∧ c.close.2.buffer = c.buffer ∧
      ∃ src data, R src data ∧ c.close.1 = (Source.close src).1 := by
  have hopen := isClosed_of_ahead h
  obtain ⟨src, rest, hheld, hR, -⟩ := h
  have hopen' : c.splitter.isClosed = false := hopen
  have hclose : c.close =
      ((Source.close src).1, { c with
        splitter := { c.splitter with
          handle := .released (Source.close src).2 (Source.bytesRead src), chunk := [] }
        pending := false
        mustRead := false }) := by
    rw [close, hopen, Splitter.close, hopen', hheld]
    rfl
  rw [hclose]
  exact ⟨⟨rfl, rfl, rfl⟩, rfl, src, rest, hR, rfl⟩

theorem close_of_accounts {c : Cursor σ} (h : c.splitter.Accounts R limit lines a) :
    c.close.2.Ended ∧ c.close.2.buffer = c.buffer ∧
      ∃ src data, R src data ∧ c.close.1 = (Source.close src).1 := by
  obtain ⟨text, hahead, -⟩ := h
  exact close_of_ahead hahead

/-- Closing reads nothing. -/
theorem close_lines (c : Cursor σ) : c.close.2.splitter.lines = c.splitter.lines := by
  have hsplitter : c.splitter.close.2.lines = c.splitter.lines := by
    rw [Splitter.close]
    split <;> rfl
  rw [close]
  split
  · rfl
  · exact hsplitter

theorem close_of_isClosed {c : Cursor σ} (h : c.isClosed = true) : c.close = (none, c) := by
  rw [close, h]
  rfl

omit [Source σ] in
theorem Follows.whole_isPrefix {c : Cursor σ} (h : c.Follows R limit lines a) :
    a.whole <+: lines := by
  cases h with
  | reading hmust haccounts => exact haccounts.whole_isPrefix
  | pending hmust hpending haccounts =>
    refine List.IsPrefix.trans ?_ haccounts.whole_isPrefix
    rw [Account.whole_add_line]
    exact List.prefix_append _ _
  | closed hended hfirst => exact hfirst

omit [Source σ] in
/-- A cursor that is closed knows that there is nothing more. -/
theorem Follows.ended {c : Cursor σ} (h : c.Follows R limit lines a) (hclosed : c.isClosed = true) :
    c.Ended := by
  cases h with
  | reading hmust haccounts =>
    rw [isClosed_of_accounts haccounts] at hclosed
    cases hclosed
  | pending hmust hpending haccounts =>
    rw [isClosed_of_accounts haccounts] at hclosed
    cases hclosed
  | closed hended hfirst => exact hended

/-- After a close nothing more is pending, and the buffer is as it was. -/
theorem Follows.close {c : Cursor σ} (h : c.Follows R limit lines a) :
    c.close.2.Ended ∧ c.close.2.buffer = c.buffer ∧ c.close.2.Follows R limit lines a := by
  have hfirst := h.whole_isPrefix
  cases h with
  | reading hmust haccounts =>
    obtain ⟨hended, hbuffer, -⟩ := close_of_accounts haccounts
    exact ⟨hended, hbuffer, .closed hended hfirst⟩
  | pending hmust hpending haccounts =>
    obtain ⟨hended, hbuffer, -⟩ := close_of_accounts haccounts
    exact ⟨hended, hbuffer, .closed hended hfirst⟩
  | closed hended _ =>
    rw [close_of_isClosed hended.isClosed]
    exact ⟨hended, rfl, .closed hended hfirst⟩

/-! ## Asking for more -/

/-- A cursor that knows the answer gives it and does nothing. -/
theorem hasMore_of_not_mustRead {c : Cursor σ} (h : c.mustRead = false) :
    c.hasMore = (.ok c.pending, c) := by
  rw [hasMore, h]
  rfl

/-- The cursor when it has looked for a line and knows whether there is one. -/
def looked (c : Cursor σ) (pending : Bool) : Cursor σ :=
  { c with
    splitter := c.splitter.readLine.next, buffer := c.splitter.readLine.line
    pending, mustRead := false }

/-- What an open cursor that must read comes to when it is asked for more. -/
inductive Looks (c : Cursor σ) : Except Error Bool × Cursor σ → Prop where
  /-- There is a line. -/
  | line : Looks c (.ok true, c.looked true)
  /-- Looking for one fails, and the cursor must look again. -/
  | failed {e : Error} : Looks c (.error e, { c.looked c.pending with mustRead := true })
  /-- There is none, and the cursor closes. -/
  | atEnd {d : Cursor σ} (hclose : (c.looked false).close = (none, d)) : Looks c (.ok false, d)
  /-- There is none, and the cursor cannot be closed. -/
  | unclosed {e : Error} {d : Cursor σ} (hclose : (c.looked false).close = (some e, d)) :
      Looks c (.error e, d)

theorem hasMore_looks {c : Cursor σ} (hmust : c.mustRead = true) (hopen : c.isClosed = false) :
    c.Looks c.hasMore := by
  rw [hasMore, hmust, hopen]
  simp only [Bool.not_true, Bool.false_eq_true, if_false]
  rcases c.splitter.readLine.found with e | (_ | _)
  · exact .failed
  · dsimp only
    generalize hlooked : ({ c with
      splitter := c.splitter.readLine.next, buffer := c.splitter.readLine.line
      pending := false, mustRead := false } : Cursor σ) = d
    obtain rfl : c.looked false = d := hlooked
    rcases hclose : (c.looked false).close with ⟨_ | e, d⟩
    · exact .atEnd hclose
    · exact .unclosed hclose
  · exact .line

theorem Ended.hasMore {c : Cursor σ} (h : c.Ended) : c.hasMore = (.ok false, c) := by
  rw [hasMore_of_not_mustRead h.mustRead, h.pending]

theorem hasMore_of_mustRead {c : Cursor σ} (hR : Source.Delivery faults R)
    (hmust : c.mustRead = true) (h : c.splitter.Accounts R limit lines a) :
    Asked R faults limit lines a c c.hasMore.1 c.hasMore.2 := by
  have hopen := isClosed_of_accounts h
  have hout := h.readLine hR
  have hfirst := h.whole_isPrefix
  rw [hasMore, hmust, hopen]
  simp only [Bool.not_true, Bool.false_eq_true, if_false]
  generalize c.splitter.readLine = r at hout ⊢
  cases hout with
  | line haccounts => exact .more hopen rfl rfl haccounts
  | failed haccounts hcause => exact .failed rfl haccounts hcause
  | @finished next haccounts hlines =>
    -- The end closes the cursor, and what comes of it depends on whether closing fails.
    dsimp only
    generalize hd : ({ c with
      splitter := next, buffer := [], pending := false, mustRead := false } : Cursor σ) = d
    have haccounts' : d.splitter.Accounts R limit lines a := by
      rw [← hd]
      exact haccounts
    have hempty : d.buffer = [] := by rw [← hd]
    obtain ⟨hended, hbuffer, src, data, hsrc, hclose⟩ := close_of_accounts haccounts'
    rw [hempty] at hbuffer
    rcases hdc : d.close with ⟨_ | e, c'⟩
    · rw [hdc] at hended
      exact .noMore hended hfirst (.inr hlines)
    · rw [hdc] at hended hbuffer hclose
      exact .unclosed hended hfirst hbuffer ⟨src, data, hsrc, hclose.symm⟩

theorem Follows.hasMore {c : Cursor σ} (hR : Source.Delivery faults R)
    (h : c.Follows R limit lines a) :
    Asked R faults limit lines a c c.hasMore.1 c.hasMore.2 := by
  cases h with
  | reading hmust haccounts => exact hasMore_of_mustRead hR hmust haccounts
  | pending hmust hpending haccounts =>
    rw [hasMore_of_not_mustRead hmust, hpending]
    exact .more (isClosed_of_accounts haccounts) hmust hpending haccounts
  | closed hended hfirst =>
    rw [hended.hasMore]
    exact .noMore hended hfirst (.inl hended.isClosed)

/-- Asking takes no line. A failure is put down in the account. -/
theorem Asked.follows {c c' : Cursor σ} {r : Except Error Bool}
    (hfaults : ∀ e, faults e → e.IsReading) (h : Asked R faults limit lines a c r c') :
    (∀ b, r = .ok b → c'.Follows R limit lines a) ∧
      ∀ e, r = .error e → c'.Follows R limit lines (a.addAll (Attempt.ofError e c'.buffer)) := by
  cases h with
  | more hopen hmust hpending haccounts =>
    exact ⟨fun _ _ => .pending hmust hpending haccounts, by simp⟩
  | noMore hended hfirst hend => exact ⟨fun _ _ => .closed hended hfirst, by simp⟩
  | @failed e c' hmust haccounts hcause =>
    refine ⟨by simp, fun e' he' => ?_⟩
    obtain rfl := Except.error.inj he'
    have hreading : e.IsReading := by
      rcases hcause with hfault | ⟨he, -⟩
      · exact hfaults e hfault
      · exact ⟨_, he⟩
    rw [Attempt.ofError_of_isReading hreading]
    exact .reading hmust haccounts
  | @unclosed e c' hended hfirst hbuffer hclose =>
    refine ⟨by simp, fun e' _ => ?_⟩
    rcases Attempt.ofError_cases e' c'.buffer with hattempts | hattempts
    · rw [hattempts, Account.addAll_singleton]
      exact .closed hended hfirst
    · rw [hattempts]
      exact .closed hended hfirst

theorem Asked.cause {c c' : Cursor σ} {e : Error}
    (h : Asked R faults limit lines a c (.error e) c') : Cause R faults limit lines e := by
  cases h with
  | failed hmust haccounts hcause => exact hcause.imp id fun hlong => .inl hlong.2
  | unclosed hended hfirst hbuffer hclose => exact .inr (.inr hclose)

/-- If closing cannot fail, then only reading can. -/
theorem Asked.isReading {c c' : Cursor σ} {e : Error} (hfaults : ∀ e, faults e → e.IsReading)
    (hquiet : ∀ src data, R src data → (Source.close src).1 = none)
    (h : Asked R faults limit lines a c (.error e) c') : e.IsReading := by
  cases h with
  | failed hmust haccounts hcause => exact hcause.elim (hfaults e) fun hlong => ⟨_, hlong.1⟩
  | unclosed hended hfirst hbuffer hclose =>
    obtain ⟨src, data, hsrc, hsome⟩ := hclose
    rw [hquiet src data hsrc] at hsome
    cases hsome

/-- After an answer the cursor knows it. -/
theorem Asked.known {c c' : Cursor σ} {b : Bool}
    (h : Asked R faults limit lines a c (.ok b) c') : c'.mustRead = false ∧ c'.pending = b := by
  cases h with
  | more hopen hmust hpending haccounts => exact ⟨hmust, hpending⟩
  | noMore hended hfirst hend => exact ⟨hended.mustRead, hended.pending⟩

/-- If nothing is lost, there is no more when all lines have been taken or the cursor was closed. -/
theorem Asked.eq_false_iff {c c' : Cursor σ} {b : Bool}
    (h : Asked R faults limit lines a c (.ok b) c') (hlost : a.lost = []) :
    b = false ↔ a.whole = lines ∨ c.isClosed = true := by
  cases h with
  | more hopen hmust hpending haccounts =>
    obtain ⟨text, -, -, hlines, -⟩ := haccounts
    refine ⟨by simp, ?_⟩
    rintro (hall | hclosed)
    · have hlen := congrArg List.length hlines
      rw [Account.whole_add_line, hall] at hlen
      simp only [List.length_append, List.length_singleton] at hlen
      omega
    · rw [hopen] at hclosed
      cases hclosed
  | noMore hended hfirst hend =>
    refine ⟨fun _ => ?_, fun _ => rfl⟩
    rcases hend with hclosed | hlines
    · exact .inr hclosed
    · rw [hlost, Line.cut_nil, List.append_nil] at hlines
      exact .inl hlines.symm

/-- If nothing is lost and there is more, the next of the lines is in the buffer. -/
theorem Asked.getElem?_eq {c c' : Cursor σ} (h : Asked R faults limit lines a c (.ok true) c')
    (hlost : a.lost = []) : lines[a.whole.length]? = some c'.buffer := by
  cases h with
  | more hopen hmust hpending haccounts =>
    obtain ⟨text, -, -, hlines, -⟩ := haccounts
    rw [hlines, Account.whole_add_line, hlost, List.nil_append, List.append_assoc,
      List.getElem?_append_right (Nat.le_refl _), Nat.sub_self]
    rfl

/-- If nothing is lost and there is more, it is the first of the lines that are left. -/
theorem Asked.drop_eq {c c' : Cursor σ} (h : Asked R faults limit lines a c (.ok true) c')
    (hlost : a.lost = []) :
    lines.drop a.whole.length =
      c'.buffer :: lines.drop (a.add (.line c'.buffer)).whole.length := by
  rw [List.drop_eq_getElem?_toList_append, h.getElem?_eq hlost, Account.whole_add_line,
    List.length_append, List.length_singleton]
  rfl

omit [Source σ] in
/-- An open cursor has read the lines that were taken, and the one that is pending. -/
theorem Follows.lines_eq {c : Cursor σ} (h : c.Follows R limit lines a)
    (hopen : c.isClosed = false) :
    c.splitter.lines = a.whole.length + (c.pending && !c.mustRead).toNat := by
  rw [Account.length_whole]
  cases h with
  | reading hmust haccounts =>
    obtain ⟨text, -, -, -, hcount, -⟩ := haccounts
    rw [hcount, hmust, Bool.not_true, Bool.and_false]
    rfl
  | pending hmust hpending haccounts =>
    obtain ⟨text, -, -, -, hcount, -⟩ := haccounts
    rw [hcount, hmust, hpending, Account.add, List.length_append]
    rfl
  | closed hended hfirst =>
    rw [hended.isClosed] at hopen
    cases hopen

/-! ## Taking lines -/

/-- What a call for the next line shows. -/
def nextAttempts (r : Except Error Bytes) (buffer : Bytes) : List Attempt :=
  match r with
  | .ok line => [.line line]
  | .error e => Attempt.ofError e buffer

theorem Follows.next {c : Cursor σ} (hR : Source.Delivery faults R)
    (hfaults : ∀ e, faults e → e.IsReading) (h : c.Follows R limit lines a) :
    c.next.2.Follows R limit lines (a.addAll (nextAttempts c.next.1 c.next.2.buffer)) := by
  have hasked := h.hasMore hR
  have hfollows := hasked.follows hfaults
  rw [Cursor.next]
  rcases hc : c.hasMore with ⟨e | (_ | _), c'⟩
  · rw [hc] at hfollows
    exact hfollows.2 e rfl
  · rw [hc] at hfollows
    exact hfollows.1 false rfl
  · rw [hc] at hasked
    cases hasked with
    | more hopen hmust hpending haccounts => exact .reading rfl haccounts

/-- A call that does not give a line has come to the end, or it has failed for some cause. -/
theorem Follows.next_error {c : Cursor σ} (hR : Source.Delivery faults R)
    (h : c.Follows R limit lines a) {e : Error} (he : c.next.1 = .error e) :
    e = .noMoreLines ∨ Cause R faults limit lines e := by
  have hasked := h.hasMore hR
  rw [Cursor.next] at he
  rcases hc : c.hasMore with ⟨e' | (_ | _), c'⟩
  · rw [hc] at he hasked
    obtain rfl := Except.error.inj he
    exact .inr hasked.cause
  · rw [hc] at he
    exact .inl (Except.error.inj he).symm
  · rw [hc] at he
    cases he

/-- A call that gives no line leaves the cursor as asking did. -/
theorem next_cursor_of_no_line {c : Cursor σ} (h : ∀ line, c.next.1 ≠ .ok line) :
    c.next.2 = c.hasMore.2 := by
  rw [Cursor.next] at h ⊢
  rcases hc : c.hasMore with ⟨e | (_ | _), c'⟩
  · rfl
  · rfl
  · rw [hc] at h
    exact absurd rfl (h c'.buffer)

/-- What the end of a walk shows. -/
def Ending.attempts (ending : Ending) (buffer : Bytes) : List Attempt :=
  match ending with
  | .failed e => Attempt.ofError e buffer
  | _ => []

/-- A walk with a visitor who notes every line takes the lines that were noted. If there are none,
it has only asked. If it fails, then for some cause. -/
theorem Follows.walk {α : Type} {c : Cursor σ} (hR : Source.Delivery faults R)
    (hfaults : ∀ e, faults e → e.IsReading) {visit : Bytes → α → Visit α}
    (seen : α → List Bytes)
    (hvisit : ∀ line v v', visit line v = .goOn v' ∨ visit line v = .stop v' →
      seen v' = line :: seen v)
    (v : α) (h : c.Follows R limit lines a) :
    ∃ taken : List Bytes, seen (c.walk visit v).value = taken.reverse ++ seen v ∧
      (c.walk visit v).cursor.Follows R limit lines (a.addAll (taken.map Attempt.line ++
        (c.walk visit v).ending.attempts (c.walk visit v).cursor.buffer)) ∧
      (taken = [] → (c.walk visit v).cursor = c.hasMore.2) ∧
      ∀ e, (c.walk visit v).ending = .failed e → Cause R faults limit lines e := by
  fun_induction Cursor.walk visit v c generalizing a with
  | case1 v c e c' hc =>
    have hasked := h.hasMore hR
    have hfollows := hasked.follows hfaults
    rw [hc] at hasked hfollows
    refine ⟨[], rfl, hfollows.2 e rfl, fun _ => by rw [hc], fun e' he' => ?_⟩
    obtain rfl := Ending.failed.inj he'
    exact hasked.cause
  | case2 v c c' hc =>
    have hfollows := (h.hasMore hR).follows hfaults
    rw [hc] at hfollows
    exact ⟨[], rfl, hfollows.1 false rfl, fun _ => by rw [hc], by simp⟩
  | case3 v c c' hc v' hv =>
    have hasked := h.hasMore hR
    rw [hc] at hasked
    cases hasked with
    | more hopen hmust hpending haccounts =>
      exact ⟨[c'.buffer], hvisit _ _ _ (.inr hv), .reading rfl haccounts, by simp, by simp⟩
  | case4 v c c' hc v' hv ih =>
    have hasked := h.hasMore hR
    rw [hc] at hasked
    cases hasked with
    | more hopen hmust hpending haccounts =>
      obtain ⟨taken, hseen, hfollows, -, hcause⟩ := ih (.reading rfl haccounts)
      refine ⟨c'.buffer :: taken, ?_, ?_, by simp, hcause⟩
      · rw [hseen, hvisit _ _ _ (.inl hv), List.reverse_cons, List.append_assoc]
        rfl
      · rw [List.map_cons, List.cons_append, Account.addAll_cons]
        exact hfollows

end Cursor

end TextLines
