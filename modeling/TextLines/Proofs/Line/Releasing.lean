import TextLines.Proofs.Line.Lookahead
import TextLines.Proofs.Source.Tracing

/-!
# Cursors release their sources

A cursor over a traced source uses it as a source is to be used and closes it once, when the lines
are exhausted or when it is told to (`Cursor.Tracked`). `Cursor.Goes` is what becomes of a cursor
in an operation: the list `thrown` holds the failures to close the source that have come up in it.
Every operation shows them: `hasMore_goes`, `next_goes`, `close_goes` and `walk_goes`. A cursor that
says that there are no more lines is closed.
-/

namespace TextLines

open scoped List

variable {σ : Type} [Source σ]

/-- The failure that a result is. -/
def failure? {α : Type} : Except Error α → Option Error
  | .ok _ => none
  | .error e => some e

/-! ## Splitters -/

/-- The source behind a handle is used as a source is to be used. It is closed when the handle lets
go of it. -/
inductive Handle.Tracked (ended : Bool) : Handle (Traced σ) → Prop where
  | absent : Tracked ended .absent
  | held {source : Traced σ} (h : source.InUse ended) : Tracked ended (.held source)
  | released {source : Traced σ} {n : Nat} (h : source.Released) :
    Tracked ended (.released source n)

/-- The splitter holds a source in use. -/
def Splitter.Uses (handle : Handle (Traced σ)) (ended : Bool) : Prop :=
  ∃ source, handle = .held source ∧ source.InUse ended

theorem Splitter.refill_uses {s s' : Splitter (Traced σ)} {r : Except Error Bool}
    (h : Uses s.handle s.ended) (hr : s.refill = (r, s')) : Uses s'.handle s'.ended := by
  obtain ⟨source, hheld, hinUse⟩ := h
  rw [refill, hheld] at hr
  cases hended : s.ended with
  | true =>
    simp only [hended, if_true, Prod.mk.injEq] at hr
    obtain ⟨-, rfl⟩ := hr
    exact ⟨source, hheld, hinUse⟩
  | false =>
    rw [hended] at hinUse
    dsimp only at hr
    rw [hended, if_neg Bool.false_ne_true] at hr
    rcases hread : Source.read (max s.chunkBytes 1) source with ⟨e | piece, source'⟩
    · rw [hread] at hr
      obtain ⟨-, rfl⟩ := Prod.mk.inj hr
      exact ⟨source', rfl, hended ▸ hinUse.read hread⟩
    · rw [hread] at hr
      obtain ⟨-, rfl⟩ := Prod.mk.inj hr
      have hread' := hinUse.read hread
      refine ⟨source', rfl, ?_⟩
      cases piece with
      | nil => exact hread'
      | cons b piece => exact hread'

theorem Splitter.readLine_uses {s : Splitter (Traced σ)} (h : Uses s.handle s.ended) :
    Uses s.readLine.next.handle s.readLine.next.ended :=
  scan_keeps refill_uses s [] 0 h

namespace Cursor

/-! ## One step of a cursor -/

/-- The source of a cursor is used as a source is to be used, and a cursor that has come to the end
of the lines is closed. -/
structure Tracked (c : Cursor (Traced σ)) : Prop where
  handle : c.splitter.handle.Tracked c.splitter.ended
  atEnd : c.mustRead = true ∨ c.pending = true ∨ c.isClosed = true

/-- The failures to close the source. -/
def closeFailures (c : Cursor (Traced σ)) : List Error :=
  c.source?.toList.flatMap Traced.closeFailures

/-- What becomes of a cursor in an operation in which closing has failed with `thrown`. -/
structure Goes (c : Cursor (Traced σ)) (thrown : List Error) (c' : Cursor (Traced σ)) : Prop where
  tracked : c'.Tracked
  source : c'.source?.isSome = c.source?.isSome
  closed : c.isClosed = true → c'.isClosed = true
  failures : c'.closeFailures = thrown ++ c.closeFailures

omit [Source σ] in
/-- An open cursor holds a source in use. -/
theorem Tracked.uses {c : Cursor (Traced σ)} (h : c.Tracked) (hopen : c.isClosed = false) :
    Splitter.Uses c.splitter.handle c.splitter.ended := by
  obtain ⟨hhandle, -⟩ := h
  cases hh : c.splitter.handle with
  | held source =>
    rw [hh] at hhandle
    cases hhandle with
    | held hinUse => exact ⟨source, rfl, hinUse⟩
  | absent | released source n =>
    rw [Cursor.isClosed, Splitter.isClosed, hh] at hopen
    cases hopen

omit [Source σ] in
/-- The source of a closed cursor has been released. -/
theorem Tracked.released {c : Cursor (Traced σ)} (h : c.Tracked) (hclosed : c.isClosed = true)
    {source : Traced σ} (hsource : c.source? = some source) : source.Released := by
  obtain ⟨hhandle, -⟩ := h
  rw [isClosed, Splitter.isClosed] at hclosed
  rw [source?] at hsource
  cases hh : c.splitter.handle with
  | absent =>
    rw [hh] at hsource
    cases hsource
  | held source =>
    rw [hh] at hclosed
    cases hclosed
  | released source' n =>
    rw [hh] at hhandle hsource
    obtain rfl := Option.some.inj hsource
    cases hhandle with
    | released hreleased => exact hreleased

omit [Source σ] in
theorem Tracked.orderly {c : Cursor (Traced σ)} (h : c.Tracked) {source : Traced σ}
    (hsource : c.source? = some source) : source.Orderly := by
  cases hclosed : c.isClosed with
  | true => exact (h.released hclosed hsource).orderly
  | false =>
    obtain ⟨source', hheld, hinUse⟩ := h.uses hclosed
    rw [source?, hheld] at hsource
    obtain rfl := Option.some.inj hsource
    exact hinUse.orderly

omit [Source σ] in
/-- The source has been closed once if the cursor is closed, and not at all otherwise. -/
theorem Tracked.closes {c : Cursor (Traced σ)} (h : c.Tracked) {source : Traced σ}
    (hsource : c.source? = some source) : source.closes = c.isClosed.toNat := by
  cases hclosed : c.isClosed with
  | true => exact (h.released hclosed hsource).closed
  | false =>
    obtain ⟨source', hheld, hinUse⟩ := h.uses hclosed
    rw [source?, hheld] at hsource
    obtain rfl := Option.some.inj hsource
    exact hinUse.unclosed

omit [Source σ] in
theorem Goes.still {c : Cursor (Traced σ)} (h : c.Tracked) : c.Goes [] c :=
  ⟨h, rfl, id, rfl⟩

omit [Source σ] in
theorem Goes.trans {c c' c'' : Cursor (Traced σ)} {thrown thrown' : List Error}
    (h : c.Goes thrown c') (h' : c'.Goes thrown' c'') : c.Goes (thrown' ++ thrown) c'' where
  tracked := h'.tracked
  source := h'.source.trans h.source
  closed hclosed := h'.closed (h.closed hclosed)
  failures := by rw [h'.failures, h.failures, List.append_assoc]

omit [Source σ] in
theorem Goes.length_source {c c' : Cursor (Traced σ)} {thrown : List Error}
    (h : c.Goes thrown c') : c'.source?.toList.length = c.source?.toList.length := by
  rw [Option.length_toList, Option.length_toList, h.source]

omit [Source σ] in
/-- Taking the line that has been read ahead asks nothing of the source. -/
theorem Goes.taken {c c' : Cursor (Traced σ)} {thrown : List Error} (h : c.Goes thrown c') :
    c.Goes thrown { c' with mustRead := true } :=
  ⟨⟨h.tracked.handle, .inl rfl⟩, h.source, h.closed, h.failures⟩

omit [Source σ] in
/-- From one source in use to another no failure to close comes up. -/
theorem goes_of_uses {c c' : Cursor (Traced σ)}
    (h : Splitter.Uses c.splitter.handle c.splitter.ended)
    (h' : Splitter.Uses c'.splitter.handle c'.splitter.ended)
    (hatEnd : c'.mustRead = true ∨ c'.pending = true) : c.Goes [] c' := by
  obtain ⟨source, hheld, hinUse⟩ := h
  obtain ⟨source', hheld', hinUse'⟩ := h'
  refine ⟨⟨?_, ?_⟩, ?_, fun hclosed => ?_, ?_⟩
  · rw [hheld']
    exact .held hinUse'
  · rcases hatEnd with hmust | hpending
    · exact .inl hmust
    · exact .inr (.inl hpending)
  · rw [source?, source?, hheld, hheld']
    rfl
  · rw [isClosed, Splitter.isClosed, hheld] at hclosed
    cases hclosed
  · simp only [closeFailures, source?, hheld, hheld', Handle.source?, Option.toList_some,
      List.flatMap_singleton, hinUse.closeFailures, hinUse'.closeFailures, List.append_nil]

omit [Source σ] in
theorem isClosed_of_uses {c : Cursor (Traced σ)}
    (h : Splitter.Uses c.splitter.handle c.splitter.ended) : c.isClosed = false := by
  obtain ⟨source, hheld, -⟩ := h
  rw [isClosed, Splitter.isClosed, hheld]
  rfl

/-- Closing an open cursor closes its source. -/
theorem close_of_uses {c : Cursor (Traced σ)}
    (h : Splitter.Uses c.splitter.handle c.splitter.ended) :
    c.Goes c.close.1.toList c.close.2 ∧ c.close.2.isClosed = true := by
  have hopen := isClosed_of_uses h
  obtain ⟨source, hheld, hinUse⟩ := h
  obtain ⟨hreleased, hfailures⟩ := hinUse.close
  have hsplitter : c.splitter.isClosed = false := hopen
  have hclose : c.close = ((Source.close source).1, { c with
      splitter := { c.splitter with
        handle := .released (Source.close source).2 (Source.bytesRead source), chunk := [] }
      pending := false, mustRead := false }) := by
    simp only [Cursor.close, hopen, Splitter.close, hsplitter, hheld, Handle.release,
      Bool.false_eq_true, if_false]
  rw [hclose]
  refine ⟨⟨⟨.released hreleased, .inr (.inr rfl)⟩, ?_, fun _ => rfl, ?_⟩, rfl⟩
  · rw [source?, source?, hheld]
    rfl
  · simp only [closeFailures, source?, hheld, Handle.source?, Option.toList_some,
      List.flatMap_singleton, hinUse.closeFailures, hfailures, List.append_nil]

/-- Closing shows its failure. -/
theorem close_goes {c : Cursor (Traced σ)} (h : c.Tracked) :
    c.Goes c.close.1.toList c.close.2 ∧ c.close.2.isClosed = true := by
  cases hclosed : c.isClosed with
  | false => exact close_of_uses (h.uses hclosed)
  | true =>
    rw [close_of_isClosed hclosed]
    exact ⟨.still h, hclosed⟩

/-- At the end of the lines the cursor closes. -/
theorem atEnd_goes {c : Cursor (Traced σ)}
    (h : Splitter.Uses c.splitter.handle c.splitter.ended) :
    c.Goes (c.looked false).close.1.toList (c.looked false).close.2 ∧
      (c.looked false).close.2.isClosed = true := by
  have hnext : Splitter.Uses (c.looked false).splitter.handle (c.looked false).splitter.ended :=
    Splitter.readLine_uses h
  have hread : c.Goes [] { c.looked false with mustRead := true } :=
    goes_of_uses h hnext (.inl rfl)
  obtain ⟨hgoes, hclosed⟩ := close_of_uses hnext
  refine ⟨⟨hgoes.tracked, ?_, fun _ => hclosed, ?_⟩, hclosed⟩
  · exact hgoes.source.trans hread.source
  · have hfailures := congrArg ((c.looked false).close.1.toList ++ ·) hread.failures
    exact hgoes.failures.trans hfailures

/-- Asking for more shows the failure to close at the end, if there is one. -/
theorem hasMore_goes {c : Cursor (Traced σ)} (h : c.Tracked) :
    ∃ thrown, c.Goes thrown c.hasMore.2 ∧ thrown <+ (failure? c.hasMore.1).toList ∧
      (c.hasMore.1 = .ok false → c.hasMore.2.isClosed = true) := by
  cases hmust : c.mustRead with
  | false =>
    rw [hasMore_of_not_mustRead hmust]
    refine ⟨[], .still h, List.nil_sublist _, fun hfalse => ?_⟩
    have hpending : c.pending = false := Except.ok.inj hfalse
    rcases h.atEnd with hmust' | hpending' | hclosed
    · rw [hmust] at hmust'
      cases hmust'
    · rw [hpending] at hpending'
      cases hpending'
    · exact hclosed
  | true =>
    cases hclosed : c.isClosed with
    | true =>
      have hmore : c.hasMore = (.ok false, { c with pending := false, mustRead := false }) := by
        rw [hasMore, hmust, hclosed]
        rfl
      rw [hmore]
      exact ⟨[], ⟨⟨h.handle, .inr (.inr hclosed)⟩, rfl, id, rfl⟩, List.nil_sublist _,
        fun _ => hclosed⟩
    | false =>
      have huses := h.uses hclosed
      have hnext := Splitter.readLine_uses huses
      have hlooks := hasMore_looks hmust hclosed
      generalize c.hasMore = r at hlooks ⊢
      cases hlooks with
      | line =>
        have hgoes : c.Goes [] (c.looked true) := goes_of_uses huses hnext (.inr rfl)
        exact ⟨[], hgoes, List.nil_sublist _, fun hfalse => by cases hfalse⟩
      | failed =>
        have hgoes : c.Goes [] { c.looked c.pending with mustRead := true } :=
          goes_of_uses huses hnext (.inl rfl)
        exact ⟨[], hgoes, List.nil_sublist _, fun hfalse => by cases hfalse⟩
      | atEnd hclose =>
        obtain ⟨hgoes, hclosed'⟩ := atEnd_goes huses
        rw [hclose] at hgoes hclosed'
        exact ⟨[], hgoes, List.nil_sublist _, fun _ => hclosed'⟩
      | @unclosed e d hclose =>
        obtain ⟨hgoes, -⟩ := atEnd_goes huses
        rw [hclose] at hgoes
        exact ⟨[e], hgoes, List.Sublist.refl _, fun hfalse => by cases hfalse⟩

omit [Source σ] in
/-- An operation that shows no failure has not failed to close. -/
theorem Goes.of_ok {α : Type} {a : α} {c c' : Cursor (Traced σ)} {thrown : List Error}
    (h : c.Goes thrown c') (hthrown : thrown <+ (failure? (.ok a)).toList) : c.Goes [] c' := by
  obtain rfl : thrown = [] := List.sublist_nil.mp hthrown
  exact h

/-- Taking a line shows a failure as asking for one does. -/
theorem next_goes {c : Cursor (Traced σ)} (h : c.Tracked) :
    ∃ thrown, c.Goes thrown c.next.2 ∧ thrown <+ (failure? c.next.1).toList ∧
      (c.hasMore.1 = .ok false → c.next.2.isClosed = true) := by
  obtain ⟨thrown, hgoes, hthrown, hatEnd⟩ := hasMore_goes h
  rw [next]
  rcases hc : c.hasMore with ⟨e | (_ | _), c'⟩
  · rw [hc] at hgoes hthrown
    exact ⟨thrown, hgoes, hthrown, fun hfalse => by cases hfalse⟩
  · rw [hc] at hgoes hthrown hatEnd
    exact ⟨[], hgoes.of_ok hthrown, List.nil_sublist _, hatEnd⟩
  · rw [hc] at hgoes hthrown
    exact ⟨[], (hgoes.of_ok hthrown).taken, List.nil_sublist _, fun hfalse => by cases hfalse⟩

/-! ## Walks -/

theorem walk_goes {α : Type} (visit : Bytes → α → Visit α) (v : α) {c : Cursor (Traced σ)}
    (h : c.Tracked) :
    ∃ thrown, c.Goes thrown (c.walk visit v).cursor ∧
      thrown <+ (failure? (c.walk visit v).result).toList ∧
      ((c.walk visit v).ending = .exhausted → (c.walk visit v).cursor.isClosed = true) := by
  fun_induction Cursor.walk visit v c with
  | case1 v c e c' hc =>
    obtain ⟨thrown, hgoes, hthrown, -⟩ := hasMore_goes h
    rw [hc] at hgoes hthrown
    exact ⟨thrown, hgoes, hthrown, fun hend => by cases hend⟩
  | case2 v c c' hc =>
    obtain ⟨thrown, hgoes, hthrown, hatEnd⟩ := hasMore_goes h
    rw [hc] at hgoes hthrown hatEnd
    exact ⟨[], hgoes.of_ok hthrown, List.nil_sublist _, fun _ => hatEnd rfl⟩
  | case3 v c c' hc v' hv =>
    obtain ⟨thrown, hgoes, hthrown, -⟩ := hasMore_goes h
    rw [hc] at hgoes hthrown
    exact ⟨[], (hgoes.of_ok hthrown).taken, List.nil_sublist _, fun hend => by cases hend⟩
  | case4 v c c' hc v' hv ih =>
    obtain ⟨thrown, hgoes, hthrown, -⟩ := hasMore_goes h
    rw [hc] at hgoes hthrown
    have hone := (hgoes.of_ok hthrown).taken
    obtain ⟨thrown', hgoes', hthrown', hatEnd⟩ := ih hone.tracked
    refine ⟨thrown', ?_, hthrown', hatEnd⟩
    rw [← List.append_nil thrown']
    exact hone.trans hgoes'

end Cursor

end TextLines
